import Frontend.Text.Size

/-!
# Lines of a source

A line runs up to and including its line feed; only the last line may lack one.
`lineAt?` finds the line that holds a given byte. The position just behind the
last byte, where the end of the input is reported, belongs to the last line when
that line has no line feed, and to an empty line after it otherwise.
-/

namespace Frontend

open Text

/-- A line of a source, seen from one position of it. -/
structure Line where
  /-- Counted from one. -/
  number : Nat
  /-- The text of the line with its line feed, if it has one. -/
  text : String
  /-- How many bytes of the line stand before the position. -/
  column : Nat
deriving DecidableEq

/-- Cuts a text behind each line feed. -/
def splitLines : List Char → List (List Char)
  | [] => []
  | c :: cs =>
      if c = '\n' then [c] :: splitLines cs
      else
        match splitLines cs with
        | [] => [[c]]
        | line :: lines => (c :: line) :: lines

/-- Cutting loses nothing. -/
theorem splitLines_flatten (cs : List Char) : (splitLines cs).flatten = cs := by
  induction cs with
  | nil => rfl
  | cons c cs ih =>
      rw [splitLines]
      split
      · simp [ih]
      · split
        · next h => simp_all
        · next h => rw [h] at ih; simpa using ih

/-- Walks over `lines`, the first of which has the given number, to the byte
`position` of their text. -/
def Line.locate (number position : Nat) : List (List Char) → Line
  | [] => ⟨number, "", 0⟩
  | line :: lines =>
      if position < byteSize line ∨ (lines = [] ∧ line.getLast? ≠ some '\n') then
        ⟨number, String.ofList line, position⟩
      else
        Line.locate (number + 1) (position - byteSize line) lines

/-- The line of `source` that holds the byte at `position`, if the position is
not beyond the end. -/
def lineAt? (source : String) (position : Nat) : Option Line :=
  if position ≤ byteSize source.toList then
    some (Line.locate 1 position (splitLines source.toList))
  else none

end Frontend
