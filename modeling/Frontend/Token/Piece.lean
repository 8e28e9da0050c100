import Frontend.Diagnostic.Basic

/-!
# Cutting a text into pieces

A piece is the text of one token at the front of a text. `Piece.cut` takes the
longest piece that the characters in front allow: a comment, a symbol of two
characters before one of one, a run of word or number characters. A character
that starts none of these is a piece of its own, an illegal one.
-/

namespace Frontend

/-- The text of a token, with the text behind it. -/
structure Piece where
  kind : Kind
  text : List Char
  rest : List Char
  /-- What is wrong with the piece, if anything is. -/
  cause? : Option Cause
deriving DecidableEq

/-- Whether a character can start a word. -/
def isWordStart (c : Char) : Bool := c.isAlpha || c = '_'

/-- Whether a character can go on in a word. -/
def isWordPart (c : Char) : Bool := isWordStart c || c.isDigit

/-- Whether a character can go on in a number. -/
def isNumberPart (c : Char) : Bool := c.isDigit || c = '.'

/-- Splits a text behind the first `*/` in it. -/
def splitComment? : List Char → Option (List Char × List Char)
  | [] => none
  | c :: cs =>
      if c = '*' ∧ cs.head? = some '/' then some (['*', '/'], cs.tail)
      else (splitComment? cs).map fun (body, rest) => (c :: body, rest)

theorem append_of_splitComment?_eq_some {cs body rest : List Char}
    (h : splitComment? cs = some (body, rest)) : body ++ rest = cs := by
  induction cs generalizing body rest with
  | nil => simp [splitComment?] at h
  | cons c cs ih =>
      rw [splitComment?] at h
      split at h
      · next hc =>
          obtain ⟨rfl, hd⟩ := hc
          cases cs with
          | nil => simp at hd
          | cons d ds =>
              obtain rfl : d = '/' := by simpa using hd
              cases h
              rfl
      · obtain ⟨⟨b, r⟩, hb, hbr⟩ := Option.map_eq_some_iff.mp h
        cases hbr
        simp [ih hb]

namespace Piece

/-- A comment up to the end of the line. -/
def lineComment (cs : List Char) : Piece :=
  ⟨.comment, cs.takeWhile (· ≠ '\n'), cs.dropWhile (· ≠ '\n'), none⟩

/-- A comment up to its closing mark; `cs` is the text behind the opening mark.
Without a closing mark it takes all of the text. -/
def blockComment (cs : List Char) : Piece :=
  match splitComment? cs with
  | some (body, rest) => ⟨.comment, '/' :: '*' :: body, rest, none⟩
  | none => ⟨.comment, '/' :: '*' :: cs, [], some .unterminatedComment⟩

/-- A number: digits and dots. Whether they make a literal is decided later. -/
def number (cs : List Char) : Piece :=
  ⟨.number, cs.takeWhile isNumberPart, cs.dropWhile isNumberPart, none⟩

/-- A word: reserved, or an identifier. -/
def word (cs : List Char) : Piece :=
  let text := cs.takeWhile isWordPart
  ⟨Kind.ofWord (String.ofList text), text, cs.dropWhile isWordPart, none⟩

/-- A symbol of two characters, if `c` and the character behind it make one. -/
def pair? (c : Char) (cs : List Char) : Option Piece :=
  match cs with
  | [] => none
  | d :: rest => (Symbol.ofPair? c d).map fun s => ⟨.symbol s, [c, d], rest, none⟩

/-- A symbol of one character, if `c` is one. -/
def single? (c : Char) (cs : List Char) : Option Piece :=
  (Symbol.ofChar? c).map fun s => ⟨.symbol s, [c], cs, none⟩

/-- An unrecognised character. -/
def illegal (c : Char) (cs : List Char) : Piece :=
  ⟨.illegal, [c], cs, some (.unrecognisedToken (String.ofList [c]))⟩

/-- The first piece of the text `c :: cs`, which starts with no blank. -/
def cut (c : Char) (cs : List Char) : Piece :=
  if c = '/' ∧ cs.head? = some '/' then lineComment (c :: cs)
  else if c = '/' ∧ cs.head? = some '*' then blockComment cs.tail
  else
    match pair? c cs, single? c cs with
    | some piece, _ => piece
    | none, some piece => piece
    | none, none =>
        if c.isDigit then number (c :: cs)
        else if isWordStart c then word (c :: cs)
        else illegal c cs

/-! ## The forms of a piece -/

/-- Whether a comment starts with `c` and the character behind it. -/
def OpensComment (c : Char) (cs : List Char) : Prop :=
  c = '/' ∧ (cs.head? = some '/' ∨ cs.head? = some '*')

/-- The first piece of a text has one of seven forms, tried in this order. -/
theorem cut_cases {motive : Char → List Char → Piece → Prop}
    (line : ∀ cs, motive '/' ('/' :: cs) (lineComment ('/' :: '/' :: cs)))
    (block : ∀ cs, motive '/' ('*' :: cs) (blockComment cs))
    (pair : ∀ c d cs s, ¬ OpensComment c (d :: cs) → Symbol.ofPair? c d = some s →
      motive c (d :: cs) ⟨.symbol s, [c, d], cs, none⟩)
    (single : ∀ c cs s, ¬ OpensComment c cs → pair? c cs = none →
      Symbol.ofChar? c = some s → motive c cs ⟨.symbol s, [c], cs, none⟩)
    (number : ∀ c cs, Symbol.ofChar? c = none → c.isDigit →
      motive c cs (number (c :: cs)))
    (word : ∀ c cs, Symbol.ofChar? c = none → isWordStart c →
      motive c cs (word (c :: cs)))
    (illegal : ∀ c cs, Symbol.ofChar? c = none → c.isDigit = false →
      isWordStart c = false → motive c cs (illegal c cs))
    (c : Char) (cs : List Char) : motive c cs (cut c cs) := by
  unfold cut
  split
  · next h =>
      obtain ⟨rfl, hd⟩ := h
      cases cs with
      | nil => simp at hd
      | cons d ds =>
          obtain rfl : d = '/' := by simpa using hd
          exact line ds
  next hline =>
  split
  · next h =>
      obtain ⟨rfl, hd⟩ := h
      cases cs with
      | nil => simp at hd
      | cons d ds =>
          obtain rfl : d = '*' := by simpa using hd
          exact block ds
  next hblock =>
  have hopen : ¬ OpensComment c cs := by
    rintro ⟨rfl, h | h⟩
    · exact hline ⟨rfl, h⟩
    · exact hblock ⟨rfl, h⟩
  split
  · next piece hp =>
      cases cs with
      | nil => simp [pair?] at hp
      | cons d ds =>
          obtain ⟨s, hs, rfl⟩ := Option.map_eq_some_iff.mp hp
          exact pair c d ds s hopen hs
  · next piece hnone hp =>
      obtain ⟨s, hs, rfl⟩ := Option.map_eq_some_iff.mp hp
      exact single c cs s hopen hnone hs
  · next _ hp =>
      have hc : Symbol.ofChar? c = none := Option.map_eq_none_iff.mp hp
      split
      · next h => exact number c cs hc h
      · next hd =>
          split
          · next h => exact word c cs hc h
          · next hw => exact illegal c cs hc (by simpa using hd) (by simpa using hw)

/-- Cutting loses nothing. -/
theorem cut_text_append_rest (c : Char) (cs : List Char) :
    (cut c cs).text ++ (cut c cs).rest = c :: cs := by
  refine cut_cases (motive := fun c cs piece => piece.text ++ piece.rest = c :: cs)
    ?_ ?_ ?_ ?_ ?_ ?_ ?_ c cs
  · intro cs; simp [lineComment]
  · intro cs
    unfold blockComment
    split
    · next h => simp [append_of_splitComment?_eq_some h]
    · simp
  · intros; rfl
  · intros; rfl
  · intros; simp [number]
  · intros; simp [word]
  · intros; rfl

/-- Every piece takes a character. -/
theorem cut_text_ne_nil (c : Char) (cs : List Char) : (cut c cs).text ≠ [] := by
  refine cut_cases (motive := fun _ _ piece => piece.text ≠ []) ?_ ?_ ?_ ?_ ?_ ?_ ?_ c cs
  · intro cs; simp [lineComment]
  · intro cs
    unfold blockComment
    split <;> simp
  · intros; simp
  · intros; simp
  · intro c cs _ h; simp [number, isNumberPart, h]
  · intro c cs _ h; simp [word, isWordPart, h]
  · intros; simp [illegal]

/-- No piece ends the input. -/
theorem cut_kind_ne_eof (c : Char) (cs : List Char) : (cut c cs).kind ≠ .eof := by
  refine cut_cases (motive := fun _ _ piece => piece.kind ≠ .eof) ?_ ?_ ?_ ?_ ?_ ?_ ?_ c cs
  · intro cs; simp [lineComment]
  · intro cs
    unfold blockComment
    split <;> simp
  · intros; simp
  · intros; simp
  · intros; simp [number]
  · intros; exact Kind.ofWord_ne_eof _
  · intros; simp [illegal]

end Piece

end Frontend
