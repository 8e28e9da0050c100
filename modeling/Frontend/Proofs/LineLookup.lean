import Frontend.Source.Line
import Mathlib.Data.List.Basic

/-!
# The line of a position

A source is cut into lines behind each line feed, and the line of a position is found by
walking over the lines. `lineAt?_exact` says what is found without the walk: the line
starts the source or stands behind a line feed, it ends the source or with a line feed, it
has no other line feed in it, and its number is one more than the number of line feeds in
front of the position.

The line feeds are counted in the bytes of the source, since a position may point into the
middle of a character. No byte of a longer character is a line feed, so that the bytes and
the characters agree about the lines (`lineFeed_notMem_bytes`).

The position behind the last byte is in no line that ends with a line feed. It is at the
end of the last line if that has none, and else in an empty line of its own.
-/

namespace Frontend

open Text

namespace Text

/-- The bytes of a text in UTF-8. -/
def bytes (cs : List Char) : List UInt8 := cs.flatMap String.utf8EncodeChar

@[simp]
theorem bytes_append (as bs : List Char) : bytes (as ++ bs) = bytes as ++ bytes bs :=
  List.flatMap_append

@[simp]
theorem length_bytes (cs : List Char) : (bytes cs).length = byteSize cs := by
  induction cs with
  | nil => rfl
  | cons c cs ih =>
      rw [bytes, List.flatMap_cons, List.length_append, String.length_utf8EncodeChar, ← bytes, ih,
        byteSize_cons]

/-- They are the bytes that a string is made of. -/
theorem bytes_toList (s : String) : bytes s.toList = s.toUTF8.data.toList := by
  rw [String.toUTF8, ← String.utf8Encode_toList, List.utf8Encode, List.data_toByteArray, bytes]

theorem byteSize_toList (s : String) : byteSize s.toList = s.utf8ByteSize := by
  rw [← length_bytes, bytes_toList]
  rfl

/-- The line feed as a byte. -/
def lineFeed : UInt8 := 10

/-- No other character has a line feed among its bytes. -/
theorem lineFeed_notMem_utf8EncodeChar {c : Char} (h : c ≠ '\n') :
    lineFeed ∉ String.utf8EncodeChar c := by
  have hc : c.val.toNat ≠ 10 := fun hval => h (Char.ext (UInt32.toNat_inj.mp hval))
  have hne : ∀ n : Nat, n % 256 ≠ 10 → lineFeed ≠ UInt8.ofNat n := by
    rintro n hn heq
    exact hn (congrArg UInt8.toNat heq).symm
  rw [String.utf8EncodeChar]
  split
  · rw [List.mem_singleton]
    exact hne _ (by omega)
  split
  · simp only [List.mem_cons, List.not_mem_nil, or_false, not_or]
    exact ⟨hne _ (by omega), hne _ (by omega)⟩
  split
  · simp only [List.mem_cons, List.not_mem_nil, or_false, not_or]
    exact ⟨hne _ (by omega), hne _ (by omega), hne _ (by omega)⟩
  · simp only [List.mem_cons, List.not_mem_nil, or_false, not_or]
    exact ⟨hne _ (by omega), hne _ (by omega), hne _ (by omega), hne _ (by omega)⟩

theorem lineFeed_notMem_bytes {cs : List Char} (h : '\n' ∉ cs) : lineFeed ∉ bytes cs := by
  rw [bytes, List.mem_flatMap]
  rintro ⟨c, hc, hmem⟩
  exact lineFeed_notMem_utf8EncodeChar (fun heq => h (heq ▸ hc)) hmem

/-- How many of the first bytes of a text are line feeds. -/
def lineFeeds (cs : List Char) (position : Nat) : Nat :=
  ((bytes cs).take position).count lineFeed

theorem lineFeeds_eq_zero {body rest : List Char} (hbody : '\n' ∉ body) {position : Nat}
    (hle : position ≤ byteSize body) : lineFeeds (body ++ rest) position = 0 := by
  rw [lineFeeds, bytes_append, List.take_append_of_le_length (by rwa [length_bytes])]
  exact List.count_eq_zero.mpr fun hmem =>
    lineFeed_notMem_bytes hbody (List.mem_of_mem_take hmem)

/-- Behind the first line there is one line feed more. -/
theorem lineFeeds_behind {body rest : List Char} (hbody : '\n' ∉ body) {position : Nat}
    (hle : byteSize (body ++ ['\n']) ≤ position) :
    lineFeeds (body ++ ['\n'] ++ rest) position =
      lineFeeds rest (position - byteSize (body ++ ['\n'])) + 1 := by
  have hline : (bytes (body ++ ['\n'])).count lineFeed = 1 := by
    have hend : bytes ['\n'] = [lineFeed] := rfl
    rw [bytes_append, List.count_append, List.count_eq_zero.mpr (lineFeed_notMem_bytes hbody), hend]
    rfl
  have hlength := length_bytes (body ++ ['\n'])
  rw [lineFeeds, bytes_append, List.take_append, List.take_of_length_le (by omega),
    List.count_append, hline, hlength, Nat.add_comm]
  rfl

end Text

/-! ## Lines -/

/-- Each of the lines has its line feed at the end and none elsewhere; only the last one
may lack it. -/
inductive AreLines : List (List Char) → Prop
  | nil : AreLines []
  | last {line : List Char} (hne : line ≠ []) (hline : '\n' ∉ line) : AreLines [line]
  | cons {body : List Char} {lines : List (List Char)} (hbody : '\n' ∉ body)
      (h : AreLines lines) : AreLines ((body ++ ['\n']) :: lines)

theorem splitLines_areLines (cs : List Char) : AreLines (splitLines cs) := by
  induction cs with
  | nil => exact .nil
  | cons c cs ih =>
      rw [splitLines]
      split
      · next hc =>
          have hempty : '\n' ∉ ([] : List Char) := List.not_mem_nil
          rw [hc]
          exact .cons hempty ih
      · next hc =>
          have hadd : ∀ line : List Char, '\n' ∉ line → '\n' ∉ c :: line := by
            intro line hline
            rw [List.mem_cons, not_or]
            exact ⟨fun heq => hc heq.symm, hline⟩
          generalize splitLines cs = lines at ih
          cases ih with
          | nil => exact .last (by simp) (hadd [] (by simp))
          | last hne hline => exact .last (by simp) (hadd _ hline)
          | cons hbody h => exact .cons (hadd _ hbody) h

/-- The line is the one of the text `cs` in which the position is, between the lines in
front of it and those behind it. -/
structure Line.Around (line : Line) (cs : List Char) (position : Nat)
    (before after : List Char) : Prop where
  split : cs = before ++ line.text.toList ++ after
  offset : byteSize before + line.column = position
  before : before = [] ∨ before.getLast? = some '\n'
  text : '\n' ∉ line.text.toList.dropLast
  after : after = [] ∨ line.text.toList.getLast? = some '\n'
  inside : position < byteSize cs → line.column < byteSize line.text.toList
  atEnd : position = byteSize cs →
    line.column = byteSize line.text.toList ∧ line.text.toList.getLast? ≠ some '\n'

namespace Line

/-- One line more in front. -/
theorem Around.prepend {line : Line} {cs before after : List Char} {position : Nat}
    (h : line.Around cs position before after) (body : List Char) :
    line.Around (body ++ ['\n'] ++ cs) (byteSize (body ++ ['\n']) + position)
      (body ++ ['\n'] ++ before) after where
  split := by rw [h.split]; simp
  offset := by rw [byteSize_append, Nat.add_assoc, h.offset]
  before := by
    rcases h.before with rfl | hlast
    · exact .inr (by simp)
    · exact .inr (by rw [List.getLast?_append, hlast]; rfl)
  text := h.text
  after := h.after
  inside hlt := h.inside (by rw [byteSize_append _ cs] at hlt; omega)
  atEnd heq := h.atEnd (by rw [byteSize_append _ cs] at heq; omega)

section Locate

variable {line body : List Char} {lines : List (List Char)} {number position : Nat}

theorem locate_last (h : '\n' ∉ line) :
    locate number position [line] = ⟨number, String.ofList line, position⟩ :=
  if_pos (.inr ⟨rfl, fun hlast => h (List.mem_of_getLast? hlast)⟩)

theorem locate_inside (h : position < byteSize line) :
    locate number position (line :: lines) = ⟨number, String.ofList line, position⟩ :=
  if_pos (.inl h)

theorem locate_behind (h : byteSize (body ++ ['\n']) ≤ position) :
    locate number position ((body ++ ['\n']) :: lines) =
      locate (number + 1) (position - byteSize (body ++ ['\n'])) lines := by
  refine if_neg ?_
  rintro (hlt | ⟨-, hlast⟩)
  · omega
  · exact hlast (by simp)

theorem locate_around (number : Nat) (h : AreLines lines)
    (hle : position ≤ byteSize lines.flatten) :
    ∃ before after, (locate number position lines).Around lines.flatten position before after := by
  induction h generalizing number position with
  | nil =>
      obtain rfl : position = 0 := Nat.le_zero.mp hle
      refine ⟨[], [], rfl, rfl, .inl rfl, by simp [locate], .inl rfl, ?_, ?_⟩
      · exact fun hlt => absurd hlt (by simp)
      · exact fun _ => ⟨rfl, by simp [locate]⟩
  | @last line hne hline =>
      rw [List.flatten_singleton] at hle ⊢
      rw [locate_last hline]
      refine ⟨[], [], by simp, by simp, .inl rfl, ?_, .inl rfl, ?_, ?_⟩
      · rw [String.toList_ofList]
        exact fun hmem => hline ((List.dropLast_sublist line).subset hmem)
      · exact fun hlt => by rwa [String.toList_ofList]
      · intro heq
        rw [String.toList_ofList]
        exact ⟨heq, fun hlast => hline (List.mem_of_getLast? hlast)⟩
  | @cons body lines hbody _ ih =>
      rw [List.flatten_cons] at hle ⊢
      by_cases hin : position < byteSize (body ++ ['\n'])
      · rw [locate_inside hin]
        refine ⟨[], lines.flatten, by simp, by simp, .inl rfl, ?_, .inr (by simp), ?_, ?_⟩
        · simpa using hbody
        · exact fun _ => by rwa [String.toList_ofList]
        · intro heq
          rw [byteSize_append _ lines.flatten] at heq
          omega
      · have hbehind : byteSize (body ++ ['\n']) ≤ position := Nat.le_of_not_lt hin
        rw [byteSize_append _ lines.flatten] at hle
        obtain ⟨before, after, hrest⟩ := ih (number + 1) (Nat.sub_le_iff_le_add'.mpr hle)
        have haround := hrest.prepend body
        rw [Nat.add_sub_cancel' hbehind, ← locate_behind hbehind] at haround
        exact ⟨_, after, haround⟩

theorem locate_number (number : Nat) (h : AreLines lines)
    (hle : position ≤ byteSize lines.flatten) :
    (locate number position lines).number = number + lineFeeds lines.flatten position := by
  induction h generalizing number position with
  | nil => simp [locate, lineFeeds, bytes]
  | @last line hne hline =>
      rw [List.flatten_singleton] at hle ⊢
      rw [locate_last hline, ← List.append_nil line, lineFeeds_eq_zero hline hle]
      rfl
  | @cons body lines hbody _ ih =>
      rw [List.flatten_cons] at hle ⊢
      by_cases hin : position < byteSize (body ++ ['\n'])
      · have hsize : byteSize (body ++ ['\n']) = byteSize body + 1 := byteSize_append _ _
        rw [locate_inside hin, List.append_assoc, lineFeeds_eq_zero hbody (by omega)]
        rfl
      · have hbehind : byteSize (body ++ ['\n']) ≤ position := Nat.le_of_not_lt hin
        rw [byteSize_append _ lines.flatten] at hle
        rw [locate_behind hbehind, ih _ (by omega), lineFeeds_behind hbody hbehind]
        omega

end Locate

end Line

theorem lineAt?_eq_none_iff {source : String} {position : Nat} :
    lineAt? source position = none ↔ source.utf8ByteSize < position := by
  rw [lineAt?, byteSize_toList]
  split
  · next hle => simpa using hle
  · next hlt => simpa using hlt

theorem exists_lineAt? {source : String} {position : Nat}
    (h : position ≤ source.utf8ByteSize) :
    ∃ line before after, lineAt? source position = some line ∧
      line.number = 1 + lineFeeds source.toList position ∧
      line.Around source.toList position before after := by
  rw [← byteSize_toList] at h
  have hlines := splitLines_areLines source.toList
  have hflatten := splitLines_flatten source.toList
  have hle : position ≤ byteSize (splitLines source.toList).flatten := hflatten.symm ▸ h
  have hnumber := Line.locate_number 1 hlines hle
  obtain ⟨before, after, haround⟩ := Line.locate_around 1 hlines hle
  rw [hflatten] at hnumber haround
  exact ⟨_, before, after, if_pos h, hnumber, haround⟩

/-- A position that is not beyond the end of a source has a line, and that is the line
around it. -/
theorem lineAt?_exact (source : String) (position : Nat) :
    (lineAt? source position = none ↔ source.utf8ByteSize < position) ∧
      (position ≤ source.utf8ByteSize ↔ ∃ line before after,
        lineAt? source position = some line ∧
        line.number = 1 + (source.toUTF8.data.toList.take position).count 10 ∧
        line.Around source.toList position before after) := by
  refine ⟨lineAt?_eq_none_iff, fun hle => ?_, ?_⟩
  · obtain ⟨line, before, after, hline, hnumber, haround⟩ := exists_lineAt? hle
    rw [lineFeeds, bytes_toList] at hnumber
    exact ⟨line, before, after, hline, hnumber, haround⟩
  · rintro ⟨line, before, after, hline, -⟩
    by_contra hlt
    rw [lineAt?_eq_none_iff.mpr (by omega)] at hline
    cases hline

/-- A position within a character of three bytes, and the one behind the last line feed. -/
example : lineAt? "a\n€;\n" 4 = some ⟨2, "€;\n", 2⟩ ∧ lineAt? "a\n€;\n" 7 = some ⟨3, "", 0⟩ := by
  decide

end Frontend
