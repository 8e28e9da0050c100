import Frontend.Text.Size

/-!
# Cutting a text between two bytes

A text can be cut in front of a byte only if a character starts there or the text ends
there: no character is cut in two. `cutAt?` gives the parts in front of and behind the
place, `from?` the one behind it and `slice?` the text between two places. They give
nothing where the text cannot be cut.
-/

namespace Frontend.Text

/-- The parts of a text in front of a byte and from it on. -/
def cutAt? : List Char → Nat → Option (List Char × List Char)
  | cs, 0 => some ([], cs)
  | [], _ + 1 => none
  | c :: cs, n + 1 =>
      if c.utf8Size ≤ n + 1 then
        (cutAt? cs (n + 1 - c.utf8Size)).map fun (front, rest) => (c :: front, rest)
      else none

/-- The text from a byte on. -/
def from? (cs : List Char) (start : Nat) : Option (List Char) := (cutAt? cs start).map (·.2)

/-- The text from one byte to another. -/
def slice? (cs : List Char) (start stop : Nat) : Option (List Char) :=
  if start ≤ stop then do
    let rest ← from? cs start
    let (text, _) ← cutAt? rest (stop - start)
    return text
  else none

/-- A character starts at this byte, or the text ends there. -/
def IsBoundary (cs : List Char) (n : Nat) : Prop :=
  ∃ front rest, cs = front ++ rest ∧ byteSize front = n

theorem cutAt?_eq_some_iff {cs front rest : List Char} {n : Nat} :
    cutAt? cs n = some (front, rest) ↔ cs = front ++ rest ∧ byteSize front = n := by
  induction cs, n using cutAt?.induct generalizing front with
  | case1 cs =>
      rw [cutAt?]
      constructor
      · rintro ⟨⟩
        exact ⟨rfl, rfl⟩
      · rintro ⟨rfl, h⟩
        cases front with
        | nil => rfl
        | cons c front => exact absurd h (Nat.ne_of_gt (byteSize_pos (List.cons_ne_nil c front)))
  | case2 n =>
      rw [cutAt?]
      constructor
      · intro h
        cases h
      · rintro ⟨h, hn⟩
        obtain rfl := (List.append_eq_nil_iff.mp h.symm).1
        cases hn
  | case3 n c cs hle ih =>
      rw [cutAt?, if_pos hle, Option.map_eq_some_iff]
      constructor
      · rintro ⟨⟨front', rest'⟩, hcut, heq⟩
        cases heq
        obtain ⟨rfl, hn⟩ := ih.mp hcut
        exact ⟨rfl, by rw [byteSize_cons, hn]; omega⟩
      · rintro ⟨heq, hn⟩
        cases front with
        | nil => cases hn
        | cons d front =>
            obtain ⟨rfl, rfl⟩ := List.cons.inj heq
            rw [byteSize_cons] at hn
            exact ⟨(front, rest), ih.mpr ⟨rfl, by omega⟩, rfl⟩
  | case4 n c cs hgt =>
      rw [cutAt?, if_neg hgt]
      constructor
      · intro h
        cases h
      · rintro ⟨heq, hn⟩
        cases front with
        | nil => cases hn
        | cons d front =>
            obtain ⟨rfl, rfl⟩ := List.cons.inj heq
            rw [byteSize_cons] at hn
            omega

theorem from?_byteSize (front rest : List Char) :
    from? (front ++ rest) (byteSize front) = some rest := by
  rw [from?, cutAt?_eq_some_iff.mpr ⟨rfl, rfl⟩]
  rfl

/-- The text between two places at which it can be cut. -/
theorem slice?_eq_some_iff {cs text : List Char} {start stop : Nat} :
    slice? cs start stop = some text ↔
      ∃ front rest, cs = front ++ text ++ rest ∧ byteSize front = start ∧
        byteSize (front ++ text) = stop := by
  rw [slice?, from?]
  constructor
  · intro h
    split at h
    · next hle =>
        obtain ⟨behind, hfront, htext⟩ := Option.bind_eq_some_iff.mp h
        obtain ⟨⟨front, _⟩, hcut, rfl⟩ := Option.map_eq_some_iff.mp hfront
        obtain ⟨⟨_, rest⟩, hcut', heq⟩ := Option.bind_eq_some_iff.mp htext
        cases heq
        obtain ⟨rfl, hstart⟩ := cutAt?_eq_some_iff.mp hcut
        obtain ⟨rfl, hstop⟩ := cutAt?_eq_some_iff.mp hcut'
        exact ⟨front, rest, (List.append_assoc _ _ _).symm, hstart, by
          rw [byteSize_append]; omega⟩
    · cases h
  · rintro ⟨front, rest, rfl, rfl, rfl⟩
    rw [byteSize_append, if_pos (Nat.le_add_right _ _), Nat.add_sub_cancel_left, List.append_assoc,
      cutAt?_eq_some_iff.mpr ⟨rfl, rfl⟩]
    simp [cutAt?_eq_some_iff.mpr (⟨rfl, rfl⟩ : text ++ rest = text ++ rest ∧ _)]

end Frontend.Text
