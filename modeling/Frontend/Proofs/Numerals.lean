import Frontend.Proofs.Outcome
import Frontend.Proofs.Printing
import Mathlib.Data.Nat.Digits.Defs

/-!
# Number literals

A scanner takes any run of digits and dots for a number, and a replayed token may
carry any text at all. Which texts are literals is decided when the token is read:
digits alone are an integer, as long as their value fits into 128 bits, and digits with
one dot behind the first of them are a number of double precision. Leading zeros count
for nothing, so there is no bound on the length of an integer.

`IsWhole` and `IsFraction` say this of a text, and `placeValue` gives each digit the
weight of its place.
-/

namespace Frontend

/-- The text is one digit or more. -/
def IsWhole (cs : List Char) : Prop := cs ≠ [] ∧ ∀ c ∈ cs, c.isDigit

/-- The text is one digit or more, a dot, and any number of digits. -/
def IsFraction (cs : List Char) : Prop :=
  ∃ whole fraction, cs = whole ++ '.' :: fraction ∧ IsWhole whole ∧ ∀ c ∈ fraction, c.isDigit

/-- The number that a run of decimal digits stands for, the last of which counts ones. -/
def placeValue (cs : List Char) : Nat :=
  Nat.ofDigits 10 (cs.reverse.map fun c => c.toNat - '0'.toNat)

namespace Literal

theorem integerLimit_eq : integerLimit = 2 ^ 128 := by
  norm_num [integerLimit]

/-- Reading the digits from the front gives each of them the weight of its place. -/
theorem digitsValue_eq_placeValue (cs : List Char) : digitsValue cs = placeValue cs := by
  induction cs using List.reverseRecOn with
  | nil => rfl
  | append_singleton cs c ih =>
      have hstep : digitsValue (cs ++ [c]) = 10 * digitsValue cs + (c.toNat - '0'.toNat) := by
        simp [digitsValue]
      rw [hstep, ih, placeValue, placeValue, List.reverse_append, List.reverse_singleton,
        List.singleton_append, List.map_cons, Nat.ofDigits_cons, Nat.add_comm]

theorem read?_of_isWhole {text : String} (h : IsWhole text.toList) :
    read? text =
      if placeValue text.toList < 2 ^ 128 then some (.integer (placeValue text.toList))
      else none := by
  have hnothing : ∀ c ∈ ([] : List Char).head?, c.isDigit = false := by simp
  obtain ⟨htake, hdrop⟩ := run_append h.2 hnothing
  rw [List.append_nil] at htake hdrop
  have hfull : text.toList.isEmpty = false := by simpa using h.1
  simp only [read?, htake, hdrop, hfull, digitsValue_eq_placeValue, integerLimit_eq]
  rfl

theorem exists_read?_of_isFraction {text : String} (h : IsFraction text.toList) :
    ∃ x, read? text = some (.float x) := by
  obtain ⟨whole, fraction, htext, hwhole, hfraction⟩ := h
  have hdot : ∀ c ∈ ('.' :: fraction).head?, c.isDigit = false := by
    rintro c ⟨rfl⟩
    decide
  obtain ⟨htake, hdrop⟩ := run_append hwhole.2 hdot
  have hfull : whole.isEmpty = false := by simpa using hwhole.1
  have hall : fraction.all Char.isDigit := List.all_eq_true.mpr hfraction
  simp only [read?, htext, htake, hdrop, hfull, hall, and_self, if_true]
  exact ⟨_, rfl⟩

/-- A text that is read as a literal has one of the two forms. -/
theorem isWhole_or_isFraction_of_read? {text : String} {value : Literal}
    (h : read? text = some value) : IsWhole text.toList ∨ IsFraction text.toList := by
  have hsplit : text.toList.takeWhile Char.isDigit ++ text.toList.dropWhile Char.isDigit =
      text.toList := List.takeWhile_append_dropWhile
  have hdigits : ∀ c ∈ text.toList.takeWhile Char.isDigit, c.isDigit :=
    fun c hc => List.mem_takeWhile_imp hc
  unfold read? at h
  simp only at h
  split at h
  · cases h
  · next hsome =>
      have hwhole : IsWhole (text.toList.takeWhile Char.isDigit) :=
        ⟨fun hnil => hsome (by rw [hnil]; rfl), hdigits⟩
      split at h
      · next hrest =>
          rw [hrest, List.append_nil] at hsplit
          exact .inl (hsplit ▸ hwhole)
      · next c fraction hrest =>
          split at h
          · next hfraction =>
              rw [hrest, hfraction.1] at hsplit
              exact .inr ⟨_, fraction, hsplit.symm, hwhole, List.all_eq_true.mp hfraction.2⟩
          · cases h

theorem read?_eq_integer_iff {text : String} {n : Nat} :
    read? text = some (.integer n) ↔
      IsWhole text.toList ∧ n = placeValue text.toList ∧ n < 2 ^ 128 := by
  constructor
  · intro h
    rcases isWhole_or_isFraction_of_read? h with hwhole | hfraction
    · rw [read?_of_isWhole hwhole] at h
      split at h
      · next hlt =>
          cases h
          exact ⟨hwhole, rfl, hlt⟩
      · cases h
    · obtain ⟨x, hx⟩ := exists_read?_of_isFraction hfraction
      rw [hx] at h
      cases h
  · rintro ⟨hwhole, rfl, hlt⟩
    rw [read?_of_isWhole hwhole, if_pos hlt]

theorem exists_read?_eq_float_iff {text : String} :
    (∃ x, read? text = some (.float x)) ↔ IsFraction text.toList := by
  constructor
  · rintro ⟨x, h⟩
    refine (isWhole_or_isFraction_of_read? h).resolve_left fun hwhole => ?_
    rw [read?_of_isWhole hwhole] at h
    split at h <;> cases h
  · exact exists_read?_of_isFraction

theorem read?_eq_none_iff {text : String} :
    read? text = none ↔
      ¬ (IsWhole text.toList ∧ placeValue text.toList < 2 ^ 128) ∧ ¬ IsFraction text.toList := by
  constructor
  · intro h
    constructor
    · rintro ⟨hwhole, hlt⟩
      rw [read?_of_isWhole hwhole, if_pos hlt] at h
      cases h
    · intro hfraction
      obtain ⟨x, hx⟩ := exists_read?_of_isFraction hfraction
      rw [hx] at h
      cases h
  · rintro ⟨hinteger, hfraction⟩
    cases h : read? text with
    | none => rfl
    | some value =>
        have hwhole := (isWhole_or_isFraction_of_read? h).resolve_right hfraction
        rw [read?_of_isWhole hwhole, if_neg fun hlt => hinteger ⟨hwhole, hlt⟩] at h
        cases h

end Literal

namespace Parser

/-- Reading a number literal looks at the current token and moves nothing. -/
theorem number_eq (p : Parser) :
    number p = match Literal.read? p.current.lexeme with
      | some value => .ok (.number p.current value) p
      | none => .error (.rejected ⟨.malformedNumber p.current.lexeme, p.current.span.start⟩) p := by
  have hcurrent : currentToken p = .ok p.current p := rfl
  refine (bind_of_ok hcurrent).trans ?_
  cases Literal.read? p.current.lexeme <;> rfl

/-- A number token is read as an integer, as a number of double precision, or not at all,
as its text says, whatever the text is. In each case the parse is left as it was. -/
theorem number_exact (p : Parser) :
    (∀ n q, number p = .ok (.number p.current (.integer n)) q ↔
      q = p ∧ IsWhole p.current.lexeme.toList ∧
        n = placeValue p.current.lexeme.toList ∧ n < 2 ^ 128) ∧
    (∀ q, (∃ x, number p = .ok (.number p.current (.float x)) q) ↔
      q = p ∧ IsFraction p.current.lexeme.toList) ∧
    ∀ f q, number p = .error f q ↔
      q = p ∧ f = .rejected ⟨.malformedNumber p.current.lexeme, p.current.span.start⟩ ∧
        ¬ (IsWhole p.current.lexeme.toList ∧ placeValue p.current.lexeme.toList < 2 ^ 128) ∧
        ¬ IsFraction p.current.lexeme.toList := by
  rw [number_eq, ← Literal.read?_eq_none_iff, ← Literal.exists_read?_eq_float_iff]
  simp only [← Literal.read?_eq_integer_iff]
  cases Literal.read? p.current.lexeme with
  | none => simp [eq_comm, and_comm]
  | some value => cases value <;> simp [eq_comm, and_comm]

/-- The largest integer, and the number behind it. -/
example : Literal.read? "0340282366920938463463374607431768211455" = some (.integer (2 ^ 128 - 1)) ∧
    Literal.read? "340282366920938463463374607431768211456" = none := by
  decide +kernel

end Parser

end Frontend
