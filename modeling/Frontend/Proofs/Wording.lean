import Frontend.Diagnostic.Basic
import Frontend.Proofs.Essence
import Mathlib.Tactic.SplitIfs

/-!
# Wordings take one line

What is said about a source is put on one line, whatever the source is. Names are fixed
texts without a line feed, and a quotation escapes those of the text it quotes. Two
causes repeat a text as it stands, the lexeme of a number and the expression that is no
place to store a value in; they take one line if that text does (`Cause.oneLine_wording`).
-/

namespace Frontend

/-- The text has no line feed in it. -/
def OneLine (text : String) : Prop := '\n' ∉ text.toList

instance (text : String) : Decidable (OneLine text) :=
  inferInstanceAs (Decidable ('\n' ∉ text.toList))

@[simp]
theorem oneLine_append {s t : String} : OneLine (s ++ t) ↔ OneLine s ∧ OneLine t := by
  simp only [OneLine, String.toList_append, List.mem_append, not_or]

@[simp]
theorem oneLine_ofList {cs : List Char} : OneLine (String.ofList cs) ↔ '\n' ∉ cs := by
  rw [OneLine, String.toList_ofList]

theorem OneLine.intercalate {separator : String} (h : OneLine separator) {texts : List String}
    (htexts : ∀ text ∈ texts, OneLine text) : OneLine (separator.intercalate texts) := by
  induction texts with
  | nil =>
      rw [String.intercalate_nil]
      decide
  | cons text texts ih =>
      obtain ⟨htext, hrest⟩ := List.forall_mem_cons.mp htexts
      cases texts with
      | nil => rwa [String.intercalate_singleton]
      | cons next texts =>
          rw [String.intercalate_cons_cons, oneLine_append, oneLine_append]
          exact ⟨⟨htext, h⟩, ih hrest⟩

/-! ## Names and quotations -/

theorem Kind.oneLine_name (kind : Kind) : OneLine kind.name := by
  cases kind with
  | type type => cases type <;> decide
  | symbol symbol => cases symbol <;> decide
  | keyword keyword => cases keyword <;> decide
  | _ => decide

namespace Text

theorem digitChar_ne_newline (n : Nat) : Nat.digitChar n ≠ '\n' := by
  have hlarge : ∀ m, Nat.digitChar (m + 16) = '*' := fun _ => rfl
  match n with
  | 0 | 1 | 2 | 3 | 4 | 5 | 6 | 7 | 8 | 9 | 10 | 11 | 12 | 13 | 14 | 15 => decide
  | m + 16 =>
      rw [hlarge]
      decide

theorem newline_notMem_toDigits (base n : Nat) : '\n' ∉ Nat.toDigits base n := by
  have hcore : ∀ (fuel n : Nat) (digits : List Char), '\n' ∉ digits →
      '\n' ∉ Nat.toDigitsCore base fuel n digits := by
    intro fuel
    induction fuel with
    | zero => exact fun _ _ h => h
    | succ fuel ih =>
        intro n digits h
        have hcons : '\n' ∉ Nat.digitChar (n % base) :: digits := by
          rw [List.mem_cons, not_or]
          exact ⟨(digitChar_ne_newline _).symm, h⟩
        rw [Nat.toDigitsCore]
        split
        · exact hcons
        · exact ih _ _ hcons
  exact hcore _ n [] (by simp)

theorem oneLine_repr (n : Nat) : OneLine (Nat.repr n) :=
  oneLine_ofList.mpr (newline_notMem_toDigits 10 n)

/-- No character has a line feed in its escaped form, not even the line feed. -/
theorem newline_notMem_escape (c : Char) : '\n' ∉ escape c := by
  unfold escape
  split_ifs with _ _ _ hnewline
  · decide
  · decide
  · decide
  · decide
  · decide
  · decide
  · simp [newline_notMem_toDigits]
  · exact fun h => hnewline (List.mem_singleton.mp h).symm

theorem oneLine_quote (text : String) : OneLine (quote text) := by
  rw [quote, oneLine_ofList, List.cons_append, List.mem_cons, List.mem_append, List.mem_flatMap]
  rintro (h | ⟨c, -, hc⟩ | h)
  · exact absurd h (by decide)
  · exact newline_notMem_escape c hc
  · exact absurd h (by decide)

end Text

/-! ## Causes -/

namespace Cause

/-- The text of the source that the cause repeats as it stands. -/
def verbatim? : Cause → Option String
  | malformedNumber text => some text
  | invalidTarget target => some target
  | _ => none

theorem verbatim?_of_isLexical {cause : Cause} (h : cause.isLexical) : cause.verbatim? = none := by
  cases cause <;> first | rfl | cases h

/-- What a report says about the cause takes one line. -/
theorem oneLine_wording {cause : Cause} (h : ∀ text ∈ cause.verbatim?, OneLine text) :
    OneLine cause.name ∧ OneLine (cause.tip?.getD cause.message) := by
  have hname : OneLine cause.name := by cases cause <;> simp +decide [name]
  refine ⟨hname, ?_⟩
  cases cause with
  | unrecognisedToken text => exact oneLine_append.mpr ⟨by decide, Text.oneLine_quote text⟩
  | unterminatedComment => decide
  | unexpectedToken expected received => simp +decide [tip?, Kind.oneLine_name]
  | expectedPrimitiveType received => simp +decide [tip?, Kind.oneLine_name]
  | noPrefixRule kind => simp +decide [tip?, Kind.oneLine_name]
  | malformedNumber text => simp +decide [tip?, h text rfl]
  | invalidTarget target => simp +decide [tip?, h target rfl]

end Cause

/-! ## Expressions -/

namespace Expr

variable {token operator name : Token} {e left right : Expr} {es : List Expr} {value : Literal}
  {span : Span}

@[simp]
theorem oneLine_boolean : OneLine (boolean token).render := by
  rw [render]
  split <;> decide

@[simp]
theorem oneLine_prefixed :
    OneLine (prefixed operator e span).render ↔ OneLine operator.lexeme ∧ OneLine e.render := by
  simp +decide [render]

@[simp]
theorem oneLine_postfixed :
    OneLine (postfixed e operator span).render ↔ OneLine e.render ∧ OneLine operator.lexeme := by
  simp +decide [render]

@[simp]
theorem oneLine_binary :
    OneLine (binary left operator right span).render ↔
      (OneLine left.render ∧ OneLine operator.lexeme) ∧ OneLine right.render := by
  simp +decide [render]

@[simp]
theorem oneLine_assignment :
    OneLine (assignment left operator right span).render ↔
      (OneLine left.render ∧ OneLine operator.lexeme) ∧ OneLine right.render := by
  simp +decide [render]

@[simp]
theorem oneLine_index :
    OneLine (index token left right span).render ↔ OneLine left.render ∧ OneLine right.render := by
  simp +decide [render]

@[simp]
theorem oneLine_member :
    OneLine (member token e name span).render ↔ OneLine e.render ∧ OneLine name.lexeme := by
  simp +decide [render]

theorem oneLine_call (he : OneLine e.render) (hes : ∀ a ∈ es, OneLine a.render) :
    OneLine (call token e es span).render := by
  have hall : ∀ text ∈ renderAll es, OneLine text := by
    rw [renderAll_eq_map]
    exact List.forall_mem_map.mpr hes
  have hcomma : OneLine ", " := by decide
  have harguments := hcomma.intercalate hall
  simp +decide [render, he, harguments]

end Expr

end Frontend
