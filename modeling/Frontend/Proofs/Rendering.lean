import Frontend.Proofs.Printing
import Frontend.Proofs.Regrouping

/-!
# Printed programs are scanned as intended

The text of a tree consists of the tokens of the regrouped tree, `Expr.prints`
and `Stmt.prints`. For an expression this depends on what is printed behind it,
and on one thing about it: a number takes in a dot, so no member is selected
from one. A statement ends with a semicolon or a brace, which nothing can run
into.
-/

namespace Frontend

open Text

namespace Symbol

theorem stands_space (s : Symbol) (rest : List Char) : s.Stands (' ' :: rest) := by
  refine .inr ?_
  rintro c ⟨rfl⟩
  decide

/-- Nothing that an expression starts with makes a symbol longer. -/
theorem stands_cons (s : Symbol) {c : Char} (hc : c = '(' ∨ isWordPart c) (rest : List Char) :
    s.Stands (c :: rest) := by
  have hextenders : extenders.all fun d => d ≠ '(' && !isWordPart d := by decide
  refine .inr ?_
  rintro c ⟨rfl⟩ hmem
  have hno := List.all_eq_true.mp hextenders c hmem
  rcases hc with rfl | hc
  · cases hno
  · rw [hc, Bool.not_true, Bool.and_false] at hno
    cases hno

end Symbol

namespace Expr

/-- The text can stand behind that of the expression. -/
def Ends (e : Expr) (rest : List Char) : Prop :=
  ∀ c ∈ rest.head?, isWordPart c = false ∧ (e.isNumeral → c ≠ '.')

theorem ends_cons {e : Expr} {c : Char} {rest : List Char} (hc : isWordPart c = false)
    (hdot : c ≠ '.') : e.Ends (c :: rest) := by
  rintro c ⟨rfl⟩
  exact ⟨hc, fun _ => hdot⟩

theorem Ends.number {t : Token} {value : Literal} {rest : List Char}
    (h : (Expr.number t value).Ends rest) : ∀ c ∈ rest.head?, isNumberPart c = false := by
  intro c hc
  obtain ⟨hpart, hdot⟩ := h c hc
  rw [isWordPart, Bool.or_eq_false_iff] at hpart
  simp [isNumberPart, hpart.2, hdot rfl]

/-- The text of an expression starts with a parenthesis, a letter or a digit. -/
theorem render_head {e : Expr} (he : e.WellFormed) (hs : ∀ slot ∈ e.flatten, slot.Sound) :
    ∃ c cs, e.render.toList = c :: cs ∧ (c = '(' ∨ isWordPart c) := by
  induction e using Expr.induct with
  | identifier t =>
      have ht : t.Sound := hs _ (List.mem_singleton_self _)
      obtain ⟨-, c, cs, htext, hc, -⟩ := ht.exists_word (by rw [show t.kind = _ from he]; rfl)
      exact ⟨c, cs, htext, .inr (by simp [isWordPart, hc])⟩
  | number t value =>
      have ht : t.Sound := hs _ (List.mem_singleton_self _)
      obtain ⟨c, cs, htext, hc, -⟩ := ht.exists_number he.1
      exact ⟨c, cs, htext, .inr (by simp [isWordPart, hc])⟩
  | boolean t =>
      rw [render]
      split
      · exact ⟨'t', _, rfl, .inr (by decide)⟩
      · exact ⟨'f', _, rfl, .inr (by decide)⟩
  | grouping t inner span ih =>
      rw [flatten, List.forall_mem_cons, List.forall_mem_append] at hs
      exact ih he.2.2 hs.2.1
  | call t callee arguments span ih iha =>
      rw [flatten, List.forall_mem_append] at hs
      obtain ⟨c, cs, htext, hc⟩ := ih he.2.1.2 hs.1
      exact ⟨c, _, by simp only [render, String.toList_append, htext]; rfl, hc⟩
  | _ => exact ⟨'(', _, by simp only [render, String.toList_append]; rfl, .inl rfl⟩

end Expr

theorem Kind.symbol_of_infixRule? {kind : Kind} {rule : Power × InfixRule}
    (h : kind.infixRule? = some rule) : ∃ s, kind = .symbol s := by
  cases kind with
  | symbol s => exact ⟨s, rfl⟩
  | _ => cases h

theorem Kind.symbol_of_operator {kind : Kind} (h : kind.prefixRule? = some .operator) :
    ∃ s, kind = .symbol s := by
  unfold prefixRule? at h
  split at h <;> first | exact ⟨_, rfl⟩ | cases h

/-- An operator behind its operand is never part of a longer token. -/
theorem Kind.symbol_of_postfixed {kind : Kind} {power : Power}
    (h : kind.infixRule? = some (power, .postfixed)) :
    kind = .symbol .plusPlus ∨ kind = .symbol .minusMinus := by
  cases kind with
  | symbol s => cases s <;> simp_all [infixRule?, Symbol.infixRule?]
  | _ => cases h

/-! ## Expressions -/

theorem Prints.operator {t : Token} {s : Symbol} (hk : t.kind = .symbol s) (ht : t.Sound)
    {rest : List Char} {slots : List Slot} (hs : s.Stands rest) (h : Prints rest slots) :
    Prints (t.lexeme.toList ++ rest) (.kept t :: slots) := by
  rw [ht.toList_of_symbol hk]
  exact .symbol hk ht hs h

theorem Prints.spaced {t : Token} {s : Symbol} (hk : t.kind = .symbol s) (ht : t.Sound)
    {rest : List Char} {slots : List Slot} (h : Prints rest slots) :
    Prints (' ' :: (t.lexeme.toList ++ ' ' :: rest)) (.kept t :: slots) :=
  .blank rfl (.operator hk ht (s.stands_space _) (.blank rfl h))

/-- The text of a delimiter that the tree keeps. -/
theorem Prints.delimiter {t : Token} {s : Symbol} (hk : t.kind = .symbol s) (hs : s.isSolitary)
    (ht : t.Sound) {rest : List Char} {slots : List Slot} (h : Prints rest slots) :
    Prints (s.spelling ++ rest) (.kept t :: slots) :=
  .symbol hk ht (.inl hs) h

/-- The text of a parenthesis that printing adds. -/
theorem Prints.opening {rest : List Char} {slots : List Slot} (h : Prints rest slots) :
    Prints ('(' :: rest) (.kept .openParen :: slots) :=
  .delimiter (s := .openParen) rfl rfl (fun _ _ => ⟨[], .symbol .openParen []⟩) h

theorem Prints.closing {rest : List Char} {slots : List Slot} (h : Prints rest slots) :
    Prints (')' :: rest) (.fixed (.symbol .closeParen) :: slots) :=
  .solitary (s := .closeParen) rfl h

namespace Expr

theorem prints_arguments {es : List Expr}
    (ih : ∀ e ∈ es, e.WellFormed → e.isReprintable → (∀ slot ∈ e.flatten, slot.Sound) →
      ∀ {rest : List Char} {slots : List Slot}, e.Ends rest → Prints rest slots →
        Prints (e.render.toList ++ rest) (e.regroup.flatten ++ slots))
    (hes : AllFit es) (hr : areReprintable es) (hs : ∀ slot ∈ flattenArguments es, slot.Sound)
    {rest : List Char} {slots : List Slot} (h : Prints rest slots) :
    Prints ((", ".intercalate (renderAll es)).toList ++ ')' :: rest)
      (flattenArguments (regroupAll es) ++ .fixed (.symbol .closeParen) :: slots) := by
  induction es with
  | nil => exact .closing h
  | cons e es ihes =>
      rw [List.forall_mem_cons] at ih
      rw [areReprintable, Bool.and_eq_true] at hr
      rw [flattenArguments, List.forall_mem_append] at hs
      have hfirst := @ih.1 hes.1.2 hr.1 hs.1
      cases es with
      | nil =>
          simp only [renderAll, String.intercalate_singleton, regroupAll, flattenArguments,
            flattenMore, List.append_nil]
          exact hfirst (ends_cons (by decide) (by decide)) (.closing h)
      | cons e' es =>
          rw [flattenMore, List.forall_mem_cons] at hs
          have hmore := ihes ih.2 hes.2 hr.2 hs.2.2
          simp only [renderAll, String.intercalate_cons_cons, String.toList_append,
            String.reduceToList, List.append_assoc, List.cons_append, List.nil_append, regroupAll,
            flattenArguments, flattenMore] at hmore ⊢
          exact hfirst (ends_cons (by decide) (by decide))
            (.solitary (s := .comma) rfl (hmore.blank rfl))

theorem prints {e : Expr} (he : e.WellFormed) (hr : e.isReprintable)
    (hs : ∀ slot ∈ e.flatten, slot.Sound) {rest : List Char} {slots : List Slot}
    (hrest : e.Ends rest) (h : Prints rest slots) :
    Prints (e.render.toList ++ rest) (e.regroup.flatten ++ slots) := by
  induction e using Expr.induct generalizing rest slots with
  | identifier t =>
      exact .word (by rw [show t.kind = _ from he]; rfl) (hs _ (List.mem_singleton_self _))
        (fun c hc => (hrest c hc).1) h
  | number t value => exact .number he.1 (hs _ (List.mem_singleton_self _)) hrest.number h
  | boolean t =>
      have ht : t.Sound := hs _ (List.mem_singleton_self _)
      have hrest : ∀ c ∈ rest.head?, isWordPart c = false := fun c hc => (hrest c hc).1
      rcases he with he | he
      · have htruth : t.truth := decide_eq_true he
        rw [render, if_pos htruth]
        exact .keyword he rfl ht hrest h
      · have htruth : t.truth = false := by simp [Token.truth, he]
        rw [render, htruth]
        exact .keyword he rfl ht hrest h
  | prefixed operator operand span ih =>
      rw [isReprintable, Bool.and_eq_true] at hr
      rw [flatten, List.forall_mem_cons] at hs
      simp only [render, String.toList_append, String.reduceToList, List.cons_append,
        List.nil_append, List.append_assoc, regroup, enclosed, flatten]
      obtain ⟨s, hk⟩ := Kind.symbol_of_operator he.1
      obtain ⟨c, cs, htext, hc⟩ := render_head he.2.1.2 hs.2
      refine .opening (.operator hk hs.1 ?_ (ih he.2.1.2 hr.2 hs.2 ?_ (.closing h)))
      · rw [htext]
        exact s.stands_cons hc _
      · exact ends_cons (by decide) (by decide)
  | postfixed operand operator span ih =>
      rw [isReprintable, Bool.and_eq_true] at hr
      rw [flatten, List.forall_mem_append, List.forall_mem_singleton] at hs
      simp only [render, String.toList_append, String.reduceToList, List.cons_append,
        List.nil_append, List.append_assoc, regroup, enclosed, flatten]
      rcases Kind.symbol_of_postfixed he.1 with hk | hk
      all_goals
        rw [hs.2.toList_of_symbol hk]
        exact .opening (ih he.2.1.2 hr.2 hs.1 (ends_cons (by decide) (by decide))
          (.delimiter hk rfl hs.2 (.closing h)))
  | binary left operator right span ihl ihr =>
      rw [isReprintable, Bool.and_eq_true] at hr
      rw [flatten, List.forall_mem_append, List.forall_mem_cons] at hs
      simp only [render, String.toList_append, String.reduceToList, List.cons_append,
        List.nil_append, List.append_assoc, regroup, enclosed, flatten]
      obtain ⟨s, hk⟩ := Kind.symbol_of_infixRule? he.1
      have hright := ihr he.2.2.2 hr.2 hs.2.2 (ends_cons (by decide) (by decide)) (.closing h)
      exact .opening (ihl he.2.1.2 hr.1 hs.1 (ends_cons (by decide) (by decide))
        (.spaced hk hs.2.1 hright))
  | assignment target operator value span iht ihv =>
      rw [isReprintable, Bool.and_eq_true, Bool.and_eq_true] at hr
      rw [flatten, List.forall_mem_append, List.forall_mem_cons] at hs
      simp only [render, String.toList_append, String.reduceToList, List.cons_append,
        List.nil_append, List.append_assoc, regroup, enclosed, flatten]
      obtain ⟨s, hk⟩ := Kind.symbol_of_infixRule? he.1
      have hvalue := ihv he.2.2.2 hr.2 hs.2.2 (ends_cons (by decide) (by decide)) (.closing h)
      exact .opening (iht he.2.1.2 hr.1.2 hs.1 (ends_cons (by decide) (by decide))
        (.spaced hk hs.2.1 hvalue))
  | grouping t inner span ih =>
      rw [flatten, List.forall_mem_cons, List.forall_mem_append] at hs
      exact ih he.2.2 hr hs.2.1 hrest h
  | call t callee arguments span ihc iha =>
      rw [isReprintable, Bool.and_eq_true] at hr
      simp only [flatten, List.forall_mem_append, List.forall_mem_cons] at hs
      simp only [render, String.toList_append, String.reduceToList, List.cons_append,
        List.nil_append, List.append_assoc, regroup, flatten]
      have harguments := prints_arguments iha he.2.2 hr.2 hs.2.2.1 h
      exact ihc he.2.1.2 hr.1 hs.1 (ends_cons (by decide) (by decide))
        (.delimiter he.1 rfl hs.2.1 harguments)
  | index t target place span iht ihp =>
      rw [isReprintable, Bool.and_eq_true] at hr
      simp only [flatten, List.forall_mem_append, List.forall_mem_cons] at hs
      simp only [render, String.toList_append, String.reduceToList, List.cons_append,
        List.nil_append, List.append_assoc, regroup, enclosed, flatten]
      have hclose := Prints.solitary (s := .closeBracket) rfl (Prints.closing h)
      have hplace := ihp he.2.2.2 hr.2 hs.2.2.1 (ends_cons (by decide) (by decide)) hclose
      have hopen := Prints.delimiter he.1 rfl hs.2.1 hplace
      exact .opening (iht he.2.1.2 hr.1 hs.1 (ends_cons (by decide) (by decide)) hopen)
  | member t target name span ih =>
      rw [isReprintable, Bool.and_eq_true, Bool.not_eq_true'] at hr
      simp only [flatten, List.forall_mem_append, List.forall_mem_cons] at hs
      simp only [render, String.toList_append, String.reduceToList, List.cons_append,
        List.nil_append, List.append_assoc, regroup, enclosed, flatten]
      have hclose : ∀ c ∈ (')' :: rest).head?, isWordPart c = false := by
        rintro c ⟨rfl⟩
        decide
      have hname := Prints.word (by rw [he.2.2]; rfl) hs.2.2.1 hclose (.closing h)
      refine .opening (ih he.2.1.2 hr.2 hs.1 ?_ (.delimiter he.1 rfl hs.2.1 hname))
      rintro c ⟨rfl⟩
      exact ⟨by decide, fun hnumeral => absurd hnumeral (by simp [hr.1])⟩

end Expr

/-! ## Statements -/

theorem Prints.typed (type : PrimitiveType) {rest : List Char} {slots : List Slot}
    (hrest : ∀ c ∈ rest.head?, isWordPart c = false) (h : Prints rest slots) :
    Prints (':' :: ' ' :: (type.spelling.toList ++ rest))
      (.fixed (.symbol .colon) :: .fixed (.type type) :: slots) := by
  have hmem : (type.spelling, Kind.type type) ∈ reservedWords := by cases type <;> decide
  exact .solitary (s := .colon) rfl (.blank rfl (.reserved hmem hrest h))

theorem not_isWordPart_head {c : Char} (hc : isWordPart c = false) (rest : List Char) :
    ∀ d ∈ (c :: rest).head?, isWordPart d = false := by
  rintro d ⟨rfl⟩
  exact hc

namespace Parameter

theorem prints {parameter : Parameter} (hk : parameter.name.kind = .identifier)
    (hs : parameter.name.Sound) {rest : List Char} {slots : List Slot}
    (hrest : ∀ c ∈ rest.head?, isWordPart c = false) (h : Prints rest slots) :
    Prints (parameter.render.toList ++ rest) (parameter.flatten ++ slots) := by
  simp only [render, String.toList_append, String.reduceToList, List.append_assoc,
    List.cons_append, List.nil_append, flatten]
  exact .word (by rw [hk]; rfl) hs (not_isWordPart_head (by decide) _) (.typed _ hrest h)

theorem prints_all {parameters : List Parameter}
    (hk : ∀ parameter ∈ parameters, parameter.name.kind = .identifier)
    (hs : ∀ slot ∈ flattenAll parameters, slot.Sound) {rest : List Char} {slots : List Slot}
    (h : Prints rest slots) :
    Prints ((", ".intercalate (parameters.map render)).toList ++ ')' :: rest)
      (flattenAll parameters ++ .fixed (.symbol .closeParen) :: slots) := by
  fun_induction flattenAll parameters with
  | case1 => exact .closing h
  | case2 parameter =>
      rw [List.forall_mem_singleton] at hk
      rw [List.map_singleton, String.intercalate_singleton]
      exact prints hk (hs _ (List.mem_cons_self ..)) (not_isWordPart_head (by decide) _)
        (.closing h)
  | case3 parameter next more ih =>
      rw [List.forall_mem_cons] at hk
      rw [List.forall_mem_append, List.forall_mem_cons] at hs
      have hmore := ih hk.2 hs.2.2
      simp only [List.map_cons, String.intercalate_cons_cons, String.toList_append,
        String.reduceToList, List.append_assoc, List.cons_append, List.nil_append] at hmore ⊢
      exact prints hk.1 (hs.1 _ (List.mem_cons_self ..)) (not_isWordPart_head (by decide) _)
        (.solitary (s := .comma) rfl (hmore.blank rfl))

end Parameter

theorem Kind.isWord_of_declaration {kind : Kind} (h : kind.stmtRule? = some .declaration) :
    kind.isWord := by
  unfold stmtRule? at h
  split at h <;> first | rfl | cases h

namespace Prints

variable {rest : List Char} {slots : List Slot}

theorem semicolon (h : Prints rest slots) :
    Prints (';' :: rest) (.fixed (.symbol .semicolon) :: slots) :=
  .solitary (s := .semicolon) rfl h

theorem word_space {t : Token} (hk : t.kind.isWord) (ht : t.Sound) (h : Prints rest slots) :
    Prints (t.lexeme.toList ++ ' ' :: rest) (.kept t :: slots) :=
  .word hk ht (not_isWordPart_head (by decide) _) (.blank rfl h)

theorem keyword_space {t : Token} {k : Keyword} (hk : t.kind = .keyword k) {spelling : String}
    (hspelling : k.spellings = [spelling]) (ht : t.Sound) (h : Prints rest slots) :
    Prints (spelling.toList ++ ' ' :: rest) (.kept t :: slots) :=
  .keyword hk hspelling ht (not_isWordPart_head (by decide) _) (.blank rfl h)

end Prints

section Statements

variable {rest : List Char} {slots : List Slot}

theorem Stmt.prints_declaration {token name : Token} {type : PrimitiveType} {value : Expr}
    {span : Span} (hw : (Stmt.declaration token name type value span).WellFormed)
    (hr : value.isReprintable)
    (hs : ∀ slot ∈ (Stmt.declaration token name type value span).flatten .always, slot.Sound)
    (h : Prints rest slots) :
    Prints ((Stmt.declaration token name type value span).render.toList ++ rest)
      ((Stmt.declaration token name type value span).regroup.flatten .always ++ slots) := by
  obtain ⟨hrule, hname, hvalue⟩ := hw
  simp only [Stmt.flatten, Stmt.binding, List.forall_mem_append, List.forall_mem_cons] at hs
  simp only [Stmt.render, String.toList_append, String.reduceToList, List.append_assoc,
    List.cons_append, List.nil_append, Stmt.regroup, Stmt.flatten, Stmt.binding]
  have hprints := Expr.prints hvalue.2 hr hs.2.1 (Expr.ends_cons (by decide) (by decide))
    h.semicolon
  have hslot : (Slot.fixed (.symbol .assignment)).Sound := trivial
  have hequals := Prints.symbol rfl hslot (Symbol.stands_space .assignment _)
    (.blank rfl hprints)
  have htype := Prints.typed type (not_isWordPart_head (c := ' ') (by decide) _)
    (.blank rfl hequals)
  refine .word_space (Kind.isWord_of_declaration hrule) hs.1.1 ?_
  exact .word (by rw [hname]; rfl) hs.1.2.1 (not_isWordPart_head (by decide) _) htype

theorem Stmt.prints_heading {token name : Token} {parameters : List Parameter}
    (hk : token.kind = .keyword .fn) (hn : name.kind = .identifier)
    (hp : ∀ parameter ∈ parameters, parameter.name.kind = .identifier) (ht : token.Sound)
    (hname : name.Sound) (hs : ∀ slot ∈ Parameter.flattenAll parameters, slot.Sound)
    (h : Prints rest slots) :
    Prints
      ('f' :: 'n' :: ' ' :: (name.lexeme.toList ++ '(' ::
        ((", ".intercalate (parameters.map Parameter.render)).toList ++ ')' :: rest)))
      (.kept token :: .kept name :: .fixed (.symbol .openParen) ::
        (Parameter.flattenAll parameters ++ .fixed (.symbol .closeParen) :: slots)) := by
  have hopen := Prints.solitary (s := .openParen) rfl (Parameter.prints_all hp hs h)
  refine .keyword_space hk rfl ht ?_
  exact .word (by rw [hn]; rfl) hname (not_isWordPart_head (by decide) _) hopen

theorem Stmt.prints_function {token name : Token} {parameters : List Parameter}
    {result? : Option PrimitiveType} {body : Block} {span : Span}
    (hw : (Stmt.function token name parameters result? body span).WellFormed)
    (hs : ∀ slot ∈ Stmt.signature token name parameters result?, slot.Sound)
    (h : Prints (body.render.toList ++ rest) slots) :
    Prints ((Stmt.function token name parameters result? body span).render.toList ++ rest)
      (Stmt.signature token name parameters result? ++ slots) := by
  simp only [Stmt.signature, List.forall_mem_append, List.forall_mem_cons] at hs
  cases result? with
  | none =>
      simp only [Stmt.render, String.toList_append, String.reduceToList, List.append_assoc,
        List.cons_append, List.nil_append, Stmt.signature, Option.map_none, Option.toList_none]
      exact Stmt.prints_heading hw.1 hw.2.1 hw.2.2.1 hs.1 hs.2.1 hs.2.2.2.1 (.blank rfl h)
  | some type =>
      have hmem : (type.spelling, Kind.type type) ∈ reservedWords := by cases type <;> decide
      have htype := Prints.reserved hmem (not_isWordPart_head (c := ' ') (by decide) _)
        (.blank rfl h)
      simp only [Stmt.render, String.toList_append, String.reduceToList, List.append_assoc,
        List.cons_append, List.nil_append, Stmt.signature, Option.map_some, Option.toList_some]
      exact Stmt.prints_heading hw.1 hw.2.1 hw.2.2.1 hs.1 hs.2.1 hs.2.2.2.1 (htype.blank rfl)

end Statements

mutual

theorem Stmt.prints {s : Stmt} (hw : s.WellFormed) (hr : s.isReprintable)
    (hs : ∀ slot ∈ s.flatten .always, slot.Sound) {rest : List Char} {slots : List Slot}
    (h : Prints rest slots) :
    Prints (s.render.toList ++ rest) (s.regroup.flatten .always ++ slots) := by
  match s with
  | .expression token value span =>
      simp only [Stmt.flatten, Closing.always, if_true, List.forall_mem_append] at hs
      simp only [Stmt.render, String.toList_append, String.reduceToList, List.append_assoc,
        List.cons_append, List.nil_append, Stmt.regroup, Stmt.flatten, Closing.always, if_true]
      exact Expr.prints hw.1.2 hr hs.1 (Expr.ends_cons (by decide) (by decide)) h.semicolon
  | .block block => exact Block.prints hw hr hs h
  | .declaration token name type value span => exact Stmt.prints_declaration hw hr hs h
  | .return_ token none span =>
      simp only [Stmt.flatten, List.forall_mem_cons] at hs
      simp only [Stmt.render, String.reduceToList, List.cons_append, List.nil_append,
        Stmt.regroup, Option.map_none, Stmt.flatten]
      exact .keyword hw rfl hs.1 (not_isWordPart_head (c := ';') (by decide) _) h.semicolon
  | .return_ token (some value) span =>
      simp only [Stmt.flatten, List.forall_mem_append, List.forall_mem_cons] at hs
      simp only [Stmt.render, String.toList_append, String.reduceToList, List.append_assoc,
        List.cons_append, List.nil_append, Stmt.regroup, Option.map_some, Stmt.flatten]
      exact .keyword_space hw.1 rfl hs.1
        (Expr.prints hw.2.2 hr hs.2.1 (Expr.ends_cons (by decide) (by decide)) h.semicolon)
  | .function token name parameters result? body span =>
      rw [Stmt.flatten, List.forall_mem_append] at hs
      rw [Stmt.regroup, Stmt.flatten, List.append_assoc]
      exact Stmt.prints_function hw hs.1 (Block.prints hw.2.2.2 hr hs.2 h)
  | .conditional branch =>
      exact Conditional.prints (by rw [hw.1]; rfl) hw.2 hr hs h
  | .while_ token condition body span =>
      rw [Stmt.isReprintable, Bool.and_eq_true] at hr
      simp only [Stmt.flatten, List.forall_mem_append, List.forall_mem_cons] at hs
      simp only [Stmt.render, String.toList_append, String.reduceToList, List.append_assoc,
        List.cons_append, List.nil_append, Stmt.regroup, Stmt.flatten]
      have hbody := Block.prints hw.2.2 hr.2 hs.2.2 h
      exact .keyword_space hw.1 rfl hs.1 (Expr.prints hw.2.1.2 hr.1 hs.2.1
        (Expr.ends_cons (by decide) (by decide)) (hbody.blank rfl))
  | .loop token body span =>
      rw [Stmt.flatten, List.forall_mem_cons] at hs
      have hbody := Block.prints hw.2 hr hs.2 h
      rw [Stmt.render, String.toList_append, List.append_assoc, Stmt.regroup, Stmt.flatten]
      exact .keyword_space hw.1 rfl hs.1 hbody

theorem Block.prints {b : Block} (hw : b.WellFormed) (hr : b.isReprintable)
    (hs : ∀ slot ∈ b.flatten .always, slot.Sound) {rest : List Char} {slots : List Slot}
    (h : Prints rest slots) :
    Prints (b.render.toList ++ rest) (b.regroup.flatten .always ++ slots) := by
  match b with
  | .mk token body span =>
      simp only [Block.flatten, List.forall_mem_append, List.forall_mem_cons] at hs
      simp only [Block.render, String.toList_append, String.reduceToList, List.append_assoc,
        List.cons_append, List.nil_append, Block.regroup, Block.flatten]
      have hclose := Prints.solitary (s := .closeCurly) rfl h
      have hbody := Stmt.prints_all hw.2 hr hs.2.1 hclose
      exact .delimiter (s := .openCurly) hw.1 rfl hs.1 (hbody.blank rfl)

theorem Conditional.prints {branch : Conditional} (hk : branch.token.kind.isWord)
    (hw : branch.WellFormed) (hr : branch.isReprintable)
    (hs : ∀ slot ∈ branch.flatten .always, slot.Sound) {rest : List Char} {slots : List Slot}
    (h : Prints rest slots) :
    Prints (branch.render.toList ++ rest) (branch.regroup.flatten .always ++ slots) := by
  match branch with
  | .mk token condition body otherwise span =>
      rw [Conditional.isReprintable, Bool.and_eq_true, Bool.and_eq_true] at hr
      simp only [Conditional.flatten, List.forall_mem_append, List.forall_mem_cons] at hs
      simp only [Conditional.render, String.toList_append, String.reduceToList, List.append_assoc,
        List.cons_append, List.nil_append, Conditional.regroup, Conditional.flatten]
      have hotherwise := Otherwise.prints hw.2.2 hr.2 hs.2.2.2 h
      have hbody := Block.prints hw.2.1 hr.1.2 hs.2.2.1 hotherwise
      exact .word_space hk hs.1 (Expr.prints hw.1.2 hr.1.1 hs.2.1
        (Expr.ends_cons (by decide) (by decide)) (hbody.blank rfl))

theorem Otherwise.prints {otherwise : Otherwise} (hw : otherwise.WellFormed)
    (hr : otherwise.isReprintable) (hs : ∀ slot ∈ otherwise.flatten .always, slot.Sound)
    {rest : List Char} {slots : List Slot} (h : Prints rest slots) :
    Prints (otherwise.render.toList ++ rest) (otherwise.regroup.flatten .always ++ slots) := by
  match otherwise with
  | .nothing => exact h
  | .block block =>
      rw [Otherwise.flatten, List.forall_mem_cons] at hs
      simp only [Otherwise.render, String.toList_append, String.reduceToList, List.cons_append,
        List.nil_append, Otherwise.regroup, Otherwise.flatten]
      have hblock := Block.prints hw hr hs.2 h
      have hmem : ("else", Kind.keyword .else_) ∈ reservedWords := by decide
      exact .blank rfl
        (.reserved hmem (not_isWordPart_head (by decide) _) (hblock.blank rfl))
  | .elif branch =>
      have hbranch := Conditional.prints (by rw [hw.1]; rfl) hw.2 hr hs h
      rw [Otherwise.render, String.toList_append, List.append_assoc]
      exact hbranch.blank rfl

theorem Stmt.prints_all {ss : List Stmt} (hw : Stmt.AllWellFormed ss)
    (hr : Stmt.areReprintable ss) (hs : ∀ slot ∈ Stmt.flattenAll .always ss, slot.Sound)
    {rest : List Char} {slots : List Slot} (h : Prints rest slots) :
    Prints ((Stmt.renderAll ss).toList ++ rest)
      (Stmt.flattenAll .always (Stmt.regroupAll ss) ++ slots) := by
  match ss with
  | [] => exact h
  | s :: ss =>
      rw [Stmt.areReprintable, Bool.and_eq_true] at hr
      rw [Stmt.flattenAll, List.forall_mem_append] at hs
      simp only [Stmt.renderAll, String.toList_append, String.reduceToList, List.append_assoc,
        List.cons_append, List.nil_append, Stmt.regroupAll, Stmt.flattenAll]
      have hrest := Stmt.prints_all hw.2 hr.2 hs.2 h
      exact Stmt.prints hw.1 hr.1 hs.1 (hrest.blank rfl)

end

/-- The text of a program consists of the tokens of the regrouped program. -/
theorem Program.prints {program : Program} (hw : program.WellFormed)
    (hr : program.isReprintable) (hs : ∀ slot ∈ program.flatten .always, slot.Sound) :
    Prints program.render.toList (program.regroup.flatten .always) := by
  obtain ⟨ss⟩ := program
  simp only [Program.WellFormed, Program.isReprintable, Program.flatten, Program.render,
    Program.regroup] at hw hr hs ⊢
  induction ss with
  | nil => exact .nil (List.forall_mem_nil _)
  | cons s ss ih =>
      rw [Stmt.areReprintable, Bool.and_eq_true] at hr
      rw [Stmt.flattenAll, List.forall_mem_append] at hs
      have hmore := ih hw.2 hr.2 hs.2
      cases ss with
      | nil =>
          rw [List.map_singleton, String.intercalate_singleton, ← List.append_nil s.render.toList]
          exact Stmt.prints hw.1 hr.1 hs.1 hmore
      | cons s' ss =>
          simp only [List.map_cons, String.intercalate_cons_cons, String.toList_append,
            String.reduceToList, List.append_assoc, List.cons_append, List.nil_append,
            Stmt.regroupAll, Stmt.flattenAll] at hmore ⊢
          exact Stmt.prints hw.1 hr.1 hs.1 (hmore.blank rfl)

end Frontend
