import Frontend.Proofs.ExprExact
import Frontend.Proofs.StmtReading

/-!
# Every well-formed program is read back

`Program.WellFormed` says which programs can be written down: the tokens that the
tree keeps have the kinds that their places need, and the expressions respect
precedence. Written down with a semicolon behind every expression statement, such
a program is read back as it is, and nothing is recorded.

The optional parts of the grammar are what needs care: a production that could go
on has to stop where its tree ends, so each of them is looked at together with the
token behind it. A conditional could be taken further by `elif` and `else` only,
and no statement starts with these.
-/

namespace Frontend

/-! ## Well-formed programs -/

mutual

/-- The tokens have the kinds that their places need, and the expressions respect
precedence. -/
def Stmt.WellFormed : Stmt → Prop
  | .expression token value _ =>
      value.Fits .lowest ∧ value.flatten.head? = some (.kept token)
  | .block block => block.WellFormed
  | .declaration token name _ value _ =>
      token.kind.stmtRule? = some .declaration ∧ name.kind = .identifier ∧ value.Fits .lowest
  | .return_ token none _ => token.kind = .keyword .return_
  | .return_ token (some value) _ => token.kind = .keyword .return_ ∧ value.Fits .lowest
  | .function token name parameters _ body _ =>
      token.kind = .keyword .fn ∧ name.kind = .identifier ∧
        (∀ parameter ∈ parameters, parameter.name.kind = .identifier) ∧ body.WellFormed
  | .conditional branch => branch.token.kind = .keyword .if_ ∧ branch.WellFormed
  | .while_ token condition body _ =>
      token.kind = .keyword .while_ ∧ condition.Fits .lowest ∧ body.WellFormed
  | .loop token body _ => token.kind = .keyword .loop ∧ body.WellFormed

def Block.WellFormed : Block → Prop
  | .mk token body _ => token.kind = .symbol .openCurly ∧ Stmt.AllWellFormed body

def Conditional.WellFormed : Conditional → Prop
  | .mk _ condition body otherwise _ =>
      condition.Fits .lowest ∧ body.WellFormed ∧ otherwise.WellFormed

def Otherwise.WellFormed : Otherwise → Prop
  | .nothing => True
  | .block block => block.WellFormed
  | .elif branch => branch.token.kind = .keyword .elif ∧ branch.WellFormed

def Stmt.AllWellFormed : List Stmt → Prop
  | [] => True
  | s :: ss => s.WellFormed ∧ Stmt.AllWellFormed ss

end

def Program.WellFormed (program : Program) : Prop := Stmt.AllWellFormed program.statements

/-! ## The first token of a statement -/

/-- Whether a statement can start with a token of this kind. -/
def Kind.startsStmt (kind : Kind) : Bool := kind.prefixRule?.isSome || kind.stmtRule?.isSome

theorem Kind.stmtRule?_eq_none_of_prefixRule? {kind : Kind} {rule : PrefixRule}
    (h : kind.prefixRule? = some rule) : kind.stmtRule? = none := by
  unfold Kind.prefixRule? at h
  split at h <;> first | rfl | cases h

/-- Whether a token of this kind takes a statement further that could have ended
in front of it. -/
def Kind.continues (kind : Kind) : Bool := kind = .keyword .elif || kind = .keyword .else_

theorem Kind.not_continues_of_startsStmt {kind : Kind} (h : kind.startsStmt) :
    kind.continues = false := by
  simp only [Kind.continues, Bool.or_eq_false_iff, decide_eq_false_iff_not]
  constructor
  · rintro rfl
    cases h
  · rintro rfl
    cases h

/-- The rule that reads statements of this form, if it is not that of
expressions. -/
def Stmt.rule? : Stmt → Option StmtRule
  | .expression .. => none
  | .block _ => some .block
  | .declaration .. => some .declaration
  | .return_ .. => some .return_
  | .function .. => some .function
  | .conditional _ => some .conditional
  | .while_ .. => some .while_
  | .loop .. => some .loop

theorem Kind.startsStmt_of_stmtRule? {kind : Kind} {rule : StmtRule}
    (h : kind.stmtRule? = some rule) : kind.startsStmt := by
  rw [startsStmt, h, Bool.or_comm]
  rfl

/-- The first token of a statement is kept, and it tells the form of the
statement. -/
theorem Stmt.exists_head {s : Stmt} (hs : s.WellFormed) :
    ∃ t rest, s.flatten .always = .kept t :: rest ∧ t.kind.stmtRule? = s.rule? ∧
      t.kind.startsStmt := by
  have hof : ∀ {t : Token} {kind : Kind} {rule : StmtRule}, t.kind = kind →
      kind.stmtRule? = some rule → t.kind.stmtRule? = some rule ∧ t.kind.startsStmt := by
    rintro t _ rule rfl hrule
    exact ⟨hrule, Kind.startsStmt_of_stmtRule? hrule⟩
  cases s with
  | expression token value span =>
      obtain ⟨t, rest, rule, hflat, hrule⟩ := Expr.exists_head hs.1.2
      refine ⟨t, _, by rw [Stmt.flatten, hflat]; rfl,
        Kind.stmtRule?_eq_none_of_prefixRule? hrule, ?_⟩
      rw [Kind.startsStmt, hrule]
      rfl
  | block block =>
      obtain ⟨token, body, span⟩ := block
      exact ⟨token, _, rfl, hof hs.1 rfl⟩
  | declaration token name type value span => exact ⟨token, _, rfl, hof rfl hs.1⟩
  | return_ token value? span =>
      cases value? with
      | none => exact ⟨token, _, rfl, hof hs rfl⟩
      | some value => exact ⟨token, _, rfl, hof hs.1 rfl⟩
  | function token name parameters result? body span => exact ⟨token, _, rfl, hof hs.1 rfl⟩
  | conditional branch =>
      obtain ⟨token, condition, body, otherwise, span⟩ := branch
      exact ⟨token, _, rfl, hof hs.1 rfl⟩
  | while_ token condition body span => exact ⟨token, _, rfl, hof hs.1 rfl⟩
  | loop token body span => exact ⟨token, _, rfl, hof hs.1 rfl⟩

/-! ## Reading back -/

/-- A reading goes as it should: it can run out of fuel, but it is not rejected. -/
abbrev Finds {α : Type} (x : ParseM α) (p : Parser) (ok : α → Parser → Prop) : Prop :=
  Ensures x p ok fun f _ => f = .outOfFuel

/-- What is found does not depend on the notes in the trail. -/
theorem finds_of_during {α : Type} {production : Production} {x : ParseM α} {p : Parser}
    {P : α → Prop} {ts : List Token}
    (hx : ∀ p', p' = p.note production .entered p.mark →
      Finds x p' fun a q => P a ∧ Reads ts [] p' q) :
    Finds (Parser.during production x) p fun a q => P a ∧ Reads ts [] p q := by
  rw [Finds, Parser.ensures_during]
  refine (hx _ rfl).imp ?_ fun _ _ h => h
  intro a q hresult
  obtain ⟨ha, hreads⟩ := hresult
  exact ⟨ha, hreads.note⟩

/-- A way to read blocks reads back every well-formed one. -/
def FindsBlocks (block : ParseM Block) : Prop :=
  ∀ {b : Block} {ts : List Token} {rest : Stream' Token} {p : Parser}, p.Plain → b.WellFormed →
    List.Forall₂ Slot.Matches (b.flatten .always) ts → p.upcoming = ts ++ₛ rest →
    Finds block p fun b' q => b'.bare = b.bare ∧ Reads ts [] p q

namespace Parser

/-- The first slot is that of the current token. -/
theorem upcoming_slot {p : Parser} {slot : Slot} {slots : List Slot} {ts : List Token}
    {rest : Stream' Token} (hm : List.Forall₂ Slot.Matches (slot :: slots) ts)
    (hu : p.upcoming = ts ++ₛ rest) :
    ∃ us, ts = p.current :: us ∧ slot.Matches p.current ∧
      List.Forall₂ Slot.Matches slots us ∧ p.advance.upcoming = us ++ₛ rest := by
  obtain ⟨t, us, ht, hus, rfl⟩ := List.forall₂_cons_left_iff.mp hm
  obtain ⟨rfl, hu'⟩ := of_upcoming_eq_cons hu
  exact ⟨us, rfl, ht, hus, hu'⟩

/-- The same for the slots behind the current token. -/
theorem lookahead_slot {p : Parser} {slot : Slot} {slots : List Slot} {ts : List Token}
    {rest : Stream' Token} (hm : List.Forall₂ Slot.Matches (slot :: slots) ts)
    (hu : p.advance.upcoming = ts ++ₛ rest) :
    ∃ us, ts = p.lookahead :: us ∧ slot.Matches p.lookahead ∧
      List.Forall₂ Slot.Matches slots us ∧ p.advance.advance.upcoming = us ++ₛ rest :=
  upcoming_slot hm hu

/-- The tokens of the first slots are followed by those of the others. -/
theorem upcoming_slots {p : Parser} {a b : List Slot} {ts : List Token} {rest : Stream' Token}
    (hm : List.Forall₂ Slot.Matches (a ++ b) ts) (hu : p.upcoming = ts ++ₛ rest) :
    ∃ us vs, ts = us ++ vs ∧ List.Forall₂ Slot.Matches a us ∧ List.Forall₂ Slot.Matches b vs ∧
      p.upcoming = us ++ₛ (vs ++ₛ rest) := by
  obtain ⟨us, vs, rfl, hus, hvs⟩ := Slot.exists_of_matches_append hm
  rw [Stream'.append_append_stream] at hu
  exact ⟨us, vs, rfl, hus, hvs, hu⟩

/-- The kind of the token that comes first among those of some slots. -/
theorem head_kind_of_matches {slot : Slot} {slots : List Slot} {ts : List Token}
    (hm : List.Forall₂ Slot.Matches (slot :: slots) ts) (rest : Stream' Token) :
    (ts ++ₛ rest).head.kind = slot.kind := by
  obtain ⟨t, us, ht, -, rfl⟩ := List.forall₂_cons_left_iff.mp hm
  exact ht.kind_eq

/-- A token that is too loose for every operator. -/
theorem lowest_le_of_infixRule?_none {kind : Kind} (h : kind.infixRule? = none) :
    Rules.standard.power kind ≤ .lowest := by
  rw [Kind.power_of_infixRule?_none h]
  exact Nat.le_refl _

section Plain

variable {p : Parser} (hp : p.Plain) {rest : Stream' Token}

include hp

theorem expression_slots {e : Expr} (he : e.Fits .lowest) {ts : List Token}
    (hm : List.Forall₂ Slot.Matches e.flatten ts) (hu : p.upcoming = ts ++ₛ rest)
    (hrest : rest.head.kind.infixRule? = none) :
    Finds (expression .lowest) p fun e' q => e'.bare = e.bare ∧ Reads ts [] p q := by
  obtain ⟨e', hbare, hspells⟩ := Expr.exists_spells_of_matches e hm
  refine (expression_finds hp.rules (by decide) ((Expr.fits_congr hbare).mpr he) hspells hu
    (lowest_le_of_infixRule?_none hrest)).imp ?_ fun _ _ h => h.elim
  intro x' q hresult
  obtain ⟨rfl, hreads⟩ := hresult
  exact ⟨hbare, hreads⟩

theorem condition_slots {e : Expr} (he : e.Fits .lowest) {ts : List Token}
    (hm : List.Forall₂ Slot.Matches e.flatten ts) (hu : p.upcoming = p.current :: ts ++ₛ rest)
    (hrest : rest.head.kind.infixRule? = none) :
    Finds condition p fun e' q => e'.bare = e.bare ∧ Reads (p.current :: ts) [] p q := by
  rw [Finds, condition, ensures_bind, ensures_next]
  refine (expression_slots hp.advance he hm (of_upcoming_eq_cons hu).2 hrest).imp ?_
    fun _ _ h => h
  intro e' q hresult
  obtain ⟨hbare, hreads⟩ := hresult
  exact ⟨hbare, (Reads.refl p).trans hreads⟩

theorem declaration_finds {token name : Token} {type : PrimitiveType} {value : Expr} {span : Span}
    (hw : (Stmt.declaration token name type value span).WellFormed) {ts : List Token}
    (hm : List.Forall₂ Slot.Matches
      ((Stmt.declaration token name type value span).flatten .always) ts)
    (hu : p.upcoming = ts ++ₛ rest) :
    Finds declaration p fun s q =>
      s.bare = (Stmt.declaration token name type value span).bare ∧ Reads ts [] p q := by
  obtain ⟨-, hname, hvalue⟩ := hw
  simp only [Stmt.flatten, Stmt.binding, List.cons_append, List.nil_append] at hm
  obtain ⟨_, rfl, rfl, hm, hu⟩ := upcoming_slot hm hu
  obtain ⟨_, rfl, rfl, hm, hu⟩ := lookahead_slot hm hu
  obtain ⟨_, rfl, hcolon, hm, hu⟩ := lookahead_slot hm hu
  obtain ⟨_, rfl, htype, hm, hu⟩ := lookahead_slot hm hu
  obtain ⟨_, rfl, hequals, hm, hu⟩ := lookahead_slot hm hu
  obtain ⟨us, vs, rfl, hus, hvs, hu⟩ := upcoming_slots hm hu
  simp only [Finds, declaration, ensures_bind, ensures_currentToken, ensures_next,
    ensures_spanFrom, ensures_pure, ensures_expect_of_kind hname, ensures_expect_of_kind hcolon,
    ensures_primitiveType_of_kind htype, ensures_expect_of_kind hequals]
  have hbinding := (Reads.refl p).step.step.step.step
  have hp' := hp.advance.advance.advance.advance.advance
  refine (expression_slots hp' hvalue hus hu ?_).imp ?_ fun _ _ h => h
  · rw [head_kind_of_matches hvs]
    rfl
  · intro value' q hresult
    obtain ⟨hbare, hreads⟩ := hresult
    obtain ⟨closing, rfl, hclose⟩ := Slot.exists_of_matches_singleton hvs
    have hlook : q.lookahead = closing := hreads.lookahead_eq hu
    subst hlook
    rw [ensures_expect_of_kind hclose]
    have hreads := (hbinding.trans hreads).step
    rw [List.append_assoc] at hreads
    exact ⟨congrArg (Stmt.declaration _ _ type · (Relabelling.blank.span span)) hbare, hreads⟩

theorem returnStmt_finds {token : Token} {value? : Option Expr} {span : Span}
    (hw : (Stmt.return_ token value? span).WellFormed) {ts : List Token}
    (hm : List.Forall₂ Slot.Matches ((Stmt.return_ token value? span).flatten .always) ts)
    (hu : p.upcoming = ts ++ₛ rest) :
    Finds returnStmt p fun s q =>
      s.bare = (Stmt.return_ token value? span).bare ∧ Reads ts [] p q := by
  simp only [Finds, returnStmt, ensures_bind, ensures_currentToken, ensures_ahead, ensures_ite,
    ensures_next, ensures_spanFrom, ensures_pure, decide_eq_true_eq]
  cases value? with
  | none =>
      simp only [Stmt.flatten] at hm
      obtain ⟨_, rfl, rfl, hm, hu⟩ := upcoming_slot hm hu
      obtain ⟨_, rfl, hclose, hm, -⟩ := lookahead_slot hm hu
      cases hm
      rw [ensures_expect_of_kind hclose]
      exact ⟨fun _ => ⟨rfl, (Reads.refl p).step⟩, fun hne => absurd hclose hne⟩
  | some value =>
      simp only [Stmt.flatten] at hm
      obtain ⟨_, rfl, rfl, hm, hu⟩ := upcoming_slot hm hu
      obtain ⟨us, vs, rfl, hus, hvs, hu⟩ := upcoming_slots hm hu
      obtain ⟨t, _, rule, hflat, hrule⟩ := Expr.exists_head hw.2.2
      constructor
      · intro hclose
        rw [hflat] at hus
        obtain ⟨_, rfl, rfl, -⟩ := lookahead_slot hus hu
        rw [hclose] at hrule
        cases hrule
      · intro _
        refine (expression_slots hp.advance hw.2 hus hu ?_).imp ?_ fun _ _ h => h
        · rw [head_kind_of_matches hvs]
          rfl
        · intro value' q hresult
          obtain ⟨hbare, hreads⟩ := hresult
          obtain ⟨closing, rfl, hclose⟩ := Slot.exists_of_matches_singleton hvs
          have hlook : q.lookahead = closing := hreads.lookahead_eq hu
          subst hlook
          rw [ensures_expect_of_kind hclose]
          refine ⟨?_, ((Reads.refl p).trans hreads).step⟩
          exact congrArg
            (fun e => Stmt.return_ p.current (some e) (Relabelling.blank.span span)) hbare

theorem expressionStmt_finds {token : Token} {value : Expr} {span : Span}
    (hw : (Stmt.expression token value span).WellFormed) {ts : List Token}
    (hm : List.Forall₂ Slot.Matches ((Stmt.expression token value span).flatten .always) ts)
    (hu : p.upcoming = ts ++ₛ rest) :
    Finds expressionStmt p fun s q =>
      s.bare = (Stmt.expression token value span).bare ∧ Reads ts [] p q := by
  obtain ⟨hfits, hhead⟩ := hw
  simp only [Stmt.flatten, Closing.always, if_true] at hm
  obtain ⟨us, vs, rfl, hus, hvs, hu⟩ := upcoming_slots hm hu
  obtain rfl : p.current = token := by
    obtain ⟨slots, hslots⟩ := List.head?_eq_some_iff.mp hhead
    rw [hslots] at hus
    obtain ⟨_, -, h, -⟩ := upcoming_slot hus hu
    exact h
  simp only [Finds, expressionStmt, ensures_bind, ensures_currentToken, ensures_ahead,
    ensures_ite, ensures_next, ensures_spanFrom, ensures_pure, decide_eq_true_eq]
  refine (expression_slots hp hfits hus hu ?_).imp ?_ fun _ _ h => h
  · rw [head_kind_of_matches hvs]
    rfl
  · intro value' q hresult
    obtain ⟨hbare, hreads⟩ := hresult
    obtain ⟨closing, rfl, hclose⟩ := Slot.exists_of_matches_singleton hvs
    have hlook : q.lookahead = closing := hreads.lookahead_eq hu
    subst hlook
    refine ⟨fun _ => ⟨?_, hreads.step⟩, fun hne => absurd hclose hne⟩
    exact congrArg (Stmt.expression p.current · (Relabelling.blank.span span)) hbare

end Plain

theorem parameters_finds {n : Nat} {p : Parser} {parameters : List Parameter}
    (hne : parameters ≠ []) (hnames : ∀ parameter ∈ parameters, parameter.name.kind = .identifier)
    {ts : List Token} {rest : Stream' Token}
    (hm : List.Forall₂ Slot.Matches
      (Parameter.flattenAll parameters ++ [.fixed (.symbol .closeParen)]) ts)
    (hu : p.advance.upcoming = ts ++ₛ rest) :
    Finds (Parser.parameters n) p fun ps q => ps = parameters ∧ Reads (p.current :: ts) [] p q := by
  induction n generalizing p parameters ts with
  | zero => rfl
  | succ n ih =>
      obtain ⟨⟨name, type⟩, more, rfl⟩ := List.exists_cons_of_ne_nil hne
      rw [List.forall_mem_cons] at hnames
      have hthird := (Reads.refl p).step.step.step
      simp only [Finds, Parser.parameters, ensures_bind, ensures_ahead, ensures_ite, ensures_next,
        ensures_pure, decide_eq_true_eq]
      cases more with
      | nil =>
          simp only [Parameter.flattenAll, Parameter.flatten, List.cons_append,
            List.nil_append] at hm
          obtain ⟨_, rfl, rfl, hm, hu⟩ := lookahead_slot hm hu
          obtain ⟨_, rfl, hcolon, hm, hu⟩ := lookahead_slot hm hu
          obtain ⟨_, rfl, htype, hm, hu⟩ := lookahead_slot hm hu
          obtain ⟨_, rfl, hclose, hm, -⟩ := lookahead_slot hm hu
          cases hm
          rw [ensures_expect_of_kind hnames.1, ensures_expect_of_kind hcolon,
            ensures_primitiveType_of_kind htype, ensures_expect_of_kind hclose]
          refine ⟨fun hcomma => ?_, fun _ => ⟨rfl, hthird.step⟩⟩
          exact absurd (hcomma.symm.trans hclose) (by simp)
      | cons next more =>
          simp only [Parameter.flattenAll, Parameter.flatten, List.cons_append,
            List.nil_append] at hm
          obtain ⟨_, rfl, rfl, hm, hu⟩ := lookahead_slot hm hu
          obtain ⟨_, rfl, hcolon, hm, hu⟩ := lookahead_slot hm hu
          obtain ⟨_, rfl, htype, hm, hu⟩ := lookahead_slot hm hu
          obtain ⟨_, rfl, hcomma, hm, hu⟩ := lookahead_slot hm hu
          rw [ensures_expect_of_kind hnames.1, ensures_expect_of_kind hcolon,
            ensures_primitiveType_of_kind htype]
          refine ⟨fun _ => ?_, fun hne => absurd hcomma hne⟩
          refine (ih (List.cons_ne_nil _ _) hnames.2 hm hu).imp ?_ fun _ _ h => h
          intro x' q hresult
          obtain ⟨rfl, hreads⟩ := hresult
          exact ⟨rfl, hthird.trans hreads⟩

theorem parameterList_finds {p : Parser} {parameters : List Parameter}
    (hnames : ∀ parameter ∈ parameters, parameter.name.kind = .identifier)
    {ts : List Token} {rest : Stream' Token}
    (hm : List.Forall₂ Slot.Matches
      (Parameter.flattenAll parameters ++ [.fixed (.symbol .closeParen)]) ts)
    (hu : p.advance.upcoming = ts ++ₛ rest) :
    Finds parameterList p fun ps q => ps = parameters ∧ Reads (p.current :: ts) [] p q := by
  simp only [Finds, parameterList, ensures_bind, ensures_ahead, ensures_ite, ensures_next,
    ensures_pure, ensures_withBudget, decide_eq_true_eq]
  cases parameters with
  | nil =>
      obtain ⟨_, rfl, hclose, hm, -⟩ := lookahead_slot hm hu
      cases hm
      exact ⟨fun _ => ⟨rfl, (Reads.refl p).step⟩, fun hne => absurd hclose hne⟩
  | cons parameter more =>
      refine ⟨fun hclose => ?_, fun _ => parameters_finds (List.cons_ne_nil _ _) hnames hm hu⟩
      have hname : p.lookahead.kind = .identifier := by
        have hhead : ∃ slots, Parameter.flattenAll (parameter :: more) ++
            [.fixed (.symbol .closeParen)] = .kept parameter.name :: slots := by
          cases more <;> exact ⟨_, rfl⟩
        obtain ⟨slots, hslots⟩ := hhead
        rw [hslots] at hm
        obtain ⟨_, -, hslot, -⟩ := lookahead_slot hm hu
        exact hslot.kind_eq.trans (hnames parameter List.mem_cons_self)
      exact absurd (hname.symm.trans hclose) (by simp)

theorem resultType?_finds {p : Parser} {result? : Option PrimitiveType} {ts : List Token}
    {rest : Stream' Token}
    (hm : List.Forall₂ Slot.Matches
      (result?.map fun type => Slot.fixed (.type type)).toList ts)
    (hu : p.advance.upcoming = ts ++ₛ rest) (hrest : rest.head.kind = .symbol .openCurly) :
    Finds resultType? p fun r q => r = result? ∧ Reads (p.current :: ts) [] p q := by
  rw [Finds, resultType?, ensures_bind, ensures_get]
  cases result? with
  | none =>
      cases hm
      have hlook : p.lookahead = rest.head := congrArg Stream'.head hu
      rw [hlook, hrest, show (Kind.symbol .openCurly).primitiveType? = none from rfl, ensures_pure]
      exact ⟨rfl, .refl p⟩
  | some type =>
      obtain ⟨_, rfl, htype, hm, -⟩ := lookahead_slot hm hu
      cases hm
      rw [Kind.primitiveType?_eq_some_iff.mpr htype, ensures_bind, ensures_next, ensures_pure]
      exact ⟨rfl, (Reads.refl p).step⟩

/-! ## Statements with blocks -/

theorem bare_conditional_congr {token : Token} {e e' : Expr} {b b' : Block}
    {otherwise otherwise' : Otherwise} {span span' : Span} (he : e.bare = e'.bare)
    (hb : b.bare = b'.bare) (ho : otherwise.relabel .blank = otherwise'.relabel .blank) :
    (Conditional.mk token e b otherwise span).bare =
      (Conditional.mk token e' b' otherwise' span').bare := by
  show Conditional.mk token e.bare b.bare (otherwise.relabel .blank)
    (Relabelling.blank.span span) = _
  rw [he, hb, ho]
  rfl

/-- A block starts with its brace. -/
theorem head_kind_of_block {b : Block} (hw : b.WellFormed) {ts : List Token}
    (hm : List.Forall₂ Slot.Matches (b.flatten .always) ts) (rest : Stream' Token) :
    (ts ++ₛ rest).head.kind = .symbol .openCurly := by
  cases b with
  | mk token body span => exact (head_kind_of_matches hm rest).trans hw.1

section Blocks

variable {block : ParseM Block} (hb : FindsBlocks block) {p : Parser} (hp : p.Plain)
  {rest : Stream' Token}

include hb hp

theorem body_finds {b : Block} (hw : b.WellFormed) {ts : List Token}
    (hm : List.Forall₂ Slot.Matches (b.flatten .always) ts)
    (hu : p.advance.upcoming = ts ++ₛ rest) :
    Finds (body block) p fun b' q => b'.bare = b.bare ∧ Reads (p.current :: ts) [] p q := by
  have hopen : p.lookahead.kind = .symbol .openCurly := by
    rw [show p.lookahead = _ from congrArg Stream'.head hu]
    exact head_kind_of_block hw hm rest
  rw [Finds, body, ensures_bind, ensures_expect_of_kind hopen]
  refine (hb hp.advance hw hm hu).imp ?_ fun _ _ h => h
  intro b' q hresult
  obtain ⟨hbare, hreads⟩ := hresult
  exact ⟨hbare, (Reads.refl p).trans hreads⟩

theorem function_finds {token name : Token} {parameters : List Parameter}
    {result? : Option PrimitiveType} {b : Block} {span : Span}
    (hw : (Stmt.function token name parameters result? b span).WellFormed) {ts : List Token}
    (hm : List.Forall₂ Slot.Matches
      ((Stmt.function token name parameters result? b span).flatten .always) ts)
    (hu : p.upcoming = ts ++ₛ rest) :
    Finds (function block) p fun s q =>
      s.bare = (Stmt.function token name parameters result? b span).bare ∧ Reads ts [] p q := by
  obtain ⟨-, hname, hnames, hbody⟩ := hw
  simp only [Stmt.flatten, Stmt.signature, List.cons_append, List.append_assoc] at hm
  obtain ⟨_, rfl, rfl, hm, hu⟩ := upcoming_slot hm hu
  obtain ⟨_, rfl, rfl, hm, hu⟩ := lookahead_slot hm hu
  obtain ⟨_, rfl, hopen, hm, hu⟩ := lookahead_slot hm hu
  rw [List.append_cons] at hm
  obtain ⟨us, xs, rfl, hus, hxs, hu⟩ := upcoming_slots hm hu
  simp only [Finds, function, ensures_bind, ensures_currentToken, ensures_spanFrom, ensures_pure,
    ensures_expect_of_kind hname, ensures_expect_of_kind hopen]
  refine (parameterList_finds hnames hus hu).imp ?_ fun _ _ h => h
  intro x' q hresult
  obtain ⟨rfl, hreads⟩ := hresult
  have hlist := (Reads.refl p).step.step.extend hreads
  have hu := hreads.upcoming_advance (by rw [upcoming_eq_cons, hu]; rfl)
  obtain ⟨vs, ws, rfl, hvs, hws, hu⟩ := upcoming_slots hxs hu
  refine (resultType?_finds hvs hu (head_kind_of_block hbody hws rest)).imp ?_ fun _ _ h => h
  intro x' r hresult
  obtain ⟨rfl, hreads'⟩ := hresult
  have hsignature := hlist.extend hreads'
  have hu := hreads'.upcoming_advance (by rw [upcoming_eq_cons, hu]; rfl)
  refine (body_finds hb (hsignature.plain hp) hbody hws hu).imp ?_ fun _ _ h => h
  intro b' t hresult
  obtain ⟨hbare, hreads''⟩ := hresult
  have hall := hsignature.extend hreads''
  rw [List.append_assoc, List.append_assoc] at hall
  refine ⟨?_, hall⟩
  exact congrArg (Stmt.function p.current p.lookahead _ _ · (Relabelling.blank.span span)) hbare

theorem whileStmt_finds {token : Token} {condition : Expr} {b : Block} {span : Span}
    (hw : (Stmt.while_ token condition b span).WellFormed) {ts : List Token}
    (hm : List.Forall₂ Slot.Matches ((Stmt.while_ token condition b span).flatten .always) ts)
    (hu : p.upcoming = ts ++ₛ rest) :
    Finds (whileStmt block) p fun s q =>
      s.bare = (Stmt.while_ token condition b span).bare ∧ Reads ts [] p q := by
  obtain ⟨-, hcondition, hbody⟩ := hw
  simp only [Stmt.flatten] at hm
  obtain ⟨_, rfl, rfl, hm, hu⟩ := upcoming_slot hm hu
  obtain ⟨us, vs, rfl, hus, hvs, hu⟩ := upcoming_slots hm hu
  simp only [Finds, whileStmt, ensures_bind, ensures_currentToken, ensures_spanFrom,
    ensures_pure]
  have hu' : p.upcoming = p.current :: us ++ₛ (vs ++ₛ rest) := by rw [upcoming_eq_cons, hu]; rfl
  refine (condition_slots hp hcondition hus hu' ?_).imp ?_ fun _ _ h => h
  · rw [head_kind_of_block hbody hvs]
    rfl
  · intro e q hresult
    obtain ⟨he, hreads⟩ := hresult
    refine (body_finds hb (hreads.plain hp) hbody hvs (hreads.upcoming_advance hu')).imp ?_
      fun _ _ h => h
    intro b' r hresult
    obtain ⟨hbare, hreads'⟩ := hresult
    refine ⟨?_, hreads.extend hreads'⟩
    exact congrArg₂ (Stmt.while_ p.current · · (Relabelling.blank.span span)) he hbare

theorem loopStmt_finds {token : Token} {b : Block} {span : Span}
    (hw : (Stmt.loop token b span).WellFormed) {ts : List Token}
    (hm : List.Forall₂ Slot.Matches ((Stmt.loop token b span).flatten .always) ts)
    (hu : p.upcoming = ts ++ₛ rest) :
    Finds (loopStmt block) p fun s q =>
      s.bare = (Stmt.loop token b span).bare ∧ Reads ts [] p q := by
  simp only [Stmt.flatten] at hm
  obtain ⟨_, rfl, rfl, hm, hu⟩ := upcoming_slot hm hu
  simp only [Finds, loopStmt, ensures_bind, ensures_currentToken, ensures_spanFrom, ensures_pure]
  refine (body_finds hb hp hw.2 hm hu).imp ?_ fun _ _ h => h
  intro b' q hresult
  obtain ⟨hbare, hreads⟩ := hresult
  exact ⟨congrArg (Stmt.loop p.current · (Relabelling.blank.span span)) hbare, hreads⟩

omit hp in
theorem conditional_finds {n : Nat} {branch : Conditional} (hp : p.Plain) (hw : branch.WellFormed)
    {ts : List Token} (hm : List.Forall₂ Slot.Matches (branch.flatten .always) ts)
    (hu : p.upcoming = ts ++ₛ rest) (hrest : rest.head.kind.continues = false) :
    Finds (conditional block n) p fun c q => c.bare = branch.bare ∧ Reads ts [] p q := by
  induction n generalizing p branch ts with
  | zero => rfl
  | succ n ih =>
      obtain ⟨token, e, b, otherwise, span⟩ := branch
      obtain ⟨he, hbody, hother⟩ := hw
      simp only [Conditional.flatten] at hm
      rw [conditional]
      refine finds_of_during fun p' hp' => ?_
      have hplain : p'.Plain := by rw [hp']; exact hp.note
      have hu' : p'.upcoming = ts ++ₛ rest := by rw [hp']; exact hu
      obtain ⟨_, rfl, rfl, hm, hu1⟩ := upcoming_slot hm hu'
      obtain ⟨us, _, rfl, hus, hm, hu2⟩ := upcoming_slots hm hu1
      obtain ⟨vs, ws, rfl, hvs, hws⟩ := Slot.exists_of_matches_append hm
      simp only [Finds, ensures_bind, ensures_currentToken, ensures_ahead, ensures_ite,
        ensures_next, ensures_spanFrom, ensures_pure, decide_eq_true_eq]
      rw [Stream'.append_append_stream] at hu2
      have hu3 : p'.upcoming = p'.current :: us ++ₛ (vs ++ₛ (ws ++ₛ rest)) := by
        rw [upcoming_eq_cons, hu2]
        rfl
      refine (condition_slots hplain he hus hu3 ?_).imp ?_ fun _ _ h => h
      · rw [head_kind_of_block hbody hvs]
        rfl
      · intro e' q hresult
        obtain ⟨hebare, hreads⟩ := hresult
        have hu4 := hreads.upcoming_advance hu3
        refine (body_finds hb (hreads.plain hplain) hbody hvs hu4).imp ?_ fun _ _ h => h
        intro b' r hresult
        obtain ⟨hbare, hreads'⟩ := hresult
        have hhead := hreads.extend hreads'
        have hr := hhead.plain hplain
        have hu5 := hreads'.upcoming_advance (by rw [upcoming_eq_cons, hu4]; rfl)
        have hlook : r.lookahead = (ws ++ₛ rest).head := congrArg Stream'.head hu5
        cases otherwise with
        | nothing =>
            cases hws
            rw [show r.lookahead = rest.head from hlook]
            simp only [Kind.continues, Bool.or_eq_false_iff, decide_eq_false_iff_not] at hrest
            refine ⟨fun helif => absurd helif hrest.1, fun _ =>
              ⟨fun helse => absurd helse hrest.2, fun _ => ⟨?_, ?_⟩⟩⟩
            · exact bare_conditional_congr hebare hbare rfl
            · rw [List.append_nil]
              exact hhead
        | block b2 =>
            simp only [Otherwise.flatten] at hws
            obtain ⟨us', rfl, helse, hws, hu6⟩ := lookahead_slot hws hu5
            refine ⟨fun helif => ?_, fun _ => ⟨fun _ => ?_, fun hne => absurd helse hne⟩⟩
            · exact absurd (helif.symm.trans helse) (by simp)
            · refine (body_finds hb hr.advance hother hws hu6).imp ?_ fun _ _ h => h
              intro b3 s hresult
              obtain ⟨hbare', hreads''⟩ := hresult
              have hall := hhead.trans hreads''
              rw [List.append_assoc] at hall
              exact ⟨bare_conditional_congr hebare hbare (congrArg Otherwise.block hbare'), hall⟩
        | elif c2 =>
            obtain ⟨helif, hbranch⟩ := hother
            simp only [Otherwise.flatten] at hws
            have helif' : r.lookahead.kind = .keyword .elif := by
              cases c2
              rw [hlook]
              exact (head_kind_of_matches hws rest).trans helif
            refine ⟨fun _ => ?_, fun hne => absurd helif' hne⟩
            refine (ih hr.advance hbranch hws hu5).imp ?_ fun _ _ h => h
            intro c3 s hresult
            obtain ⟨hbare', hreads''⟩ := hresult
            have hall := hhead.trans hreads''
            rw [List.append_assoc] at hall
            exact ⟨bare_conditional_congr hebare hbare (congrArg Otherwise.elif hbare'), hall⟩

theorem stmt_finds {s : Stmt} (hw : s.WellFormed) {ts : List Token}
    (hm : List.Forall₂ Slot.Matches (s.flatten .always) ts) (hu : p.upcoming = ts ++ₛ rest)
    (hrest : rest.head.kind.continues = false) :
    Finds (stmt block) p fun s' q => s'.bare = s.bare ∧ Reads ts [] p q := by
  rw [stmt]
  refine finds_of_during fun p' hp' => ?_
  have hplain : p'.Plain := by rw [hp']; exact hp.note
  have hu' : p'.upcoming = ts ++ₛ rest := by rw [hp']; exact hu
  rw [Finds, ensures_bind, ensures_get]
  have hrule : p'.rules.stmtRule? p'.current.kind = s.rule? := by
    obtain ⟨t, slots, hflat, hrule, -⟩ := Stmt.exists_head hw
    rw [hflat] at hm
    obtain ⟨_, -, hslot, -⟩ := upcoming_slot hm hu'
    rw [hplain.rules, show p'.current = t from hslot]
    exact hrule
  rw [hrule]
  cases s with
  | expression token value span => exact expressionStmt_finds hplain hw hm hu'
  | block b =>
      show Finds (applyStmt block .block) p' _
      rw [applyStmt, Finds, ensures_bind]
      refine (hb hplain hw hm hu').imp ?_ fun _ _ h => h
      intro b' q hresult
      obtain ⟨hbare, hreads⟩ := hresult
      exact ⟨congrArg Stmt.block hbare, hreads⟩
  | declaration token name type value span => exact declaration_finds hplain hw hm hu'
  | return_ token value? span => exact returnStmt_finds hplain hw hm hu'
  | function token name parameters result? body span => exact function_finds hb hplain hw hm hu'
  | conditional branch =>
      show Finds (applyStmt block .conditional) p' _
      rw [applyStmt, Finds, ensures_bind, ensures_withBudget]
      refine (conditional_finds hb hplain hw.2 hm hu' hrest).imp ?_ fun _ _ h => h
      intro c q hresult
      obtain ⟨hbare, hreads⟩ := hresult
      exact ⟨congrArg Stmt.conditional hbare, hreads⟩
  | while_ token condition body span => exact whileStmt_finds hb hplain hw hm hu'
  | loop token body span => exact loopStmt_finds hb hplain hw hm hu'

theorem stmtOrRecover_finds {s : Stmt} (hw : s.WellFormed) {ts : List Token}
    (hm : List.Forall₂ Slot.Matches (s.flatten .always) ts) (hu : p.upcoming = ts ++ₛ rest)
    (hrest : rest.head.kind.continues = false) :
    Finds (stmtOrRecover block) p fun s? q =>
      ∃ s', s? = some s' ∧ s'.bare = s.bare ∧ Reads ts [] p q := by
  rw [Finds, ensures_stmtOrRecover]
  refine (stmt_finds hb hp hw hm hu hrest).imp ?_ ?_
  · intro s' q hresult
    obtain ⟨hbare, hreads⟩ := hresult
    exact ⟨s', rfl, hbare, hreads⟩
  · rintro f q rfl
    rfl

end Blocks

/-! ## Blocks and programs -/

/-- Behind the statements of a block or a program stands a token that takes no
statement further. -/
theorem head_not_continues {ss : List Stmt} (hw : Stmt.AllWellFormed ss) {ts : List Token}
    (hm : List.Forall₂ Slot.Matches (Stmt.flattenAll .always ss) ts) {rest : Stream' Token}
    (hrest : rest.head.kind.continues = false) : (ts ++ₛ rest).head.kind.continues = false := by
  cases ss with
  | nil =>
      cases hm
      exact hrest
  | cons s ss =>
      obtain ⟨t, slots, hflat, -, hstarts⟩ := Stmt.exists_head hw.1
      rw [Stmt.flattenAll, hflat] at hm
      rw [head_kind_of_matches hm]
      exact Kind.not_continues_of_startsStmt hstarts

/-- A loop over statements finds these over these tokens. -/
def FindsStmts (x : ParseM (List Stmt)) (ss : List Stmt) (ts : List Token) (p : Parser) : Prop :=
  Finds x p fun ss' q =>
    Stmt.relabelAll .blank ss' = Stmt.relabelAll .blank ss ∧ Walk ts [] p q

section Turns

variable {block : ParseM Block} (hb : FindsBlocks block) {p : Parser} {ts : List Token}
  {rest : Stream' Token} (hu : p.upcoming = ts ++ₛ rest)

include hu

theorem current_startsStmt {s : Stmt} {ss : List Stmt} (hw : Stmt.AllWellFormed (s :: ss))
    (hm : List.Forall₂ Slot.Matches (Stmt.flattenAll .always (s :: ss)) ts) :
    p.current.kind.startsStmt := by
  obtain ⟨t, slots, hflat, -, hstarts⟩ := Stmt.exists_head hw.1
  rw [Stmt.flattenAll, hflat] at hm
  obtain ⟨_, -, hslot, -⟩ := upcoming_slot hm hu
  rwa [show p.current = t from hslot]

include hb

/-- One turn of a loop over statements, when the turns behind it find the other
statements. -/
theorem turn_finds (hp : p.Plain) {s : Stmt} {ss : List Stmt}
    (hw : Stmt.AllWellFormed (s :: ss))
    (hm : List.Forall₂ Slot.Matches (Stmt.flattenAll .always (s :: ss)) ts)
    (hrest : rest.head.kind.continues = false) {x : ParseM (List Stmt)}
    (hx : ∀ {q : Parser} {us : List Token}, q.Plain →
      List.Forall₂ Slot.Matches (Stmt.flattenAll .always ss) us → q.upcoming = us ++ₛ rest →
      FindsStmts x ss us q) :
    Finds (stmtOrRecover block) p fun s? q => ∃ s', s? = some s' ∧
      Finds x q.advancePastStatement fun ss' r =>
        Stmt.relabelAll .blank (s' :: ss') = Stmt.relabelAll .blank (s :: ss) ∧
          Walk ts [] p r := by
  obtain ⟨us, vs, rfl, hus, hvs, hu⟩ := upcoming_slots hm hu
  have hnext := head_not_continues hw.2 hvs hrest
  refine (stmtOrRecover_finds hb hp hw.1 hus hu hnext).imp ?_ fun _ _ h => h
  intro s? q hresult
  obtain ⟨s', rfl, hbare, hreads⟩ := hresult
  have hq := hreads.plain hp
  refine ⟨s', rfl, ?_⟩
  rw [hq.advancePastStatement]
  refine (hx hq.advance hvs (hreads.upcoming_advance hu)).imp ?_ fun _ _ h => h
  intro ss' r hresult
  obtain ⟨hbares, hwalk⟩ := hresult
  exact ⟨congrArg₂ List.cons hbare hbares, hreads.walk hwalk⟩

end Turns

theorem blockBody_finds {block : ParseM Block} (hb : FindsBlocks block) {n : Nat} {p : Parser}
    (hp : p.Plain) {ss : List Stmt} (hw : Stmt.AllWellFormed ss) {ts : List Token}
    (hm : List.Forall₂ Slot.Matches (Stmt.flattenAll .always ss) ts) {rest : Stream' Token}
    (hu : p.upcoming = ts ++ₛ rest) (hrest : rest.head.kind = .symbol .closeCurly) :
    FindsStmts (blockBody block n) ss ts p := by
  induction n generalizing p ss ts with
  | zero => rfl
  | succ n ih =>
      rw [FindsStmts, Finds, blockBody, ensures_bind, ensures_get, ensures_ite]
      cases ss with
      | nil =>
          cases hm
          have hclose : p.current.kind = .symbol .closeCurly := by
            rw [show p.current = rest.head from congrArg Stream'.head hu, hrest]
          exact ⟨fun _ => ⟨rfl, .refl p⟩, fun hne => absurd (.inl hclose) hne⟩
      | cons s ss =>
          have hstarts := current_startsStmt hu hw hm
          constructor
          · intro hend
            rcases hend with hend | hend
            · rw [hend] at hstarts
              cases hstarts
            · rw [hend] at hstarts
              cases hstarts
          · intro _
            rw [ensures_bind]
            refine (turn_finds hb hu hp hw hm (by rw [hrest]; rfl)
              fun hq hvs hqu => ih hq hw.2 hvs hqu).imp ?_ fun _ _ h => h
            intro s? q hresult
            obtain ⟨s', rfl, hfinds⟩ := hresult
            simp only [ensures_bind, ensures_modify, ensures_pure]
            exact hfinds

theorem block_finds (fuel : Nat) : FindsBlocks (block fuel) := by
  induction fuel with
  | zero =>
      intro b ts rest p _ _ _ _
      rfl
  | succ fuel ih =>
      intro b ts rest p hp hw hm hu
      obtain ⟨token, body, span⟩ := b
      simp only [Block.flatten] at hm
      rw [block]
      refine finds_of_during fun p' hp' => ?_
      have hplain : p'.Plain := by rw [hp']; exact hp.note
      have hu' : p'.upcoming = ts ++ₛ rest := by rw [hp']; exact hu
      obtain ⟨_, rfl, rfl, hm, hu1⟩ := upcoming_slot hm hu'
      obtain ⟨us, vs, rfl, hus, hvs, hu2⟩ := upcoming_slots hm hu1
      obtain ⟨closing, rfl, hclose⟩ := Slot.exists_of_matches_singleton hvs
      simp only [Finds, ensures_bind, ensures_currentToken, ensures_next, ensures_withBudget,
        ensures_get, ensures_ite, ensures_pure, ensures_reject]
      refine (blockBody_finds ih hplain.advance hw.2 hus hu2 hclose).imp ?_ fun _ _ h => h
      intro ss q hresult
      obtain ⟨hbares, hwalk⟩ := hresult
      have hend := Stream'.append_right_injective _ _ _ (hwalk.upcoming.symm.trans hu2)
      have hcurrent : q.current = closing := congrArg Stream'.head hend
      rw [hcurrent]
      refine ⟨fun _ => ⟨?_, ?_⟩, fun hne => absurd hclose hne⟩
      · exact congrArg (Block.mk p'.current · (Relabelling.blank.span span)) hbares
      · refine ⟨_, ?_, (Walk.advance p').trans hwalk⟩
        rw [hcurrent]
        rfl

theorem statements_finds {block : ParseM Block} (hb : FindsBlocks block) {n : Nat} {p : Parser}
    (hp : p.Plain) {ss : List Stmt} (hw : Stmt.AllWellFormed ss) {ts : List Token}
    (hm : List.Forall₂ Slot.Matches (Stmt.flattenAll .always ss) ts) {rest : Stream' Token}
    (hu : p.upcoming = ts ++ₛ rest) (hrest : rest.head.kind = .eof) :
    FindsStmts (statements (stmtOrRecover block) n) ss ts p := by
  induction n generalizing p ss ts with
  | zero => rfl
  | succ n ih =>
      rw [FindsStmts, Finds, statements, ensures_bind, ensures_get, ensures_ite]
      cases ss with
      | nil =>
          cases hm
          have hend : p.current.kind = .eof := by
            rw [show p.current = rest.head from congrArg Stream'.head hu, hrest]
          exact ⟨fun _ => ⟨rfl, .refl p⟩, fun hne => absurd hend hne⟩
      | cons s ss =>
          have hstarts := current_startsStmt hu hw hm
          constructor
          · intro hend
            rw [hend] at hstarts
            cases hstarts
          · intro _
            simp only [ensures_bind, ensures_modify, ensures_pure]
            refine (turn_finds hb hu hp hw hm (by rw [hrest]; rfl)
              fun hq hvs hqu => ih hq hw.2 hvs hqu).imp ?_ fun _ _ h => h
            intro s? q hresult
            obtain ⟨s', rfl, hfinds⟩ := hresult
            exact hfinds

theorem parseBlock_finds : FindsBlocks parseBlock := by
  intro b ts rest p hp hw hm hu
  rw [Finds, parseBlock, ensures_withBudget]
  exact block_finds p.budget hp hw hm hu

theorem plain_ofStream (stream : TokenStream) : (ofStream stream).Plain := ⟨rfl, rfl⟩

/-- A well-formed program is read back from its tokens, and nothing is recorded. -/
theorem parseProgram_finds {p : Parser} (hp : p.Plain) {program : Program}
    (hw : program.WellFormed) {ts : List Token}
    (hm : List.Forall₂ Slot.Matches (program.flatten .always) ts) {rest : Stream' Token}
    (hu : p.upcoming = ts ++ₛ rest) (hrest : rest.head.kind = .eof) :
    ∃ program' q, parseProgram p = .ok program' q ∧ program'.bare = program.bare ∧
      Stmt.SpellsAll program'.statements ts 0 ∧ Walk ts [] p q := by
  have hfinds : Finds parseProgram p fun program' q =>
      program'.bare = program.bare ∧ Walk ts [] p q := by
    rw [Finds, parseProgram, ensures_bind, ensures_withBudget]
    refine (statements_finds parseBlock_finds hp hw hm hu hrest).imp ?_ fun _ _ h => h
    intro ss q hresult
    obtain ⟨hbares, hwalk⟩ := hresult
    rw [Stmt.relabelAll_eq_map, Stmt.relabelAll_eq_map] at hbares
    exact ⟨congrArg Program.mk hbares, hwalk⟩
  -- The fuel suffices, and the spans are right, for every input.
  obtain ⟨ss, q, -, hrun, ⟨us, ds, hspells, hwalk⟩, -⟩ := parseProgram_reads hp
  obtain ⟨hbare, hwalk'⟩ := hfinds.of_ok hrun
  obtain rfl := hwalk.unique hwalk'
  obtain rfl : ds = [] := List.append_cancel_left (hwalk.faults.symm.trans hwalk'.faults)
  exact ⟨⟨ss⟩, q, hrun, hbare, hspells, hwalk'⟩

end Parser

/-! ## Round trip -/

/-- A well-formed program is read back from every stream that hands out its
tokens and then the end. The spans of the nodes are those of the tokens, and the
only diagnostics are those that came with the tokens. -/
theorem parseStream_exact {program : Program} (hw : program.WellFormed) {ts : List Token}
    (hm : List.Forall₂ Slot.Matches (program.flatten .always) ts) {stream : TokenStream}
    {rest : Stream' Token} (hu : stream.tape = ts ++ₛ rest) (hrest : rest.head.kind = .eof) :
    (parseStream stream).1.bare = program.bare ∧
      Stmt.SpellsAll (parseStream stream).1.statements ts 0 ∧
      (parseStream stream).2 <+: stream.pending.flatMap (·.diagnostics) := by
  obtain ⟨program', q, hrun, hbare, hspells, hwalk⟩ :=
    Parser.parseProgram_finds (Parser.plain_ofStream stream) hw hm
      ((Parser.upcoming_ofStream stream).trans hu) hrest
  rw [parseStream, hrun]
  refine ⟨hbare, hspells, ?_⟩
  have hfaults := hwalk.faults
  rw [Parser.faults_ofStream] at hfaults
  rw [← Parser.delivered_ofStream, ← hwalk.delivered]
  exact Parser.diagnostics_isPrefix_delivered hfaults

/-! `if a { x; } elif b { }`, with a comment behind its first token. -/

section Sample

def Program.sample : Program :=
  let span : Span := .mark 0 0 "a.x"
  ⟨[.conditional (.mk (.single (.keyword .if_) "if" 0) (.identifier (.single .identifier "a" 1))
      (.mk (.single (.symbol .openCurly) "\x7b" 2)
        [.expression (.single .identifier "x" 3) (.identifier (.single .identifier "x" 3)) span]
        span)
      (.elif (.mk (.single (.keyword .elif) "elif" 6) (.identifier (.single .identifier "b" 7))
        (.mk (.single (.symbol .openCurly) "\x7b" 8) [] span) .nothing span))
      span)]⟩

def Program.sampleTokens : List Token :=
  [.single (.keyword .if_) "if" 0, .single .identifier "a" 1,
    .single (.symbol .openCurly) "\x7b" 2, .single .identifier "x" 3,
    .single (.symbol .semicolon) ";" 4, .single (.symbol .closeCurly) "\x7d" 5,
    .single (.keyword .elif) "elif" 6, .single .identifier "b" 7,
    .single (.symbol .openCurly) "\x7b" 8, .single (.symbol .closeCurly) "\x7d" 9]

def Program.sampleStream : TokenStream :=
  .replay ((sampleTokens.take 1 ++ Token.single .comment "// c" 1 :: sampleTokens.drop 1).map
    (⟨·, []⟩)) "a.x"

theorem parseStream_exact_sample :
    (parseStream Program.sampleStream).1.bare = Program.sample.bare ∧
      (parseStream Program.sampleStream).2 = [] := by
  have hfits : ∀ t : Token, t.kind = .identifier → (Expr.identifier t).Fits .lowest :=
    fun t ht => ⟨.inl rfl, ht⟩
  have hw : Program.sample.WellFormed :=
    ⟨⟨rfl, hfits _ rfl, ⟨rfl, ⟨hfits _ rfl, rfl⟩, trivial⟩, rfl, hfits _ rfl, ⟨rfl, trivial⟩,
      trivial⟩, trivial⟩
  have hm : List.Forall₂ Slot.Matches (Program.sample.flatten .always) Program.sampleTokens := by
    decide
  obtain ⟨hbare, -, hdiagnostics⟩ :=
    parseStream_exact hw hm (show Program.sampleStream.tape = _ from rfl) rfl
  exact ⟨hbare, List.prefix_nil.mp hdiagnostics⟩

end Sample

end Frontend
