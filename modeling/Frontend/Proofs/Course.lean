import Frontend.Proofs.Along
import Frontend.Proofs.BlockNesting

/-!
# The course of a statement

What a parse knows on its way through a statement changes in the same places,
whatever it is that is to be known. A token that the statement was to have here has
been read, and behind such a token another one may be asked for. Or the window has
been moved without a look at what comes, since an expression or a block is to start
there. Or a block has been read, with statements of its own in it. And at last the
statement may have failed: on the current token, on the one ahead, or on an operator
further back.

A `Course` is a choice of what is known in each of these cases, with the few laws that
lead from one to the other. `Course.Runs` says of a production that it follows the
course. One lemma for each production follows its text. Those that leave notes in the
trail, expressions and conditionals, follow courses to which the notes do not count.
-/

namespace Frontend

variable {α β : Type}

namespace Parser

/-! ## Places -/

section Places

variable {o p q : Parser}

theorem current_eq_get (h : p.upcoming = o.upcoming.drop p.index) :
    p.current = o.upcoming.get p.index := by
  have h := congrArg Stream'.head h
  rwa [Stream'.head_drop] at h

theorem upcoming_of_walk (h : p.upcoming = o.upcoming.drop p.index) {us : List Token}
    {ds : List Diagnostic} (hw : Walk us ds p q) : q.upcoming = o.upcoming.drop q.index := by
  rw [hw.index, ← Stream'.drop_drop, ← h, hw.upcoming, Stream'.drop_append_stream]

/-- The parse that has started in `o` reads the language and is at the place that it has
counted up to. -/
structure OnTape (o p : Parser) : Prop where
  plain : p.Plain
  upcoming : p.upcoming = o.upcoming.drop p.index

namespace OnTape

theorem refl (hplain : o.Plain) (hindex : o.index = 0) : OnTape o o :=
  ⟨hplain, by rw [hindex]; rfl⟩

theorem walk (h : OnTape o p) {us : List Token} {ds : List Diagnostic} (hw : Walk us ds p q) :
    OnTape o q :=
  ⟨hw.plain h.plain, upcoming_of_walk h.upcoming hw⟩

theorem advance (h : OnTape o p) : OnTape o p.advance := h.walk (.advance p)

theorem current_eq (h : OnTape o p) : p.current = o.upcoming.get p.index :=
  current_eq_get h.upcoming

theorem lookahead_eq (h : OnTape o p) : p.lookahead = o.upcoming.get (p.index + 1) :=
  h.advance.current_eq

/-- The end comes behind a token that is not the end. -/
theorem lt_of_ends (h : OnTape o p) {n : Nat} (hn : o.Ends n) (hp : p.current.kind ≠ .eof) :
    p.index < n := by
  by_contra hle
  rw [h.current_eq] at hp
  exact hp (hn p.index (Nat.le_of_not_lt hle))

end OnTape

end Places

end Parser

/-! ## Courses -/

/-- Whether a token of this kind can go on with a statement: it heads none, closes no block,
and is not the end. -/
def Kind.isMedial (kind : Kind) : Bool :=
  kind.stmtRule?.isNone && kind ≠ .symbol .closeCurly && kind ≠ .eof

namespace Kind

theorem isMedial_iff {kind : Kind} :
    kind.isMedial ↔ kind.stmtRule? = none ∧ kind ≠ .symbol .closeCurly ∧ kind ≠ .eof := by
  simp [isMedial, and_assoc]

theorem isMedial_of_inExpression {kind : Kind} (h : kind.inExpression) : kind.isMedial := by
  cases kind with
  | symbol s => cases s <;> first | rfl | cases h
  | keyword k => cases k <;> first | rfl | cases h
  | eof => cases h
  | _ => rfl

theorem isMedial_of_prefixRule? {kind : Kind} {rule : PrefixRule}
    (h : kind.prefixRule? = some rule) : kind.isMedial :=
  isMedial_of_inExpression (inExpression_of_prefixRule? h)

theorem isMedial_of_infixRule? {kind : Kind} {rule : Power × InfixRule}
    (h : kind.infixRule? = some rule) : kind.isMedial :=
  isMedial_of_inExpression (inExpression_of_infixRule? h)

end Kind

/-- The parse has not gone back, and has recorded nothing. -/
def Still (p q : Parser) : Prop := p.index ≤ q.index ∧ q.faults = p.faults

instance : Onward Still where
  refl _ := ⟨Nat.le_refl _, rfl⟩
  trans h h' := ⟨Nat.le_trans h.1 h'.1, h'.2.trans h.2⟩
  advance p := ⟨Nat.le_succ _, p.faults_advance⟩
  note _ _ _ _ _ := ⟨Nat.le_refl _, rfl⟩
  settle _ := ⟨Nat.le_refl _, rfl⟩

/-- What is known at each place of a statement. -/
structure Course where
  /-- An expression or a block is to start here. -/
  front : Parser → Prop
  /-- The current token is one that the statement has asked for. -/
  mid : Parser → Prop
  /-- The current token ends a part of the statement, which may be a block. -/
  past : Parser → Prop
  fails : Failure → Parser → Prop
  rules : ∀ {p : Parser}, mid p → p.rules = .standard
  past_of_mid : ∀ {p : Parser}, mid p → past p
  next : ∀ {p : Parser}, past p → front p.advance
  step : ∀ {p : Parser}, past p → p.lookahead.kind.isMedial → mid p.advance
  exhausted : ∀ p : Parser, fails .outOfFuel p
  /-- The token found wrong is the current one, or was a while ago. -/
  reject : ∀ {p q : Parser} (cause : Cause), mid p → mid q → Still p q →
    fails (.rejected ⟨cause, p.current.span.start⟩) q
  reject_ahead : ∀ {p : Parser} (cause : Cause), mid p →
    fails (.rejected ⟨cause, p.lookahead.span.start⟩) p

/-- Notes about the production do not count. -/
def Silent (production : Production) (P : Parser → Prop) : Prop :=
  ∀ {p : Parser} (stage : Stage) (entry : Mark), P p → P (p.note production stage entry)

namespace Course

variable (c : Course)

/-- The production leads from the one place to the other, or fails. -/
def Runs (P : Parser → Prop) (x : ParseM α) (Q : Parser → Prop) : Prop :=
  ∀ p, P p → Ensures x p (fun _ q => Q q) c.fails

theorem reject_here {p : Parser} (cause : Cause) (h : c.mid p) :
    c.fails (.rejected ⟨cause, p.current.span.start⟩) p :=
  c.reject cause h h (Onward.refl p)

namespace Runs

variable {c} {P Q R : Parser → Prop}

theorem bind {x : ParseM α} {f : α → ParseM β} (hx : c.Runs P x Q)
    (hf : ∀ a, c.Runs Q (f a) R) : c.Runs P (x >>= f) R := by
  intro p hp
  rw [ensures_bind]
  exact (hx p hp).imp (fun a q hq => hf a q hq) fun _ _ h => h

theorem of_imp {x : ParseM α} (hx : c.Runs Q x R) (h : ∀ p, P p → Q p) : c.Runs P x R :=
  fun p hp => hx p (h p hp)

theorem imp {x : ParseM α} (hx : c.Runs P x Q) (h : ∀ p, Q p → R p) : c.Runs P x R :=
  fun p hp => (hx p hp).imp (fun _ q hq => h q hq) fun _ _ hf => hf

theorem past {x : ParseM α} (hx : c.Runs P x c.mid) : c.Runs P x c.past :=
  hx.imp fun _ => c.past_of_mid

theorem pure (a : α) : c.Runs P (Pure.pure a) P := fun _ h => h

theorem exhaust : c.Runs P (Parser.exhaust : ParseM α) Q := fun p _ => c.exhausted p

theorem currentToken : c.Runs P Parser.currentToken P := fun _ h => h

theorem spanFrom (token : Token) : c.Runs P (Parser.spanFrom token) P := fun _ h => h

theorem ahead (kind : Kind) : c.Runs P (Parser.ahead kind) P := fun _ h => h

theorem ite {cond : Prop} [Decidable cond] {x y : ParseM α} (hx : c.Runs P x Q)
    (hy : c.Runs P y Q) : c.Runs P (if cond then x else y) Q := by
  split
  · exact hx
  · exact hy

theorem withBudget {x : Nat → ParseM α} (h : ∀ n, c.Runs P (x n) Q) :
    c.Runs P (Parser.withBudget x) Q :=
  fun p hp => h p.budget p hp

theorem next : c.Runs c.mid Parser.next c.front := fun _ h => c.next (c.past_of_mid h)

theorem expect {kind : Kind} (hk : kind.isMedial) : c.Runs c.mid (Parser.expect kind) c.mid := by
  intro p h
  rw [Parser.ensures_expect]
  exact ⟨fun hkind => c.step (c.past_of_mid h) (hkind ▸ hk), fun _ => c.reject_ahead _ h⟩

theorem primitiveType : c.Runs c.mid Parser.primitiveType c.mid := by
  intro p h
  rw [Parser.ensures_primitiveType]
  exact ⟨fun type htype => c.step (c.past_of_mid h) (by rw [htype]; rfl),
    fun _ => c.reject_ahead _ h⟩

/-- Going on over the lookahead, if it is the token that is looked for. -/
theorem ahead_next (hP : ∀ p, P p → c.past p) {kind : Kind} (hk : kind.isMedial)
    {x y : ParseM α} (hx : c.Runs c.mid x Q) (hy : c.Runs P y Q) :
    c.Runs P (Parser.ahead kind >>= fun found =>
      if found = true then Parser.next >>= fun _ => x else y) Q := by
  intro p h
  rw [ensures_bind, Parser.ensures_ahead, ensures_ite, decide_eq_true_eq]
  refine ⟨fun hkind => ?_, fun _ => hy p h⟩
  rw [ensures_bind, Parser.ensures_next]
  exact hx _ (c.step (hP p h) (hkind ▸ hk))

/-- A production whose notes do not count. -/
theorem during {production : Production} {x : ParseM α} (hP : Silent production P)
    (hQ : Silent production Q) (hfails : ∀ f, Silent production (c.fails f))
    (hx : c.Runs P x Q) : c.Runs P (Parser.during production x) Q := by
  intro p h
  rw [Parser.ensures_during]
  exact (hx _ (hP _ _ h)).imp (fun _ _ hq => hQ _ _ hq) fun f _ hf => hfails f _ _ hf

end Runs

end Course

namespace Parser

open Course (Runs)

variable {c : Course}

/-! ## Expressions -/

section Operands

variable {operand : Operand} (ho : ∀ power, c.Runs c.front (operand power) c.mid)

include ho

theorem prefixed_runs (hstill : ∀ power, Along Still (operand power)) :
    c.Runs c.mid (prefixed operand) c.mid := by
  intro p h
  simp only [prefixed, ensures_bind, ensures_currentToken, ensures_next, ensures_ite,
    ensures_reject, ensures_pure]
  have hfront := c.next (c.past_of_mid h)
  refine (Ensures.and (ho .unary _ hfront) (hstill .unary _)).imp ?_ fun _ _ hf => hf.1
  intro right q hresult
  have hsame : Still p q := Onward.trans (Onward.advance p) hresult.2
  exact ⟨fun _ => c.reject _ h hresult.1 hsame, fun _ => hresult.1⟩

theorem applyPrefix_runs (hstill : ∀ power, Along Still (operand power)) (rule : PrefixRule) :
    c.Runs c.mid (applyPrefix operand rule) c.mid := by
  cases rule with
  | identifier => exact .bind .currentToken fun _ => .pure _
  | number =>
      intro p h
      rw [applyPrefix, number, ensures_bind, ensures_currentToken]
      split
      · exact h
      · exact c.reject_here _ h
  | boolean => exact .bind .currentToken fun _ => .pure _
  | operator => exact prefixed_runs ho hstill
  | grouping =>
      refine .bind .currentToken fun _ => .bind .next fun _ => .bind (ho _) fun _ => ?_
      exact .bind (.expect rfl) fun _ => .pure _

theorem moreArguments_runs (n : Nat) : c.Runs c.mid (moreArguments operand n) c.mid := by
  induction n with
  | zero => exact .exhaust
  | succ n ih =>
      refine .ahead_next (fun _ => c.past_of_mid) rfl ?_ (.pure _)
      exact .bind .next fun _ => .bind (ho _) fun _ => .bind ih fun _ => .pure _

theorem arguments_runs : c.Runs c.mid (arguments operand) c.mid := by
  refine .ahead_next (fun _ => c.past_of_mid) rfl (.pure _) ?_
  refine .bind .next fun _ => .bind (ho _) fun _ => ?_
  refine .bind (.withBudget (moreArguments_runs ho)) fun _ => ?_
  exact .bind (.expect rfl) fun _ => .pure _

theorem applyInfix_runs (left : Expr) (power : Power) (rule : InfixRule) :
    c.Runs c.mid (applyInfix operand left power rule) c.mid := by
  have hassignable : ∀ {x : ParseM Expr}, c.Runs c.mid x c.mid → ∀ p, c.mid p →
      Ensures (if left.isAssignable then x else
        reject (.invalidTarget left.render) p.current.span.start) p (fun _ q => c.mid q)
        c.fails := by
    intro x hx p h
    rw [ensures_ite, ensures_reject]
    exact ⟨fun _ => hx p h, fun _ => c.reject_here _ h⟩
  cases rule with
  | binary =>
      refine .bind .currentToken fun _ => .bind .next fun _ => ?_
      exact .bind (ho _) fun _ => .pure _
  | assignment =>
      exact fun p h => hassignable (.bind .next fun _ => .bind (ho _) fun _ => .pure _) p h
  | postfixed => exact fun p h => hassignable (.pure _) p h
  | call =>
      refine .bind .currentToken fun _ => .bind (arguments_runs ho) fun _ => ?_
      exact .bind .currentToken fun _ => .pure _
  | index =>
      refine .bind .currentToken fun _ => .bind .next fun _ => .bind (ho _) fun _ => ?_
      exact .bind (.expect rfl) fun _ => .pure _
  | member => exact .bind .currentToken fun _ => .bind (.expect rfl) fun _ => .pure _

theorem climb_runs (power : Power) (n : Nat) (left : Expr) :
    c.Runs c.mid (climb operand power n left) c.mid := by
  induction n generalizing left with
  | zero => exact .exhaust
  | succ n ih =>
      intro p h
      rw [climb, ensures_bind, ensures_get]
      split
      · exact h
      · next rule hrule =>
          rw [c.rules h] at hrule
          have hstep := c.step (c.past_of_mid h) (Kind.isMedial_of_infixRule? hrule)
          rw [ensures_ite, ensures_bind, ensures_next]
          exact ⟨fun _ => Runs.bind (applyInfix_runs ho _ _ _) (fun _ => ih _) _ hstep,
            fun _ => h⟩

omit ho in
/-- An expression whose notes do not count, from wherever one is to start. Its first token is
no more than looked at, if it heads none. -/
theorem expr_runs (hfront : Silent .expression c.front) (hmid : Silent .expression c.mid)
    (hfails : ∀ f, Silent .expression (c.fails f))
    (hrules : ∀ {p : Parser}, c.front p → p.rules = .standard)
    (hstart : ∀ {p : Parser}, c.front p → p.current.kind.isMedial → c.mid p)
    (hrefuse : ∀ {p : Parser} (cause : Cause), c.front p →
      c.fails (.rejected ⟨cause, p.current.span.start⟩) p)
    (fuel : Nat) (power : Power) : c.Runs c.front (expr fuel power) c.mid := by
  induction fuel generalizing power with
  | zero => exact .exhaust
  | succ fuel ih =>
      refine .during hfront hmid hfails ?_
      intro p h
      rw [ensures_bind, ensures_get, hrules h]
      split
      · exact hrefuse _ h
      · next rule hrule =>
          have hhead := hstart h (Kind.isMedial_of_prefixRule? hrule)
          exact Runs.bind (applyPrefix_runs ih (expr_along fuel) rule)
            (fun _ => climb_runs ih _ _ _) p hhead

end Operands

/-! ## Statements -/

section Expressions

variable (he : c.Runs c.front (expression .lowest) c.mid)

include he

theorem condition_runs : c.Runs c.mid condition c.mid := .bind .next fun _ => he

theorem declaration_runs : c.Runs c.mid declaration c.mid := by
  refine .bind .currentToken fun _ => .bind (.expect rfl) fun _ => .bind (.expect rfl) fun _ => ?_
  refine .bind .primitiveType fun _ => .bind (.expect rfl) fun _ => .bind .next fun _ => ?_
  refine .bind he fun _ => .bind (.expect rfl) fun _ => ?_
  exact .bind (.spanFrom _) fun _ => .pure _

theorem returnStmt_runs : c.Runs c.mid returnStmt c.mid := by
  refine .bind .currentToken fun _ => .bind (.ahead _) fun _ => .ite ?_ ?_
  · exact .bind (.expect rfl) fun _ => .bind (.spanFrom _) fun _ => .pure _
  · refine .bind .next fun _ => .bind he fun _ => .bind (.expect rfl) fun _ => ?_
    exact .bind (.spanFrom _) fun _ => .pure _

theorem expressionStmt_runs : c.Runs c.front expressionStmt c.mid := by
  refine .bind .currentToken fun _ => .bind he fun _ => ?_
  refine .ahead_next (fun _ => c.past_of_mid) rfl ?_ ?_
  · exact .bind (.spanFrom _) fun _ => .pure _
  · exact .bind (.spanFrom _) fun _ => .pure _

omit he in
theorem parameters_runs (n : Nat) : c.Runs c.mid (parameters n) c.mid := by
  induction n with
  | zero => exact .exhaust
  | succ n ih =>
      refine .bind (.expect rfl) fun _ => .bind (.expect rfl) fun _ => ?_
      refine .bind .primitiveType fun _ => ?_
      refine .ahead_next (fun _ => c.past_of_mid) rfl ?_ ?_
      · exact .bind ih fun _ => .pure _
      · exact .bind (.expect rfl) fun _ => .pure _

omit he in
theorem parameterList_runs : c.Runs c.mid parameterList c.mid :=
  .ahead_next (fun _ => c.past_of_mid) rfl (.pure _) (.withBudget parameters_runs)

omit he in
theorem resultType?_runs : c.Runs c.mid resultType? c.mid := by
  intro p h
  rw [resultType?, ensures_bind, ensures_get]
  split
  · next type htype =>
      rw [Kind.primitiveType?_eq_some_iff] at htype
      rw [ensures_bind, ensures_next, ensures_pure]
      exact c.step (c.past_of_mid h) (by rw [htype]; rfl)
  · exact h

end Expressions

/-- An opening brace from which a block is to be read. -/
def opens (c : Course) (p : Parser) : Prop := c.front p ∧ p.current.kind = .symbol .openCurly

/-- A keyword from which a conditional is to be read. -/
def branches (c : Course) (p : Parser) : Prop :=
  c.front p ∧ c.mid p ∧ (p.current.kind = .keyword .if_ ∨ p.current.kind = .keyword .elif)

/-- The reading of a conditional, when the chain behind it is read by `chain`. -/
def conditionalWith (block : ParseM Block) (chain : ParseM Conditional) : ParseM Conditional := do
  let token ← currentToken
  let condition ← condition
  let body ← body block
  if ← ahead (.keyword .elif) then
    next
    let branch ← chain
    return .mk token condition body (.elif branch) (← spanFrom token)
  else if ← ahead (.keyword .else_) then
    next
    let otherwise ← Parser.body block
    return .mk token condition body (.block otherwise) (← spanFrom token)
  else
    return .mk token condition body .nothing (← spanFrom token)

theorem conditional_succ (block : ParseM Block) (n : Nat) :
    conditional block (n + 1) =
      during .conditional (conditionalWith block (conditional block n)) := rfl

/-- The reading of a statement between its notes. -/
def ruled (block : ParseM Block) : ParseM Stmt := do
  let p ← get
  match p.rules.stmtRule? p.current.kind with
  | some rule => applyStmt block rule
  | none => expressionStmt

theorem stmt_eq (block : ParseM Block) : stmt block = during .statement (ruled block) := rfl

section Blocks

variable {block : ParseM Block} (hb : c.Runs (opens c) block c.past)
  (he : c.Runs c.front (expression .lowest) c.mid)

include hb

theorem body_runs : c.Runs c.mid (body block) c.past := by
  intro p h
  rw [body, ensures_bind, ensures_expect]
  exact ⟨fun hopen => hb _ ⟨c.next (c.past_of_mid h), hopen⟩, fun _ => c.reject_ahead _ h⟩

theorem function_runs : c.Runs c.mid (function block) c.past := by
  refine .bind .currentToken fun _ => .bind (.expect rfl) fun _ => .bind (.expect rfl) fun _ => ?_
  refine .bind parameterList_runs fun _ => .bind resultType?_runs fun _ => ?_
  exact .bind (body_runs hb) fun _ => .bind (.spanFrom _) fun _ => .pure _

theorem loopStmt_runs : c.Runs c.mid (loopStmt block) c.past := by
  refine .bind .currentToken fun _ => .bind (body_runs hb) fun _ => ?_
  exact .bind (.spanFrom _) fun _ => .pure _

include he

theorem whileStmt_runs : c.Runs c.mid (whileStmt block) c.past := by
  refine .bind .currentToken fun _ => .bind (condition_runs he) fun _ => ?_
  exact .bind (body_runs hb) fun _ => .bind (.spanFrom _) fun _ => .pure _

theorem conditionalWith_runs {chain : ParseM Conditional}
    (hchain : c.Runs (branches c) chain c.past) :
    c.Runs c.mid (conditionalWith block chain) c.past := by
  refine .bind .currentToken fun _ => .bind (condition_runs he) fun _ => ?_
  refine .bind (body_runs hb) fun _ => fun p h => ?_
  rw [ensures_bind, ensures_ahead, ensures_ite, decide_eq_true_eq]
  refine ⟨fun helif => ?_, fun _ => ?_⟩
  · have hstep : branches c p.advance := ⟨c.next h, c.step h (by rw [helif]; rfl), .inr helif⟩
    exact Runs.bind hchain (fun _ => .bind (.spanFrom _) fun _ => .pure _) _ hstep
  · refine Runs.ahead_next (fun _ h => h) rfl ?_ ?_ p h
    · exact .bind (body_runs hb) fun _ => .bind (.spanFrom _) fun _ => .pure _
    · exact .bind (.spanFrom _) fun _ => .pure _

/-- A conditional whose notes do not count. -/
theorem conditional_runs (hfront : Silent .conditional c.front) (hmid : Silent .conditional c.mid)
    (hpast : Silent .conditional c.past) (hfails : ∀ f, Silent .conditional (c.fails f))
    (n : Nat) : c.Runs (branches c) (conditional block n) c.past := by
  induction n with
  | zero => exact .exhaust
  | succ n ih =>
      rw [conditional_succ]
      refine .during (fun _ _ h => ⟨hfront _ _ h.1, hmid _ _ h.2.1, h.2.2⟩) hpast hfails ?_
      exact (conditionalWith_runs hb he ih).of_imp fun _ h => h.2.1

/-- A statement starts on a token that it has asked for, as it were. -/
theorem ruled_runs (hc : ∀ n, c.Runs (branches c) (conditional block n) c.past) :
    c.Runs (fun p => c.front p ∧ c.mid p) (ruled block) c.past := by
  intro p hp
  obtain ⟨hfront, hmid⟩ := hp
  rw [ruled, ensures_bind, ensures_get, c.rules hmid]
  split
  · next rule hrule =>
      cases rule with
      | declaration => exact (declaration_runs he).past p hmid
      | return_ => exact (returnStmt_runs he).past p hmid
      | block =>
          exact Runs.bind hb (fun _ => .pure _) p ⟨hfront, Kind.eq_of_stmtRule? hrule rfl⟩
      | function => exact function_runs hb p hmid
      | conditional =>
          refine Runs.bind (.withBudget hc) (fun _ => .pure _) p ⟨hfront, hmid, .inl ?_⟩
          exact Kind.eq_of_stmtRule? hrule rfl
      | while_ => exact whileStmt_runs hb he p hmid
      | loop => exact loopStmt_runs hb p hmid
  · exact (expressionStmt_runs he).past p hfront

end Blocks

end Parser

end Frontend
