import Frontend.Proofs.StmtReading

/-!
# What every step keeps

Whatever a production reads, it changes the state of the parse in a few ways
only: it moves the window, it notes where it is, it records the diagnostic of a
failed statement and it says where recovery has stopped. A relation between
states that each of these steps goes along holds between the state that a
production starts in and the one it ends in, whether it gives a result or is
rejected. `Along` says so of a production; it is closed under doing one thing
after the other, so one lemma for each production follows its text. A production
that runs out of fuel may have been stopped half way through a step; whether that
counts is left open in `AlongIf`.

Most steps go along any relation of interest. Those at the ends of a statement do
not: a failed statement is left with a diagnostic that nobody has recorded yet.
So `Onward` leaves them out, and what is proved of blocks and programs asks for
the reading of one statement with the recovery behind it.
-/

namespace Frontend

variable {α β : Type}

/-- A relation from each state to those that a parse comes to behind it, as long
as it neither enters nor leaves a statement and records nothing. -/
class Onward (R : Parser → Parser → Prop) : Prop where
  refl : ∀ p, R p p
  trans : ∀ {p q r}, R p q → R q r → R p r
  advance : ∀ p : Parser, R p p.advance
  note : ∀ (p : Parser) (production : Production) (stage : Stage) (entry : Mark),
    production ≠ .statement → R p (p.note production stage entry)
  settle : ∀ p : Parser, R p { p with resume := false }

/-- The production ends in a state that the relation leads to. Of one that runs out of fuel
this is said only where `starved` holds. -/
def AlongIf (starved : Prop) (R : Parser → Parser → Prop) (x : ParseM α) : Prop :=
  ∀ p, Ensures x p (fun _ q => R p q) fun f q => (f = .outOfFuel → starved) → R p q

/-- The production ends in a state that the relation leads to, unless it runs out of
fuel. -/
abbrev Along (R : Parser → Parser → Prop) (x : ParseM α) : Prop := AlongIf False R x

variable {starved : Prop} {R : Parser → Parser → Prop}

section Onward

variable [Onward R]

namespace AlongIf

theorem bind {x : ParseM α} {f : α → ParseM β} (hx : AlongIf starved R x)
    (hf : ∀ a, AlongIf starved R (f a)) : AlongIf starved R (x >>= f) := by
  intro p
  rw [ensures_bind]
  refine (hx p).imp (fun a q hq => ?_) fun _ _ h => h
  exact (hf a q).imp (fun _ _ h => Onward.trans hq h) fun _ _ h hne => Onward.trans hq (h hne)

omit [Onward R] in
theorem get {f : Parser → ParseM β} (hf : ∀ p, AlongIf starved R (f p)) :
    AlongIf starved R (MonadState.get >>= f) :=
  fun p => hf p p

omit [Onward R] in
theorem modify {f : Parser → Parser} (hf : ∀ p, R p (f p)) :
    AlongIf starved R (modify f : ParseM Unit) :=
  hf

theorem pure (a : α) : AlongIf starved R (Pure.pure a : ParseM α) := fun p => Onward.refl p

theorem exhaust : AlongIf starved R (Parser.exhaust : ParseM α) := fun p _ => Onward.refl p

theorem reject (cause : Cause) (position : Position) :
    AlongIf starved R (Parser.reject cause position : ParseM α) :=
  fun p _ => Onward.refl p

theorem next : AlongIf starved R Parser.next := fun p => Onward.advance p

theorem currentToken : AlongIf starved R Parser.currentToken := fun p => Onward.refl p

theorem ahead (kind : Kind) : AlongIf starved R (Parser.ahead kind) := fun p => Onward.refl p

theorem spanFrom (token : Token) : AlongIf starved R (Parser.spanFrom token) :=
  fun p => Onward.refl p

omit [Onward R] in
theorem ite {c : Prop} [Decidable c] {x y : ParseM α} (hx : AlongIf starved R x)
    (hy : AlongIf starved R y) : AlongIf starved R (if c then x else y) := by
  split
  · exact hx
  · exact hy

theorem expect (kind : Kind) : AlongIf starved R (Parser.expect kind) :=
  .get fun _ => .ite (.bind .next fun _ => .pure _) (.reject _ _)

theorem primitiveType : AlongIf starved R Parser.primitiveType := by
  refine .get fun p => ?_
  split
  · exact .bind .next fun _ => .pure _
  · exact .reject _ _

omit [Onward R] in
theorem withBudget {x : Nat → ParseM α} (h : ∀ n, AlongIf starved R (x n)) :
    AlongIf starved R (Parser.withBudget x) :=
  .get fun p => h p.budget

theorem during {production : Production} (hne : production ≠ .statement) {x : ParseM α}
    (hx : AlongIf starved R x) : AlongIf starved R (Parser.during production x) := by
  intro p
  rw [Parser.ensures_during]
  have hnote := fun p stage entry => Onward.note (R := R) p production stage entry hne
  have hstart := hnote p .entered p.mark
  refine (hx (p.note production .entered p.mark)).imp (fun _ q hq => ?_) fun _ q hq hne => ?_
  · exact Onward.trans (Onward.trans hstart hq) (hnote q .completed p.mark)
  · exact Onward.trans (Onward.trans hstart (hq hne)) (hnote q .abandoned p.mark)

end AlongIf

namespace Parser

/-! ## Expressions -/

section Operands

variable {operand : Operand} (ho : ∀ power, AlongIf starved R (operand power))

include ho

theorem applyPrefix_along (rule : PrefixRule) : AlongIf starved R (applyPrefix operand rule) := by
  cases rule with
  | identifier => exact .bind .currentToken fun _ => .pure _
  | number =>
      refine .bind .currentToken fun token => ?_
      split
      · exact .pure _
      · exact .reject _ _
  | boolean => exact .bind .currentToken fun _ => .pure _
  | operator =>
      refine .bind .currentToken fun _ => .bind .next fun _ => .bind (ho _) fun _ => ?_
      exact .ite (.reject _ _) (.pure _)
  | grouping =>
      refine .bind .currentToken fun _ => .bind .next fun _ => .bind (ho _) fun _ => ?_
      exact .bind (.expect _) fun _ => .pure _

theorem moreArguments_along (n : Nat) : AlongIf starved R (moreArguments operand n) := by
  induction n with
  | zero => exact .exhaust
  | succ n ih =>
      refine .bind (.ahead _) fun _ => .ite ?_ (.pure _)
      refine .bind .next fun _ => .bind .next fun _ => .bind (ho _) fun _ => ?_
      exact .bind ih fun _ => .pure _

theorem arguments_along : AlongIf starved R (arguments operand) := by
  refine .bind (.ahead _) fun _ => .ite (.bind .next fun _ => .pure _) ?_
  refine .bind .next fun _ => .bind (ho _) fun _ => ?_
  refine .bind (.withBudget (moreArguments_along ho)) fun _ => ?_
  exact .bind (.expect _) fun _ => .pure _

theorem applyInfix_along (left : Expr) (power : Power) (rule : InfixRule) :
    AlongIf starved R (applyInfix operand left power rule) := by
  cases rule with
  | binary =>
      refine .bind .currentToken fun _ => .bind .next fun _ => ?_
      exact .bind (ho _) fun _ => .pure _
  | assignment =>
      refine .bind .currentToken fun _ => .ite ?_ (.reject _ _)
      exact .bind .next fun _ => .bind (ho _) fun _ => .pure _
  | postfixed => exact .bind .currentToken fun _ => .ite (.pure _) (.reject _ _)
  | call =>
      refine .bind .currentToken fun _ => .bind (arguments_along ho) fun _ => ?_
      exact .bind .currentToken fun _ => .pure _
  | index =>
      refine .bind .currentToken fun _ => .bind .next fun _ => .bind (ho _) fun _ => ?_
      exact .bind (.expect _) fun _ => .pure _
  | member => exact .bind .currentToken fun _ => .bind (.expect _) fun _ => .pure _

theorem climb_along (power : Power) (n : Nat) (left : Expr) :
    AlongIf starved R (climb operand power n left) := by
  induction n generalizing left with
  | zero => exact .exhaust
  | succ n ih =>
      refine .get fun p => ?_
      split
      · exact .pure _
      · refine .ite (.bind .next fun _ => ?_) (.pure _)
        exact .bind (applyInfix_along ho _ _ _) fun _ => ih _

end Operands

theorem expr_along (fuel : Nat) : ∀ power, AlongIf starved R (expr fuel power) := by
  induction fuel with
  | zero => exact fun _ => .exhaust
  | succ fuel ih =>
      intro power
      refine .during (by simp) (.get fun p => ?_)
      split
      · exact .reject _ _
      · exact .bind (applyPrefix_along ih _) fun _ => climb_along ih _ _ _

theorem expression_along (power : Power) : AlongIf starved R (expression power) :=
  .withBudget fun fuel => expr_along fuel power

/-! ## Statements -/

theorem condition_along : AlongIf starved R condition :=
  .bind .next fun _ => expression_along _

theorem declaration_along : AlongIf starved R declaration := by
  refine .bind .currentToken fun _ => .bind (.expect _) fun _ => .bind (.expect _) fun _ => ?_
  refine .bind .primitiveType fun _ => .bind (.expect _) fun _ => .bind .next fun _ => ?_
  refine .bind (expression_along _) fun _ => .bind (.expect _) fun _ => ?_
  exact .bind (.spanFrom _) fun _ => .pure _

theorem returnStmt_along : AlongIf starved R returnStmt := by
  refine .bind .currentToken fun _ => .bind (.ahead _) fun _ => .ite ?_ ?_
  · exact .bind (.expect _) fun _ => .bind (.spanFrom _) fun _ => .pure _
  · refine .bind .next fun _ => .bind (expression_along _) fun _ => .bind (.expect _) fun _ => ?_
    exact .bind (.spanFrom _) fun _ => .pure _

theorem expressionStmt_along : AlongIf starved R expressionStmt := by
  refine .bind .currentToken fun _ => .bind (expression_along _) fun _ => ?_
  refine .bind (.ahead _) fun _ => .ite (.bind .next fun _ => ?_) ?_
  · exact .bind (.spanFrom _) fun _ => .pure _
  · exact .bind (.spanFrom _) fun _ => .pure _

theorem parameters_along (n : Nat) : AlongIf starved R (parameters n) := by
  induction n with
  | zero => exact .exhaust
  | succ n ih =>
      refine .bind (.expect _) fun _ => .bind (.expect _) fun _ => .bind .primitiveType fun _ => ?_
      refine .bind (.ahead _) fun _ => .ite ?_ ?_
      · exact .bind .next fun _ => .bind ih fun _ => .pure _
      · exact .bind (.expect _) fun _ => .pure _

theorem parameterList_along : AlongIf starved R parameterList := by
  refine .bind (.ahead _) fun _ => .ite ?_ ?_
  · exact .bind .next fun _ => .pure _
  · exact .withBudget parameters_along

theorem resultType?_along : AlongIf starved R resultType? := by
  refine .get fun p => ?_
  split
  · exact .bind .next fun _ => .pure _
  · exact .pure _

section Blocks

variable {block : ParseM Block} (hb : AlongIf starved R block)

include hb

theorem body_along : AlongIf starved R (body block) := .bind (.expect _) fun _ => hb

theorem function_along : AlongIf starved R (function block) := by
  refine .bind .currentToken fun _ => .bind (.expect _) fun _ => .bind (.expect _) fun _ => ?_
  refine .bind parameterList_along fun _ => .bind resultType?_along fun _ => ?_
  exact .bind (body_along hb) fun _ => .bind (.spanFrom _) fun _ => .pure _

theorem whileStmt_along : AlongIf starved R (whileStmt block) := by
  refine .bind .currentToken fun _ => .bind condition_along fun _ => ?_
  exact .bind (body_along hb) fun _ => .bind (.spanFrom _) fun _ => .pure _

theorem loopStmt_along : AlongIf starved R (loopStmt block) := by
  refine .bind .currentToken fun _ => .bind (body_along hb) fun _ => ?_
  exact .bind (.spanFrom _) fun _ => .pure _

theorem conditional_along (n : Nat) : AlongIf starved R (conditional block n) := by
  induction n with
  | zero => exact .exhaust
  | succ n ih =>
      refine .during (by simp) (.bind .currentToken fun _ => .bind condition_along fun _ => ?_)
      refine .bind (body_along hb) fun _ => .bind (.ahead _) fun _ => .ite ?_ ?_
      · refine .bind .next fun _ => .bind ih fun _ => ?_
        exact .bind (.spanFrom _) fun _ => .pure _
      · refine .bind (.ahead _) fun _ => .ite ?_ (.bind (.spanFrom _) fun _ => .pure _)
        refine .bind .next fun _ => .bind (body_along hb) fun _ => ?_
        exact .bind (.spanFrom _) fun _ => .pure _

theorem applyStmt_along (rule : StmtRule) : AlongIf starved R (applyStmt block rule) := by
  cases rule with
  | declaration => exact declaration_along
  | return_ => exact returnStmt_along
  | block => exact .bind hb fun _ => .pure _
  | function => exact function_along hb
  | conditional => exact .bind (.withBudget (conditional_along hb)) fun _ => .pure _
  | while_ => exact whileStmt_along hb
  | loop => exact loopStmt_along hb

/-- What comes between the notes of a statement. -/
theorem ruled_along :
    AlongIf starved R (get >>= fun p => match p.rules.stmtRule? p.current.kind with
      | some rule => applyStmt block rule
      | none => expressionStmt) := by
  refine .get fun p => ?_
  split
  · exact applyStmt_along hb _
  · exact expressionStmt_along

end Blocks

/-! ## Blocks and programs -/

theorem advancePastStatement_along (p : Parser) : R p p.advancePastStatement := by
  rw [advancePastStatement]
  split
  · exact Onward.settle p
  · exact Onward.advance p

theorem afterRound_along (s? : Option Stmt) (p : Parser) : R p (afterRound s? p) := by
  cases s? with
  | some s => exact advancePastStatement_along p
  | none =>
      rw [afterRound]
      split
      · exact Onward.refl p
      · exact advancePastStatement_along p

theorem skip_along (n : Nat) (p : Parser) : R p (p.skip n) := by
  induction n generalizing p with
  | zero => exact Onward.refl p
  | succ n ih =>
      rw [skip]
      split
      · exact Onward.refl p
      · exact Onward.trans (Onward.advance p) (ih _)

theorem blockBody_along {block : ParseM Block} (hs : AlongIf starved R (stmtOrRecover block))
    (n : Nat) : AlongIf starved R (blockBody block n) := by
  induction n with
  | zero => exact .exhaust
  | succ n ih =>
      refine .get fun p => .ite (.pure _) (.bind hs fun s? => ?_)
      cases s? with
      | some s =>
          exact .bind (.modify advancePastStatement_along) fun _ => .bind ih fun _ => .pure _
      | none => exact .bind (.modify (afterRound_along none)) fun _ => ih

/-- The ways in which a parse reads the blocks of a statement. -/
inductive BlockReader : ParseM Block → Prop
  | block (fuel : Nat) : BlockReader (block fuel)
  | parseBlock : BlockReader parseBlock

section Items

variable (hs : ∀ block, BlockReader block → AlongIf starved R block →
  AlongIf starved R (stmtOrRecover block))

include hs

theorem block_along (fuel : Nat) : AlongIf starved R (block fuel) := by
  induction fuel with
  | zero => exact .exhaust
  | succ fuel ih =>
      refine .during (by simp) (.bind .currentToken fun _ => .bind .next fun _ => ?_)
      refine .bind (.withBudget (blockBody_along (hs _ (.block fuel) ih))) fun _ => ?_
      exact .get fun p => .ite (.pure _) (.reject _ _)

theorem parseBlock_along : AlongIf starved R parseBlock := .withBudget (block_along hs)

omit hs in
theorem statements_along {item : ParseM (Option Stmt)} (hi : AlongIf starved R item) (n : Nat) :
    AlongIf starved R (statements item n) := by
  induction n with
  | zero => exact .exhaust
  | succ n ih =>
      refine .get fun p => .ite (.pure _) (.bind hi fun _ => ?_)
      exact .bind (.modify advancePastStatement_along) fun _ => .bind ih fun _ => .pure _

theorem parseProgram_along : AlongIf starved R parseProgram :=
  .bind (.withBudget (statements_along (hs _ .parseBlock (parseBlock_along hs)))) fun _ => .pure _

end Items

end Parser

end Onward

/-! ## Relations that all steps go along -/

/-- A relation from each state to those that a parse comes to behind it. -/
class Throughout (R : Parser → Parser → Prop) : Prop extends Onward R where
  statement : ∀ (p : Parser) (stage : Stage) (entry : Mark), R p (p.note .statement stage entry)
  record : ∀ (p : Parser) (d : Diagnostic), R p (p.record d)
  stop : ∀ p : Parser, R p { p with resume := true }

/-- A parse does not go back. -/
instance : Throughout fun p q => p.index ≤ q.index where
  refl _ := Nat.le_refl _
  trans := Nat.le_trans
  advance _ := Nat.le_succ _
  note _ _ _ _ _ := Nat.le_refl _
  settle _ := Nat.le_refl _
  statement _ _ _ := Nat.le_refl _
  record _ _ := Nat.le_refl _
  stop _ := Nat.le_refl _

/-- Nothing that was noted is lost. -/
def Parser.Keeps (p q : Parser) : Prop := p.trail <:+ q.trail

instance : Throughout Parser.Keeps where
  refl _ := List.suffix_rfl
  trans := List.IsSuffix.trans
  advance _ := List.suffix_rfl
  note _ _ _ _ _ := List.suffix_cons _ _
  settle _ := List.suffix_rfl
  statement _ _ _ := List.suffix_cons _ _
  record _ _ := List.suffix_rfl
  stop _ := List.suffix_rfl

namespace Parser

variable [Throughout R]

theorem recover_along (p : Parser) (start : Position) : R p (p.recover start) := by
  rw [recover]
  split
  · exact Throughout.stop p
  · exact skip_along _ p

theorem stmt_along {block : ParseM Block} (hb : AlongIf starved R block) :
    AlongIf starved R (stmt block) := by
  intro p
  rw [stmt, ensures_during]
  have hnote := Throughout.statement (R := R)
  refine (ruled_along hb (p.note .statement .entered p.mark)).imp (fun _ q hq => ?_)
    fun _ q hq hne => ?_
  · exact Onward.trans (Onward.trans (hnote _ _ _) hq) (hnote q .completed p.mark)
  · exact Onward.trans (Onward.trans (hnote _ _ _) (hq hne)) (hnote q .abandoned p.mark)

theorem stmtOrRecover_along (block : ParseM Block) (_ : BlockReader block)
    (hb : AlongIf starved R block) : AlongIf starved R (stmtOrRecover block) := by
  intro p
  rw [ensures_stmtOrRecover]
  refine (stmt_along hb p).imp (fun _ _ h => h) fun f q hq => ?_
  cases f with
  | rejected d =>
      exact Onward.trans (Onward.trans (hq (by simp)) (Throughout.record q d)) (recover_along _ _)
  | outOfFuel => exact hq

theorem BlockReader.along {block : ParseM Block} (h : BlockReader block) :
    AlongIf starved R block := by
  cases h with
  | block fuel => exact block_along stmtOrRecover_along fuel
  | parseBlock => exact parseBlock_along stmtOrRecover_along

end Parser

end Frontend
