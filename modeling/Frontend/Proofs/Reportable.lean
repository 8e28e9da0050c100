import Frontend.Proofs.Partition
import Frontend.Proofs.StmtReading
import Frontend.Proofs.Wording

/-!
# What a parse reports can be shown

A diagnostic is about the start of a token, and what it says takes one line. Neither
depends on how the parse has come to it. A production is rejected on the current token, on
the one ahead or on an operator it has kept, all of them tokens of the stream. What it
repeats of the source is the lexeme of a token or the text of an expression, which is made
of such lexemes, and only a comment can have a line feed in its lexeme.

`Reports` says so of a production that starts among such tokens: whatever it is rejected
with can be shown, and what it gives satisfies `P`. It is closed under doing one thing
after the other. What the places of tokens have in common is left open; for the tokens of
a source `TokenStart` says it.
-/

namespace Frontend

open Text

variable {α β : Type} {place : Position → Prop}

/-! ## Tokens and diagnostics -/

/-- The token is in its place and has its text on one line. -/
structure Token.Showable (place : Position → Prop) (t : Token) : Prop where
  start : place t.span.start
  lexeme : OneLine t.lexeme

/-- The diagnostic is about one of the places, and what it repeats of the source takes one
line. -/
structure Diagnostic.Showable (place : Position → Prop) (d : Diagnostic) : Prop where
  position : place d.position
  verbatim : ∀ text ∈ d.cause.verbatim?, OneLine text

/-- What repeats nothing of the source takes one line. -/
theorem Diagnostic.Showable.of_none {d : Diagnostic} (hposition : place d.position)
    (hnone : d.cause.verbatim? = none) : d.Showable place := by
  refine ⟨hposition, fun text htext => ?_⟩
  rw [hnone] at htext
  cases htext

/-- A comment may have more than one line, since no parse gets to see it. -/
structure Supply.Showable (place : Position → Prop) (s : Supply) : Prop where
  token : s.token.kind ≠ .comment → s.token.Showable place
  diagnostics : ∀ d ∈ s.diagnostics, d.Showable place

theorem TokenStream.pullFrom_showable {last : Token} (hlast : last.Showable place)
    {supplies : List Supply} (h : ∀ s ∈ supplies, s.Showable place) :
    (pullFrom last supplies).1.token.Showable place ∧
      (∀ d ∈ (pullFrom last supplies).1.diagnostics, d.Showable place) ∧
      ∀ s ∈ (pullFrom last supplies).2, s.Showable place := by
  induction supplies with
  | nil => exact ⟨hlast, List.forall_mem_nil _, List.forall_mem_nil _⟩
  | cons s rest ih =>
      obtain ⟨hs, hrest⟩ := List.forall_mem_cons.mp h
      obtain ⟨htoken, hdiagnostics, hlater⟩ := ih hrest
      rw [pullFrom]
      split
      · exact ⟨htoken, List.forall_mem_append.mpr ⟨hs.diagnostics, hdiagnostics⟩, hlater⟩
      · next hkind => exact ⟨hs.token hkind, hs.diagnostics, hrest⟩

namespace Parser

/-- All that the parse has seen or will see can be shown. -/
structure Showable (place : Position → Prop) (p : Parser) : Prop where
  current : p.current.Showable place
  lookahead : p.lookahead.Showable place
  last : p.stream.last.Showable place
  pending : ∀ s ∈ p.stream.pending, s.Showable place
  diagnostics : ∀ d ∈ p.diagnostics, d.Showable place

namespace Showable

variable {p : Parser} (h : p.Showable place)

include h

theorem advance : p.advance.Showable place := by
  obtain ⟨htoken, hdiagnostics, hlater⟩ := TokenStream.pullFrom_showable h.last h.pending
  refine ⟨h.lookahead, htoken, h.last, hlater, ?_⟩
  rw [advance_diagnostics]
  exact List.forall_mem_append.mpr ⟨h.diagnostics, hdiagnostics⟩

theorem note (production : Production) (stage : Stage) (entry : Mark) :
    (p.note production stage entry).Showable place :=
  ⟨h.current, h.lookahead, h.last, h.pending, h.diagnostics⟩

theorem resumed (resume : Bool) : ({ p with resume := resume } : Parser).Showable place :=
  ⟨h.current, h.lookahead, h.last, h.pending, h.diagnostics⟩

theorem record {d : Diagnostic} (hd : d.Showable place) : (p.record d).Showable place := by
  refine ⟨h.current, h.lookahead, h.last, h.pending, ?_⟩
  rw [record_diagnostics]
  exact List.forall_mem_append.mpr ⟨h.diagnostics, List.forall_mem_singleton.mpr hd⟩

theorem advancePastStatement : p.advancePastStatement.Showable place := by
  rw [Parser.advancePastStatement]
  split
  · exact h.resumed false
  · exact h.advance

omit h in
theorem skip (n : Nat) {p : Parser} (h : p.Showable place) : (p.skip n).Showable place := by
  induction n generalizing p with
  | zero => exact h
  | succ n ih =>
      rw [Parser.skip]
      split
      · exact h
      · exact ih h.advance

theorem recover (start : Position) : (p.recover start).Showable place := by
  rw [Parser.recover]
  split
  · exact h.resumed true
  · exact h.skip _

theorem afterRound (s? : Option Stmt) : (afterRound s? p).Showable place := by
  cases s? with
  | some s => exact h.advancePastStatement
  | none =>
      rw [Parser.afterRound]
      split
      · exact h
      · exact h.advancePastStatement

end Showable

theorem ofStream_showable (stream : TokenStream) (hlast : stream.last.Showable place)
    (hpending : ∀ s ∈ stream.pending, s.Showable place) :
    (ofStream stream).Showable place := by
  obtain ⟨hcurrent, hfirst, hrest⟩ := TokenStream.pullFrom_showable hlast hpending
  obtain ⟨hlookahead, hsecond, hlater⟩ := TokenStream.pullFrom_showable hlast hrest
  refine ⟨hcurrent, hlookahead, hlast, hlater, ?_⟩
  have hdiagnostics : (ofStream stream).diagnostics = stream.pull.1.diagnostics ++
      stream.pull.2.pull.1.diagnostics := by
    simp [ofStream, diagnostics, handedOver, Function.comp_def]
  rw [hdiagnostics]
  exact List.forall_mem_append.mpr ⟨hfirst, hsecond⟩

end Parser

/-! ## Productions -/

/-- Started among what can be shown, the production gives a result that satisfies `P`, or it
is rejected with a diagnostic that can be shown. -/
def Reports (place : Position → Prop) (P : α → Prop) (x : ParseM α) : Prop :=
  ∀ p : Parser, p.Showable place →
    Ensures x p (fun a q => q.Showable place ∧ P a) fun f q =>
      ∀ d, f = .rejected d → q.Showable place ∧ d.Showable place

/-- Nothing is asked of a result. -/
def Anything (_ : α) : Prop := True

namespace Reports

variable {P : α → Prop} {Q : β → Prop}

theorem bind {x : ParseM α} {f : α → ParseM β} (hx : Reports place P x)
    (hf : ∀ a, P a → Reports place Q (f a)) : Reports place Q (x >>= f) := by
  intro p hp
  rw [ensures_bind]
  exact (hx p hp).imp (fun a q hq => hf a hq.2 q hq.1) fun _ _ h => h

theorem get {f : Parser → ParseM β} (hf : ∀ p, p.Showable place → Reports place Q (f p)) :
    Reports place Q (MonadState.get >>= f) :=
  fun p hp => hf p hp p hp

theorem pure {a : α} (ha : P a) : Reports place P (Pure.pure a) := fun _ hp => ⟨hp, ha⟩

theorem done (a : α) : Reports place Anything (Pure.pure a) := pure trivial

theorem exhaust : Reports place P (Parser.exhaust : ParseM α) :=
  fun _ _ _ hd => by cases hd

theorem reject {cause : Cause} {position : Position}
    (h : (⟨cause, position⟩ : Diagnostic).Showable place) :
    Reports place P (Parser.reject cause position : ParseM α) := by
  intro p hp d hd
  cases hd
  exact ⟨hp, h⟩

theorem next : Reports place Anything Parser.next := fun _ hp => ⟨hp.advance, trivial⟩

theorem currentToken : Reports place (Token.Showable place) Parser.currentToken :=
  fun _ hp => ⟨hp, hp.current⟩

theorem ahead (kind : Kind) : Reports place Anything (Parser.ahead kind) :=
  fun _ hp => ⟨hp, trivial⟩

theorem spanFrom (token : Token) : Reports place Anything (Parser.spanFrom token) :=
  fun _ hp => ⟨hp, trivial⟩

theorem ite {c : Prop} [Decidable c] {x y : ParseM α} (hx : Reports place P x)
    (hy : Reports place P y) : Reports place P (if c then x else y) := by
  split
  · exact hx
  · exact hy

theorem expect (kind : Kind) : Reports place (Token.Showable place) (Parser.expect kind) := by
  refine .get fun p hp => .ite ?_ ?_
  · exact .bind .next fun _ _ => .pure hp.lookahead
  · exact .reject (.of_none hp.lookahead.start rfl)

theorem primitiveType : Reports place Anything Parser.primitiveType := by
  refine .get fun p hp => ?_
  split
  · exact .bind .next fun _ _ => .done _
  · exact .reject (.of_none hp.lookahead.start rfl)

theorem withBudget {x : Nat → ParseM α} (h : ∀ n, Reports place P (x n)) :
    Reports place P (Parser.withBudget x) :=
  .get fun p _ => h p.budget

theorem during (production : Production) {x : ParseM α} (hx : Reports place P x) :
    Reports place P (Parser.during production x) := by
  intro p hp
  rw [Parser.ensures_during]
  refine (hx _ (hp.note production .entered p.mark)).imp (fun a q hq => ?_) fun f q hq d hd => ?_
  · exact ⟨hq.1.note _ _ _, hq.2⟩
  · exact ⟨(hq d hd).1.note _ _ _, (hq d hd).2⟩

end Reports

namespace Parser

/-! ## Expressions -/

/-- The expression has its text on one line. -/
abbrev OneLineExpr (e : Expr) : Prop := OneLine e.render

section Operands

variable {operand : Operand} (ho : ∀ power, Reports place OneLineExpr (operand power))

include ho

theorem applyPrefix_reports (rule : PrefixRule) :
    Reports place OneLineExpr (applyPrefix operand rule) := by
  cases rule with
  | identifier => exact .bind .currentToken fun t ht => .pure ht.lexeme
  | number =>
      refine .bind .currentToken fun t ht => ?_
      split
      · exact .pure ht.lexeme
      · refine .reject ⟨ht.start, fun text htext => ?_⟩
        cases htext
        exact ht.lexeme
  | boolean => exact .bind .currentToken fun t _ => .pure Expr.oneLine_boolean
  | operator =>
      refine .bind .currentToken fun t ht => .bind .next fun _ _ => .bind (ho _) fun e he => ?_
      refine .ite (.reject ⟨ht.start, fun text htext => ?_⟩) (.pure ?_)
      · cases htext
        exact he
      · exact Expr.oneLine_prefixed.mpr ⟨ht.lexeme, he⟩
  | grouping =>
      refine .bind .currentToken fun _ _ => .bind .next fun _ _ => .bind (ho _) fun e he => ?_
      exact .bind (.expect _) fun _ _ => .pure he

theorem moreArguments_reports (n : Nat) :
    Reports place (fun es : List Expr => ∀ e ∈ es, OneLineExpr e) (moreArguments operand n) := by
  induction n with
  | zero => exact .exhaust
  | succ n ih =>
      refine .bind (.ahead _) fun _ _ => .ite ?_ (.pure (List.forall_mem_nil _))
      refine .bind .next fun _ _ => .bind .next fun _ _ => .bind (ho _) fun e he => ?_
      exact .bind ih fun es hes => .pure (List.forall_mem_cons.mpr ⟨he, hes⟩)

theorem arguments_reports :
    Reports place (fun es : List Expr => ∀ e ∈ es, OneLineExpr e) (arguments operand) := by
  refine .bind (.ahead _) fun _ _ => .ite ?_ ?_
  · exact .bind .next fun _ _ => .pure (List.forall_mem_nil _)
  · refine .bind .next fun _ _ => .bind (ho _) fun e he => ?_
    refine .bind (.withBudget (moreArguments_reports ho)) fun es hes => ?_
    exact .bind (.expect _) fun _ _ => .pure (List.forall_mem_cons.mpr ⟨he, hes⟩)

theorem applyInfix_reports {left : Expr} (hleft : OneLineExpr left) (power : Power)
    (rule : InfixRule) : Reports place OneLineExpr (applyInfix operand left power rule) := by
  have hrefuse : ∀ t : Token, t.Showable place →
      Reports place OneLineExpr (reject (.invalidTarget left.render) t.span.start) := by
    refine fun t ht => .reject ⟨ht.start, fun text htext => ?_⟩
    cases htext
    exact hleft
  cases rule with
  | binary =>
      refine .bind .currentToken fun t ht => .bind .next fun _ _ => ?_
      exact .bind (ho _) fun e he => .pure (Expr.oneLine_binary.mpr ⟨⟨hleft, ht.lexeme⟩, he⟩)
  | assignment =>
      refine .bind .currentToken fun t ht => .ite (.bind .next fun _ _ => ?_) (hrefuse t ht)
      exact .bind (ho _) fun e he => .pure (Expr.oneLine_assignment.mpr ⟨⟨hleft, ht.lexeme⟩, he⟩)
  | postfixed =>
      refine .bind .currentToken fun t ht => .ite (.pure ?_) (hrefuse t ht)
      exact Expr.oneLine_postfixed.mpr ⟨hleft, ht.lexeme⟩
  | call =>
      refine .bind .currentToken fun _ _ => .bind (arguments_reports ho) fun es hes => ?_
      exact .bind .currentToken fun _ _ => .pure (Expr.oneLine_call hleft hes)
  | index =>
      refine .bind .currentToken fun _ _ => .bind .next fun _ _ => .bind (ho _) fun e he => ?_
      exact .bind (.expect _) fun _ _ => .pure (Expr.oneLine_index.mpr ⟨hleft, he⟩)
  | member =>
      refine .bind .currentToken fun _ _ => .bind (.expect _) fun t ht => .pure ?_
      exact Expr.oneLine_member.mpr ⟨hleft, ht.lexeme⟩

theorem climb_reports (power : Power) (n : Nat) {left : Expr} (hleft : OneLineExpr left) :
    Reports place OneLineExpr (climb operand power n left) := by
  induction n generalizing left with
  | zero => exact .exhaust
  | succ n ih =>
      refine .get fun p _ => ?_
      split
      · exact .pure hleft
      · refine .ite (.bind .next fun _ _ => ?_) (.pure hleft)
        exact .bind (applyInfix_reports ho hleft _ _) fun _ he => ih he

end Operands

theorem expr_reports (fuel : Nat) : ∀ power, Reports place OneLineExpr (expr fuel power) := by
  induction fuel with
  | zero => exact fun _ => .exhaust
  | succ fuel ih =>
      refine fun power => .during _ (.get fun p hp => ?_)
      split
      · exact .reject (.of_none hp.current.start rfl)
      · exact .bind (applyPrefix_reports ih _) fun _ he => climb_reports ih _ _ he

theorem expression_reports (power : Power) : Reports place OneLineExpr (expression power) :=
  .withBudget fun fuel => expr_reports fuel power

/-! ## Statements -/

theorem condition_reports : Reports place OneLineExpr condition :=
  .bind .next fun _ _ => expression_reports _

theorem declaration_reports : Reports place Anything declaration := by
  refine .bind .currentToken fun _ _ => .bind (.expect _) fun _ _ => ?_
  refine .bind (.expect _) fun _ _ => .bind .primitiveType fun _ _ => ?_
  refine .bind (.expect _) fun _ _ => .bind .next fun _ _ => ?_
  refine .bind (expression_reports _) fun _ _ => .bind (.expect _) fun _ _ => ?_
  exact .bind (.spanFrom _) fun _ _ => .done _

theorem returnStmt_reports : Reports place Anything returnStmt := by
  refine .bind .currentToken fun _ _ => .bind (.ahead _) fun _ _ => .ite ?_ ?_
  · exact .bind (.expect _) fun _ _ => .bind (.spanFrom _) fun _ _ => .done _
  · refine .bind .next fun _ _ => .bind (expression_reports _) fun _ _ => ?_
    exact .bind (.expect _) fun _ _ => .bind (.spanFrom _) fun _ _ => .done _

theorem expressionStmt_reports : Reports place Anything expressionStmt := by
  refine .bind .currentToken fun _ _ => .bind (expression_reports _) fun _ _ => ?_
  refine .bind (.ahead _) fun _ _ => .ite (.bind .next fun _ _ => ?_) ?_
  · exact .bind (.spanFrom _) fun _ _ => .done _
  · exact .bind (.spanFrom _) fun _ _ => .done _

theorem parameters_reports (n : Nat) : Reports place Anything (parameters n) := by
  induction n with
  | zero => exact .exhaust
  | succ n ih =>
      refine .bind (.expect _) fun _ _ => .bind (.expect _) fun _ _ => ?_
      refine .bind .primitiveType fun _ _ => .bind (.ahead _) fun _ _ => .ite ?_ ?_
      · exact .bind .next fun _ _ => .bind ih fun _ _ => .done _
      · exact .bind (.expect _) fun _ _ => .done _

theorem parameterList_reports : Reports place Anything parameterList := by
  refine .bind (.ahead _) fun _ _ => .ite ?_ ?_
  · exact .bind .next fun _ _ => .done _
  · exact .withBudget parameters_reports

theorem resultType?_reports : Reports place Anything resultType? := by
  refine .get fun p _ => ?_
  split
  · exact .bind .next fun _ _ => .done _
  · exact .done _

section Blocks

variable {block : ParseM Block} (hb : Reports place Anything block)

include hb

theorem body_reports : Reports place Anything (body block) := .bind (.expect _) fun _ _ => hb

theorem function_reports : Reports place Anything (function block) := by
  refine .bind .currentToken fun _ _ => .bind (.expect _) fun _ _ => ?_
  refine .bind (.expect _) fun _ _ => .bind parameterList_reports fun _ _ => ?_
  refine .bind resultType?_reports fun _ _ => .bind (body_reports hb) fun _ _ => ?_
  exact .bind (.spanFrom _) fun _ _ => .done _

theorem whileStmt_reports : Reports place Anything (whileStmt block) := by
  refine .bind .currentToken fun _ _ => .bind condition_reports fun _ _ => ?_
  exact .bind (body_reports hb) fun _ _ => .bind (.spanFrom _) fun _ _ => .done _

theorem loopStmt_reports : Reports place Anything (loopStmt block) := by
  refine .bind .currentToken fun _ _ => .bind (body_reports hb) fun _ _ => ?_
  exact .bind (.spanFrom _) fun _ _ => .done _

theorem conditional_reports (n : Nat) : Reports place Anything (conditional block n) := by
  induction n with
  | zero => exact .exhaust
  | succ n ih =>
      refine .during _ (.bind .currentToken fun _ _ => .bind condition_reports fun _ _ => ?_)
      refine .bind (body_reports hb) fun _ _ => .bind (.ahead _) fun _ _ => .ite ?_ ?_
      · refine .bind .next fun _ _ => .bind ih fun _ _ => ?_
        exact .bind (.spanFrom _) fun _ _ => .done _
      · refine .bind (.ahead _) fun _ _ => .ite ?_ (.bind (.spanFrom _) fun _ _ => .done _)
        refine .bind .next fun _ _ => .bind (body_reports hb) fun _ _ => ?_
        exact .bind (.spanFrom _) fun _ _ => .done _

theorem applyStmt_reports (rule : StmtRule) : Reports place Anything (applyStmt block rule) := by
  cases rule with
  | declaration => exact declaration_reports
  | return_ => exact returnStmt_reports
  | block => exact .bind hb fun _ _ => .done _
  | function => exact function_reports hb
  | conditional => exact .bind (.withBudget (conditional_reports hb)) fun _ _ => .done _
  | while_ => exact whileStmt_reports hb
  | loop => exact loopStmt_reports hb

theorem stmt_reports : Reports place Anything (stmt block) := by
  refine .during _ (.get fun p _ => ?_)
  split
  · exact applyStmt_reports hb _
  · exact expressionStmt_reports

/-! ## Blocks and programs -/

/-- What a statement is rejected with is recorded. -/
theorem stmtOrRecover_reports {p : Parser} (h : p.Showable place) :
    Ensures (stmtOrRecover block) p (fun _ q => q.Showable place) fun f _ => f = .outOfFuel := by
  rw [ensures_stmtOrRecover]
  refine (stmt_reports hb p h).imp (fun _ q hq => hq.1) fun f q hf => ?_
  cases f with
  | outOfFuel => rfl
  | rejected d =>
      obtain ⟨hq, hd⟩ := hf d rfl
      exact (hq.record hd).recover _

theorem blockBody_reports (n : Nat) {p : Parser} (h : p.Showable place) :
    Ensures (blockBody block n) p (fun _ q => q.Showable place) fun f _ => f = .outOfFuel := by
  refine blockBody_rounds (P := Showable place) (R := fun _ _ q => q.Showable place)
    (fun p h _ => h) (fun p h _ _ => ?_) n h
  refine (stmtOrRecover_reports hb h).imp (fun s? q hq => ?_) fun _ _ hf => hf
  exact ⟨hq.afterRound s?, fun _ _ hr => hr⟩

theorem statements_reports (n : Nat) {p : Parser} (h : p.Showable place) :
    Ensures (statements (stmtOrRecover block) n) p (fun _ q => q.Showable place)
      fun f _ => f = .outOfFuel := by
  refine statements_rounds (P := Showable place) (R := fun _ _ q => q.Showable place)
    (fun p h _ => h) (fun p h _ => ?_) n h
  refine (stmtOrRecover_reports hb h).imp (fun s? q hq => ?_) fun _ _ hf => hf
  exact ⟨hq.advancePastStatement, fun _ _ hr => hr⟩

end Blocks

theorem block_reports (fuel : Nat) : Reports place Anything (block fuel) := by
  induction fuel with
  | zero => exact .exhaust
  | succ fuel ih =>
      refine .during _ fun p hp => ?_
      simp only [ensures_bind, ensures_currentToken, ensures_next, ensures_withBudget, ensures_get,
        ensures_ite, ensures_pure, ensures_reject]
      refine (blockBody_reports ih _ hp.advance).imp (fun _ q hq => ?_) ?_
      · -- A block without its closing brace is rejected where its body ends.
        refine ⟨fun _ => ⟨hq, trivial⟩, fun _ d hd => ?_⟩
        cases hd
        exact ⟨hq, .of_none hq.current.start rfl⟩
      · rintro f q rfl d hd
        cases hd

theorem parseBlock_reports : Reports place Anything parseBlock := .withBudget block_reports

end Parser

/-! ## Sources -/

/-- The position is a place of the text that a token can start at: the character there, if
there is one, is no blank. -/
def TokenStart (cs : List Char) (position : Position) : Prop :=
  ∃ left right, cs = left ++ right ∧ position.offset = byteSize left ∧
    ∀ c ∈ right.head?, isBlank c = false

theorem TokenStart.atEnd {cs : List Char} (h : byteSize cs < Position.limit) (file : String) :
    TokenStart cs (.mark (byteSize cs) file) :=
  ⟨cs, [], (List.append_nil cs).symm, Position.mark_offset h file, by simp⟩

theorem Token.atEnd_showable {cs : List Char} (h : byteSize cs < Position.limit) (file : String) :
    (Token.atEnd (byteSize cs) file).Showable (TokenStart cs) :=
  ⟨.atEnd h file, show OneLine endLexeme by decide⟩

/-- Of the tokens only comments can have a line feed in them. -/
theorem Lexeme.newline_notMem {kind : Kind} {text rest : List Char} (h : Lexeme kind text rest)
    (hkind : kind ≠ .comment) : '\n' ∉ text := by
  rcases h.forms with
    ⟨s, -, rfl⟩ | ⟨-, -, c, cs, rfl, hc, hcs⟩ | ⟨-, c, cs, rfl, hc, hcs⟩ | hcomment
  · cases s <;> decide
  · rw [List.mem_cons]
    rintro (rfl | hmem)
    · exact absurd hc (by decide)
    · exact absurd (hcs _ hmem) (by decide)
  · rw [List.mem_cons]
    rintro (rfl | hmem)
    · exact absurd hc (by decide)
    · exact absurd (hcs _ hmem) (by decide)
  · exact absurd hcomment hkind

namespace Scanner

/-- The next token of a scanner has its text on one line, unless it is a comment. -/
theorem oneLine_tokenOf (s : Scanner) {c : Char} {cs : List Char}
    (hkind : (Piece.cut c cs).kind ≠ .comment) : OneLine (s.tokenOf (.cut c cs)).lexeme := by
  rw [tokenOf]
  split
  · exact show OneLine Token.illegalLexeme by decide
  · next hlegal => exact oneLine_ofList.mpr ((Piece.cut_lexeme hlegal).newline_notMem hkind)

theorem run_showable (s : Scanner) (before : List Char) (hbefore : s.offset = byteSize before)
    (hs : byteSize (before ++ s.rest) < Position.limit) (hnone : s.diagnostics = []) :
    ∀ u ∈ s.run, u.Showable (TokenStart (before ++ s.rest)) := by
  induction s using run_induct generalizing before with
  | last s hrest =>
      rw [run_of_rest_eq_nil hrest, hnone, hbefore, ← byteSize_append, List.forall_mem_singleton]
      exact ⟨fun _ => Token.atEnd_showable hs s.file, List.forall_mem_nil _⟩
  | next s c cs hrest ih =>
      obtain ⟨gap, -, hsplit, hskip, hbehind⟩ := exists_gap hrest hbefore
      have hcs : before ++ s.rest = before ++ gap ++ (Piece.cut c cs).text ++ s.behind.rest := by
        rw [hsplit, List.append_assoc, List.append_assoc, List.append_assoc]
      have hstart : ∀ file, TokenStart (before ++ s.rest) (.mark s.skipBlanks.offset file) := by
        refine fun file => ⟨before ++ gap, (Piece.cut c cs).text ++ s.behind.rest, ?_, ?_, ?_⟩
        · rw [hcs, List.append_assoc]
        · rw [← hskip]
          rw [hcs, List.append_assoc, byteSize_append, ← hskip] at hs
          exact Position.mark_offset (by omega) file
        · rw [behind_eq hrest, Piece.cut_text_append_rest]
          rintro d ⟨⟩
          exact isBlank_of_rest_eq_cons hrest
      rw [hcs] at hs
      have hlater := ih _ hbehind hs (by rw [behind_eq hrest])
      rw [← hcs] at hlater
      rw [run_of_rest_eq_cons hrest, List.forall_mem_cons]
      refine ⟨⟨fun hkind => ⟨hstart _, oneLine_tokenOf _ hkind⟩, ?_⟩, hlater⟩
      rw [skipPiece, show s.skipBlanks.diagnostics = [] from hnone, List.nil_append,
        List.forall_mem_map]
      intro cause hcause
      have hlexical := Piece.isLexical_of_cut_cause? (Option.mem_toList.mp hcause)
      exact .of_none (hstart _) (Cause.verbatim?_of_isLexical hlexical)

end Scanner

/-- Every diagnostic of a source is about a place that a token can start at, and what it
says takes one line. -/
theorem parse_showable {source : String} (hsize : byteSize source.toList < Position.limit)
    (file : String) :
    ∀ d ∈ (parse source file).2, d.Showable (TokenStart source.toList) := by
  have hpending : ∀ u ∈ (TokenStream.ofSource source file).pending,
      u.Showable (TokenStart source.toList) :=
    (Scanner.ofSource source file).run_showable [] rfl hsize rfl
  have hlast := Token.atEnd_showable hsize file
  have hstart := Parser.ofStream_showable (.ofSource source file) hlast hpending
  obtain ⟨ss, q, hrun, hprogram, -⟩ :=
    Parser.parseProgram_reads (p := .ofStream (.ofSource source file)) ⟨rfl, rfl⟩
  rw [parse, parseStream, hprogram]
  exact ((Parser.statements_reports Parser.parseBlock_reports _ hstart).of_ok hrun).diagnostics

end Frontend
