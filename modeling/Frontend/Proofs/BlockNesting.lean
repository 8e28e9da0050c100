import Frontend.Proofs.Boundary
import Frontend.Proofs.Nesting

/-!
# Blocks follow the braces

Whatever a source has wrong with it, the blocks that are read from it are the
ones that its braces delimit. A statement can fail anywhere, so this rests on
where recovery goes on: it never passes a brace.

Between its blocks a statement passes tokens that are no braces. `Flat` says so
of a production, and it is closed under doing one thing after the other, so the
productions without blocks need little more than their text. An expression may
move the window onto a brace and fail there, but the brace stays in front of it.

What is said of a block that has been read (`Filled`) is where its braces are and how
its statements came about: each of them was read by a `Call` of its own.
-/

namespace Frontend

open Text

variable {α β : Type}

/-- Both of what is known about a production. -/
theorem Ensures.and {x : ParseM α} {p : Parser} {ok ok' : α → Parser → Prop}
    {err err' : Failure → Parser → Prop} (h : Ensures x p ok err) (h' : Ensures x p ok' err') :
    Ensures x p (fun a q => ok a q ∧ ok' a q) fun f q => err f q ∧ err' f q := by
  unfold Ensures at *
  split <;> rename_i heq <;> rw [heq] at h h' <;> exact ⟨h, h'⟩

namespace Parser

/-! ## Expressions -/

/-- The production neither enters nor leaves a block, nor does it complain about a
missing one. -/
def Blockless (x : ParseM α) : Prop :=
  ∀ p, Ensures x p (fun _ q => q.blockEvents = p.blockEvents)
    fun f q => q.blockEvents = p.blockEvents ∧ ∀ d, f = .rejected d → d.missesBrace = false

namespace Blockless

theorem bind {x : ParseM α} {f : α → ParseM β} (hx : Blockless x) (hf : ∀ a, Blockless (f a)) :
    Blockless (x >>= f) := by
  intro p
  rw [ensures_bind]
  refine (hx p).imp (fun a q hq => ?_) fun _ _ h => h
  rw [← hq]
  exact hf a q

theorem get {f : Parser → ParseM β} (hf : ∀ p, Blockless (f p)) :
    Blockless (MonadState.get >>= f) := by
  intro p
  exact hf p p

theorem pure (a : α) : Blockless (Pure.pure a) := fun _ => rfl

theorem exhaust : Blockless (Parser.exhaust : ParseM α) :=
  fun _ => ⟨rfl, fun _ h => by cases h⟩

theorem reject {cause : Cause} {position : Position}
    (h : Diagnostic.missesBrace ⟨cause, position⟩ = false) :
    Blockless (Parser.reject cause position : ParseM α) := by
  refine fun _ => ⟨rfl, fun d hd => ?_⟩
  cases hd
  exact h

theorem next : Blockless Parser.next := fun _ => rfl

theorem currentToken : Blockless Parser.currentToken := fun _ => rfl

theorem ahead (kind : Kind) : Blockless (Parser.ahead kind) := fun _ => rfl

theorem expect {kind : Kind} (h : kind ≠ .symbol .closeCurly) : Blockless (Parser.expect kind) := by
  intro p
  rw [ensures_expect]
  refine ⟨fun _ => rfl, fun _ => ⟨rfl, fun d hd => ?_⟩⟩
  cases hd
  simp [Diagnostic.missesBrace, h]

theorem ite {c : Prop} [Decidable c] {x y : ParseM α} (hx : Blockless x) (hy : Blockless y) :
    Blockless (if c then x else y) := by
  split
  · exact hx
  · exact hy

theorem withBudget {x : Nat → ParseM α} (h : ∀ n, Blockless (x n)) :
    Blockless (Parser.withBudget x) :=
  .get fun p => h p.budget

theorem during {production : Production} (hne : production ≠ .block) {x : ParseM α}
    (hx : Blockless x) : Blockless (Parser.during production x) := by
  intro p
  rw [ensures_during]
  have h := hx (p.note production .entered p.mark)
  simp only [blockEvents_note_of_ne hne] at h ⊢
  exact h

end Blockless

section Operands

variable {operand : Operand} (ho : ∀ power, Blockless (operand power))

include ho

theorem blockless_applyPrefix (rule : PrefixRule) : Blockless (applyPrefix operand rule) := by
  cases rule with
  | identifier => exact .bind .currentToken fun _ => .pure _
  | number =>
      refine .bind .currentToken fun token => ?_
      split
      · exact .pure _
      · exact .reject rfl
  | boolean => exact .bind .currentToken fun _ => .pure _
  | operator =>
      refine .bind .currentToken fun _ => .bind .next fun _ => .bind (ho _) fun _ => ?_
      exact .ite (.reject rfl) (.pure _)
  | grouping =>
      refine .bind .currentToken fun _ => .bind .next fun _ => .bind (ho _) fun _ => ?_
      exact .bind (.expect (by simp)) fun _ => .pure _

theorem blockless_moreArguments (n : Nat) : Blockless (moreArguments operand n) := by
  induction n with
  | zero => exact .exhaust
  | succ n ih =>
      refine .bind (.ahead _) fun _ => .ite ?_ (.pure _)
      refine .bind .next fun _ => .bind .next fun _ => .bind (ho _) fun _ => ?_
      exact .bind ih fun _ => .pure _

theorem blockless_arguments : Blockless (arguments operand) := by
  refine .bind (.ahead _) fun _ => .ite (.bind .next fun _ => .pure _) ?_
  refine .bind .next fun _ => .bind (ho _) fun _ => ?_
  refine .bind (.withBudget (blockless_moreArguments ho)) fun _ => ?_
  exact .bind (.expect (by simp)) fun _ => .pure _

theorem blockless_applyInfix (left : Expr) (power : Power) (rule : InfixRule) :
    Blockless (applyInfix operand left power rule) := by
  cases rule with
  | binary =>
      refine .bind .currentToken fun _ => .bind .next fun _ => ?_
      exact .bind (ho _) fun _ => .pure _
  | assignment =>
      refine .bind .currentToken fun _ => .ite ?_ (.reject rfl)
      exact .bind .next fun _ => .bind (ho _) fun _ => .pure _
  | postfixed => exact .bind .currentToken fun _ => .ite (.pure _) (.reject rfl)
  | call =>
      refine .bind .currentToken fun _ => .bind (blockless_arguments ho) fun _ => ?_
      exact .bind .currentToken fun _ => .pure _
  | index =>
      refine .bind .currentToken fun _ => .bind .next fun _ => .bind (ho _) fun _ => ?_
      exact .bind (.expect (by simp)) fun _ => .pure _
  | member =>
      exact .bind .currentToken fun _ => .bind (.expect (by simp)) fun _ => .pure _

theorem blockless_climb (power : Power) (n : Nat) (left : Expr) :
    Blockless (climb operand power n left) := by
  induction n generalizing left with
  | zero => exact .exhaust
  | succ n ih =>
      refine .get fun p => ?_
      split
      · exact .pure _
      · refine .ite (.bind .next fun _ => ?_) (.pure _)
        exact .bind (blockless_applyInfix ho _ _ _) fun _ => ih _

end Operands

theorem blockless_expr (fuel : Nat) : ∀ power, Blockless (expr fuel power) := by
  induction fuel with
  | zero => exact fun _ => .exhaust
  | succ fuel ih =>
      intro power
      refine .during (by simp) (.get fun p => ?_)
      split
      · exact .reject rfl
      · exact .bind (blockless_applyPrefix ih _) fun _ => blockless_climb ih _ _ _

theorem blockless_expression (power : Power) : Blockless (expression power) :=
  .withBudget fun fuel => blockless_expr fuel power

end Parser

/-! ## What is read within blocks -/

/-- A statement that has been read, with the parse in front of it and behind it. -/
structure Call where
  start : Parser
  statement : Stmt
  stop : Parser

/-- A parse that has come from `o` to `q` has read the statement on its way, in the blocks
that it was in by then. -/
structure Call.Within (o q : Parser) (call : Call) : Prop where
  nested : ∃ base, Nested o base call.start
  read : ∃ block, Parser.BlockReader block ∧
    Parser.stmt block call.start = .ok call.statement call.stop
  /-- The call was made on this way: what had been noted by its end is still there. -/
  keeps : call.stop.Keeps q

/-- The statement has been read by such a call. -/
def Stmt.Called (o q : Parser) (s : Stmt) : Prop :=
  ∃ call : Call, call.statement = s ∧ call.Within o q

/-- The block reaches from brace to brace, and each of its statements has been read. -/
structure Filled (o q : Parser) (b : Block) : Prop where
  fitted : Fitted o b
  called : ∀ s ∈ b.body, s.Called o q

theorem Stmt.Called.later {o p q : Parser} {s : Stmt} (h : s.Called o p) (hpq : p.Keeps q) :
    s.Called o q := by
  obtain ⟨call, hs, hcall⟩ := h
  exact ⟨call, hs, hcall.nested, hcall.read, hcall.keeps.trans hpq⟩

theorem Filled.later {o p q : Parser} {b : Block} (h : Filled o p b) (hpq : p.Keeps q) :
    Filled o q b :=
  ⟨h.fitted, fun s hs => (h.called s hs).later hpq⟩

/-- The statements have been read on the way from `p` to `q`, and so have those of their
blocks. -/
structure FilledAll (o p q : Parser) (ss : List Stmt) : Prop where
  keeps : p.Keeps q
  called : ∀ s ∈ ss, s.Called o q
  filled : ∀ b ∈ Stmt.blocksAll ss, Filled o q b

theorem FilledAll.nil (o p : Parser) : FilledAll o p p [] :=
  ⟨List.suffix_rfl, List.forall_mem_nil _, List.forall_mem_nil _⟩

/-! ## Productions without blocks -/

/-- A rejection keeps to the nesting, once its diagnostic has been recorded. -/
def Rejects (o : Parser) (base : List Nat) (f : Failure) (q : Parser) : Prop :=
  ∀ d, f = .rejected d → Nested o base (q.record d)

/-- The parse is in the middle of a statement, outside of the blocks within it. -/
def Amid (o : Parser) (base : List Nat) (p : Parser) : Prop :=
  Nested o base p ∧ p.current.kind.isFlat

/-- The production passes no brace. -/
def Flat (o : Parser) (x : ParseM α) : Prop :=
  ∀ base p, Amid o base p → Ensures x p (fun _ q => Amid o base q) (Rejects o base)

/-- The current token ends something with these blocks in it. No block has been
given up. -/
structure Closed (o : Parser) (base : List Nat) (blocks : List Block) (q : Parser) : Prop where
  nested : Nested o base q.advance
  filled : ∀ b ∈ blocks, Filled o q b
  whole : q.blockEvents .abandoned = []

/-- Something with blocks in it, and something else behind it. -/
theorem Closed.append {o q r : Parser} {base : List Nat} {bs cs : List Block}
    (h : Closed o base bs q) (hqr : q.Keeps r) (h' : Closed o base cs r) :
    Closed o base (bs ++ cs) r :=
  ⟨h'.nested, List.forall_mem_append.mpr ⟨fun b hb => (h.filled b hb).later hqr, h'.filled⟩,
    h'.whole⟩

/-- Neither the end nor a brace, of whichever kind. -/
theorem Kind.isFlat_of_isInner {kind : Kind} (h : kind.isInner) : kind.isFlat := by
  rw [isInner_iff] at h
  exact isFlat_iff.mpr ⟨isBrace_eq_false_iff.mpr h.2.2, h.1⟩

theorem Kind.isBrace_of_isFlat {kind : Kind} (h : kind.isFlat) : kind.isBrace = false :=
  (isFlat_iff.mp h).1

section Flat

variable {o p q : Parser} (ho : o.Fresh) {base : List Nat}

include ho

theorem Amid.past (h : Amid o base p) : Nested o base p.advance :=
  h.1.pass ho (Kind.isBrace_of_isFlat h.2)

theorem Amid.step (h : Amid o base p) (hk : p.lookahead.kind.isFlat) : Amid o base p.advance :=
  ⟨h.past ho, hk⟩

theorem Amid.closed (h : Amid o base p) : Closed o base [] p :=
  ⟨h.past ho, List.forall_mem_nil _, h.1.whole (Kind.isFlat_iff.mp h.2).2⟩

/-- A parse that differs in notes about other productions. -/
theorem Nested.same (h : Nested o base p) (hw : Walk [] [] p q)
    (hblocks : q.blockEvents = p.blockEvents) : Nested o base q :=
  h.walk ho hw (List.forall_mem_nil _) hblocks

theorem Closed.note {blocks : List Block} (h : Closed o base blocks q) {production : Production}
    (hne : production ≠ .block) (stage : Stage) (entry : Mark) :
    Closed o base blocks (q.note production stage entry) := by
  have hblocks := Parser.blockEvents_note_of_ne hne q stage entry
  refine ⟨h.nested.same ho ?_ hblocks, fun b hb => (h.filled b hb).later (List.suffix_cons _ _),
    by rw [hblocks, h.whole]⟩
  exact ⟨rfl, (List.append_nil _).symm, List.forall_mem_nil _, rfl, rfl, rfl, rfl⟩

theorem Rejects.note {f : Failure} (h : Rejects o base f q) {production : Production}
    (hne : production ≠ .block) (stage : Stage) (entry : Mark) :
    Rejects o base f (q.note production stage entry) := by
  intro d hd
  refine (h d hd).same ho ?_ (Parser.blockEvents_note_of_ne hne q stage entry)
  exact ⟨rfl, (List.append_nil _).symm, List.forall_mem_nil _, rfl, rfl, rfl, rfl⟩

namespace Parser

/-- An expression may start on any token; it ends on one of its own. -/
theorem expression_nests (power : Power) (h : Nested o base p) :
    Ensures (expression power) p (fun _ q => Amid o base q) (Rejects o base) := by
  have hflat : ∀ {ts : List Token}, (∀ t ∈ ts, t.kind.inExpression) →
      ∀ t ∈ ts, t.kind.isBrace = false :=
    fun hts t ht => Kind.isBrace_of_isFlat (Kind.isFlat_of_inExpression (hts t ht))
  refine ((expression_reads (h.plain ho).rules power).and (blockless_expression power p)).imp ?_ ?_
  · intro e q hresult
    obtain ⟨hread, hblocks⟩ := hresult
    obtain ⟨us, hw, hus⟩ := hread.within
    obtain ⟨ts, hfits, hspells, hreads, -⟩ := hread
    refine ⟨h.walk ho hw (hflat hus) hblocks, Kind.isFlat_of_inExpression ?_⟩
    exact hspells.inExpression hfits.2 _ (List.mem_of_getLast? hreads.current_eq_getLast?)
  · intro f q hresult
    obtain ⟨⟨d, rfl, hd, us, hw, hus⟩, hblocks, hm⟩ := hresult
    intro d' hd'
    cases hd'
    exact (h.walk ho hw (hflat hus) hblocks).record hd (hm d rfl)

end Parser

end Flat

namespace Flat

variable {o p : Parser} {base : List Nat}

theorem bind {x : ParseM α} {f : α → ParseM β} (hx : Flat o x) (hf : ∀ a, Flat o (f a)) :
    Flat o (x >>= f) := by
  intro base p h
  rw [ensures_bind]
  exact (hx base p h).imp (fun a q hq => hf a base q hq) fun _ _ h => h

/-- Going on behind a production without blocks. -/
theorem andThen {x : ParseM α} (hx : Flat o x) (h : Amid o base p) {f : α → ParseM β}
    {ok : β → Parser → Prop}
    (hf : ∀ a q, Amid o base q → Ensures (f a) q ok (Rejects o base)) :
    Ensures (x >>= f) p ok (Rejects o base) := by
  rw [ensures_bind]
  exact (hx base p h).imp hf fun _ _ h => h

theorem pure (a : α) : Flat o (Pure.pure a) := fun _ _ h => h

theorem exhaust : Flat o (Parser.exhaust : ParseM α) := fun _ _ _ _ hd => by cases hd

theorem currentToken : Flat o Parser.currentToken := fun _ _ h => h

theorem withBudget {x : Nat → ParseM α} (h : ∀ n, Flat o (x n)) : Flat o (Parser.withBudget x) :=
  fun base p hp => h p.budget base p hp

section Steps

variable (ho : o.Fresh)

include ho

theorem expect {kind : Kind} (hk : kind.isFlat) : Flat o (Parser.expect kind) := by
  intro base p h
  rw [Parser.ensures_expect]
  refine ⟨fun hkind => h.step ho (hkind ▸ hk), fun _ d hd => ?_⟩
  cases hd
  refine h.1.record rfl ?_
  have hne := Kind.isBrace_of_isFlat hk
  rw [Kind.isBrace_eq_false_iff] at hne
  simp [Diagnostic.missesBrace, hne.2]

theorem primitiveType : Flat o Parser.primitiveType := by
  intro base p h
  rw [Parser.ensures_primitiveType]
  refine ⟨fun type htype => h.step ho (by rw [htype]; rfl), fun _ d hd => ?_⟩
  cases hd
  exact h.1.record rfl rfl

/-- Going on over the lookahead, if it is the token that is looked for. -/
theorem ahead_next {kind : Kind} (hk : kind.isFlat) {x y : ParseM α} (hx : Flat o x)
    (hy : Flat o y) :
    Flat o (Parser.ahead kind >>= fun found =>
      if found = true then Parser.next >>= fun _ => x else y) := by
  intro base p h
  rw [ensures_bind, Parser.ensures_ahead, ensures_ite, decide_eq_true_eq]
  refine ⟨fun hkind => ?_, fun _ => hy base p h⟩
  rw [ensures_bind, Parser.ensures_next]
  exact hx base _ (h.step ho (hkind ▸ hk))

theorem condition : Flat o Parser.condition := by
  intro base p h
  rw [Parser.condition, ensures_bind, Parser.ensures_next]
  exact Parser.expression_nests ho .lowest (h.past ho)

/-- Going on behind an expression that is read as part of a statement. -/
theorem operand {f : Expr → ParseM β} {ok : β → Parser → Prop} (h : Amid o base p)
    (hf : ∀ e q, Amid o base q → Ensures (f e) q ok (Rejects o base)) :
    Ensures (Parser.next >>= fun _ => Parser.expression .lowest >>= f) p ok (Rejects o base) := by
  rw [← bind_assoc]
  exact (condition ho).andThen h hf

theorem parameters (n : Nat) : Flat o (Parser.parameters n) := by
  induction n with
  | zero => exact .exhaust
  | succ n ih =>
      refine .bind (.expect ho rfl) fun _ => .bind (.expect ho rfl) fun _ => ?_
      refine .bind (.primitiveType ho) fun _ => .ahead_next ho rfl ?_ ?_
      · exact .bind ih fun _ => .pure _
      · exact .bind (.expect ho rfl) fun _ => .pure _

theorem parameterList : Flat o Parser.parameterList :=
  .ahead_next ho rfl (.pure _) (.withBudget (.parameters ho))

theorem resultType? : Flat o Parser.resultType? := by
  intro base p h
  rw [Parser.resultType?, ensures_bind, ensures_get]
  split
  · next type htype =>
      rw [Kind.primitiveType?_eq_some_iff] at htype
      rw [ensures_bind, Parser.ensures_next, ensures_pure]
      exact h.step ho (by rw [htype]; rfl)
  · exact h

end Steps

end Flat

namespace Parser

/-! ## Statements -/

/-- The reading of a statement from `p` on has failed in `q`. Unless the window
has been moved, it stands on no opening brace. -/
def StmtRejects (o : Parser) (base : List Nat) (p : Parser) (f : Failure) (q : Parser) : Prop :=
  ∀ d, f = .rejected d → Nested o base (q.record d) ∧
    (q.current.kind = .symbol .openCurly → p.current.kind ≠ .symbol .openCurly)

/-- A way to read blocks keeps to the nesting of braces. A block fails at the end
only. -/
def NestsBlocks (o : Parser) (block : ParseM Block) : Prop :=
  ∀ base p, Nested o base p → p.current.kind = .symbol .openCurly →
    Ensures block p (fun b q => Closed o base b.blocks q)
      fun f q => ∀ d, f = .rejected d → Nested o base (q.record d) ∧ q.current.kind = .eof

section Blocks

variable {o : Parser} (ho : o.Fresh) {block : ParseM Block} (hb : NestsBlocks o block)
  {base : List Nat} {p : Parser}

include ho

theorem declaration_nests (h : Amid o base p) :
    Ensures declaration p (fun s q => Closed o base s.blocks q) (Rejects o base) := by
  refine Flat.currentToken.andThen h fun token p h => ?_
  refine (Flat.expect ho rfl).andThen h fun name p h => ?_
  refine (Flat.expect ho rfl).andThen h fun _ p h => ?_
  refine (Flat.primitiveType ho).andThen h fun type p h => ?_
  refine (Flat.expect ho rfl).andThen h fun _ p h => ?_
  refine Flat.operand ho h fun value p h => ?_
  refine (Flat.expect ho rfl).andThen h fun _ p h => ?_
  exact h.closed ho

theorem returnStmt_nests (h : Amid o base p) :
    Ensures returnStmt p (fun s q => Closed o base s.blocks q) (Rejects o base) := by
  refine Flat.currentToken.andThen h fun token p h => ?_
  rw [ensures_bind, ensures_ahead, ensures_ite]
  refine ⟨fun _ => ?_, fun _ => ?_⟩
  · exact (Flat.expect ho rfl).andThen h fun _ p h => h.closed ho
  · refine Flat.operand ho h fun value p h => ?_
    exact (Flat.expect ho rfl).andThen h fun _ p h => h.closed ho

theorem expressionStmt_nests (h : Nested o base p) :
    Ensures expressionStmt p (fun s q => Closed o base s.blocks q) (Rejects o base) := by
  simp only [expressionStmt, ensures_bind, ensures_currentToken, ensures_ahead, ensures_ite,
    ensures_next, ensures_spanFrom, ensures_pure, decide_eq_true_eq]
  refine (expression_nests ho .lowest h).imp ?_ fun _ _ h => h
  intro value q hq
  exact ⟨fun hsemicolon => (hq.step ho (by rw [hsemicolon]; rfl)).closed ho,
    fun _ => hq.closed ho⟩

include hb

theorem body_nests (h : Amid o base p) :
    Ensures (body block) p (fun b q => Closed o base b.blocks q) (Rejects o base) := by
  rw [body, ensures_bind, ensures_expect]
  refine ⟨fun hopen => ?_, fun _ d hd => ?_⟩
  · exact (hb base _ (h.past ho) hopen).imp (fun _ _ h => h) fun f q hf d hd => (hf d hd).1
  · cases hd
    exact h.1.record rfl rfl

theorem function_nests (h : Amid o base p) :
    Ensures (function block) p (fun s q => Closed o base s.blocks q) (Rejects o base) := by
  refine Flat.currentToken.andThen h fun token p h => ?_
  refine (Flat.expect ho rfl).andThen h fun name p h => ?_
  refine (Flat.expect ho rfl).andThen h fun _ p h => ?_
  refine (Flat.parameterList ho).andThen h fun parameters p h => ?_
  refine (Flat.resultType? ho).andThen h fun result? p h => ?_
  rw [ensures_bind]
  exact body_nests ho hb h

theorem whileStmt_nests (h : Amid o base p) :
    Ensures (whileStmt block) p (fun s q => Closed o base s.blocks q) (Rejects o base) := by
  refine Flat.currentToken.andThen h fun token p h => ?_
  refine (Flat.condition ho).andThen h fun condition p h => ?_
  rw [ensures_bind]
  exact body_nests ho hb h

theorem loopStmt_nests (h : Amid o base p) :
    Ensures (loopStmt block) p (fun s q => Closed o base s.blocks q) (Rejects o base) := by
  refine Flat.currentToken.andThen h fun token p h => ?_
  rw [ensures_bind]
  exact body_nests ho hb h

variable (hreader : BlockReader block)

include hreader

theorem conditional_nests (n : Nat) (h : Amid o base p) :
    Ensures (conditional block n) p (fun branch q => Closed o base branch.blocks q)
      (Rejects o base) := by
  induction n generalizing p with
  | zero => exact fun d hd => by cases hd
  | succ n ih =>
      have hnote : Production.conditional ≠ .block := by simp
      rw [conditional, ensures_during]
      suffices hbranch : Ensures _ _
          (fun (branch : Conditional) q => Closed o base branch.blocks q) (Rejects o base) from
        hbranch.imp (fun branch q hq => hq.note ho hnote _ _) fun f q hq => hq.note ho hnote _ _
      refine Flat.currentToken.andThen ⟨h.1.note hnote _ _, h.2⟩ fun token p h => ?_
      refine (Flat.condition ho).andThen h fun condition p h => ?_
      rw [ensures_bind]
      refine (body_nests ho hb h).imp ?_ fun _ _ h => h
      intro body q hbody
      simp only [ensures_bind, ensures_ahead, ensures_ite, ensures_next, ensures_spanFrom,
        ensures_pure, decide_eq_true_eq]
      refine ⟨fun helif => ?_, fun _ => ⟨fun helse => ?_, fun _ => ?_⟩⟩
      · have hamid : Amid o base q.advance := ⟨hbody.1, by rw [advance_current, helif]; rfl⟩
        have hkeeps : Along Keeps (conditional block n) := conditional_along hreader.along n
        refine ((ih hamid).and (hkeeps q.advance)).imp ?_ fun _ _ h => h.1
        rintro branch r ⟨hbranch, hqr⟩
        exact hbody.append hqr hbranch
      · have hamid : Amid o base q.advance := ⟨hbody.1, by rw [advance_current, helse]; rfl⟩
        have hkeeps : Along Keeps (Parser.body block) := body_along hreader.along
        refine ((body_nests ho hb hamid).and (hkeeps q.advance)).imp ?_ fun _ _ h => h.1
        rintro otherwise r ⟨hotherwise, hqr⟩
        exact hbody.append hqr hotherwise
      · exact ⟨hbody.1, List.forall_mem_append.mpr ⟨hbody.2, List.forall_mem_nil _⟩, hbody.whole⟩

theorem applyStmt_nests {rule : StmtRule} (hk : p.current.kind.stmtRule? = some rule)
    (h : Nested o base p) :
    Ensures (applyStmt block rule) p (fun s q => Closed o base s.blocks q)
      (StmtRejects o base p) := by
  by_cases hrule : rule = .block
  · obtain rfl := hrule
    rw [applyStmt, ensures_bind]
    refine (hb base p h (Kind.eq_of_stmtRule? hk rfl)).imp (fun _ _ h => h) ?_
    intro f q hf d hd
    refine ⟨(hf d hd).1, fun hopen => ?_⟩
    rw [(hf d hd).2] at hopen
    cases hopen
  · have hinner := isInner_of_stmtRule? hk hrule
    have hamid : Amid o base p := ⟨h, Kind.isFlat_of_isInner hinner⟩
    have hne := (Kind.isInner_iff.mp hinner).2.2.1
    suffices hstmt : Ensures (applyStmt block rule) p (fun s q => Closed o base s.blocks q)
        (Rejects o base) from
      hstmt.imp (fun _ _ h => h) fun f q hf d hd => ⟨hf d hd, fun _ => hne⟩
    cases rule with
    | declaration => exact declaration_nests ho hamid
    | return_ => exact returnStmt_nests ho hamid
    | block => exact absurd rfl hrule
    | function => exact function_nests ho hb hamid
    | conditional =>
        rw [applyStmt, ensures_bind, ensures_withBudget]
        exact conditional_nests ho hb hreader _ hamid
    | while_ => exact whileStmt_nests ho hb hamid
    | loop => exact loopStmt_nests ho hb hamid

theorem stmt_nests (h : Nested o base p) :
    Ensures (stmt block) p (fun s q => Closed o base s.blocks q) (StmtRejects o base p) := by
  have hnote : Production.statement ≠ .block := by simp
  rw [stmt, ensures_during]
  have hp := h.note hnote .entered p.mark
  suffices hstmt : Ensures _ _ (fun (s : Stmt) q => Closed o base s.blocks q)
      (StmtRejects o base p) by
    refine hstmt.imp (fun s q hq => hq.note ho hnote _ _) fun f q hf d hd => ⟨?_, (hf d hd).2⟩
    exact Rejects.note ho (fun d hd => (hf d hd).1) hnote _ _ d hd
  rw [ensures_bind, ensures_get]
  split
  · next rule hrule =>
      rw [(hp.plain ho).rules] at hrule
      exact applyStmt_nests ho hb hreader hrule hp
  · next hnone =>
      rw [(hp.plain ho).rules] at hnone
      refine (expressionStmt_nests ho hp).imp (fun _ _ h => h) fun f q hf d hd => ⟨hf d hd, ?_⟩
      intro _ hopen
      rw [show (p.note .statement .entered p.mark).current = p.current from rfl, hopen] at hnone
      cases hnone

end Blocks

/-! ## Recovery -/

/-- Recovery has come to its end. In a block it may have stopped on the closing
brace. -/
def Recovered (o : Parser) (base : List Nat) (q : Parser) : Prop :=
  (q.current.kind = .symbol .closeCurly ∧ Nested o base q) ∨
    (q.current.kind ≠ .symbol .closeCurly ∧ Nested o base q.advancePastStatement)

/-- A statement has been read, or has been given up. -/
def Handled (o : Parser) (base : List Nat) : Option Stmt → Parser → Prop
  | some s, q => Closed o base s.blocks q ∧ s.Called o q
  | none, q => Recovered o base q

section Recovery

variable {o : Parser} (ho : o.Fresh) {base : List Nat} {p q : Parser}

include ho

/-- Recovery stops in front of every brace. -/
theorem skip_nests (n : Nat) (h : Nested o base p) (hp : p.current.kind ≠ .symbol .openCurly) :
    Nested o base (p.skip n) ∧ (p.skip n).current.kind ≠ .symbol .openCurly := by
  induction n generalizing p with
  | zero => exact ⟨h, hp⟩
  | succ n ih =>
      rw [skip]
      split
      · exact ⟨h, hp⟩
      · next hgoes =>
          simp only [atBoundary, beforeBoundary, Bool.or_eq_true, decide_eq_true_eq, not_or]
            at hgoes
          obtain ⟨⟨⟨-, hclose⟩, -⟩, -, hheads⟩ := hgoes
          refine ih (h.pass ho (Kind.isBrace_eq_false_iff.mpr ⟨hp, hclose⟩)) fun hopen => ?_
          rw [(h.plain ho).rules] at hheads
          rw [advance_current] at hopen
          rw [hopen] at hheads
          exact hheads rfl

theorem recover_nests (h : Nested o base q) {start : Position}
    (hstart : q.current.kind = .symbol .openCurly → q.current.span.start ≠ start) :
    Recovered o base (q.recover start) := by
  have hplain := h.plain ho
  rw [recover]
  split
  · next hresume =>
      refine .inr ⟨fun hclose => ?_, ?_⟩
      · have hheads := hresume.2
        rw [hplain.rules, show q.current.kind = .symbol .closeCurly from hclose] at hheads
        cases hheads
      · show Nested o base q.settled
        rwa [settled_eq_self hplain.resume]
  · next hresume =>
      have hopen : q.current.kind ≠ .symbol .openCurly := by
        intro hopen
        refine hresume ⟨hstart hopen, ?_⟩
        rw [hplain.rules, hopen]
        rfl
      obtain ⟨hskip, hskipped⟩ := skip_nests ho (q.stream.pending.length + 2) h hopen
      by_cases hclose : (q.skip (q.stream.pending.length + 2)).current.kind = .symbol .closeCurly
      · exact .inl ⟨hclose, hskip⟩
      · refine .inr ⟨hclose, ?_⟩
        rw [(hskip.plain ho).advancePastStatement]
        exact hskip.pass ho (Kind.isBrace_eq_false_iff.mpr ⟨hskipped, hclose⟩)

theorem advancePastStatement_nests {blocks : List Block} (h : Closed o base blocks q) :
    Nested o base q.advancePastStatement := by
  have hplain := h.1.plain ho
  rw [Plain.advancePastStatement (p := q) ⟨hplain.rules, hplain.resume⟩]
  exact h.1

/-- Two tokens of a source that start at the same place are the same token. -/
theorem start_ne (hp : Nested o base p) (hq : Nested o base q) (hend : p.current.kind ≠ .eof)
    (hne : q.current.kind = .symbol .openCurly → p.current.kind ≠ .symbol .openCurly)
    (hopen : q.current.kind = .symbol .openCurly) :
    q.current.span.start ≠ p.current.span.start := by
  intro heq
  refine hne hopen ?_
  have hsame : q.current = p.current := by
    rw [hp.current_eq ho, hq.current_eq ho] at *
    exact ho.start_injective _ _ (by rw [hopen]; simp) hend heq
  rw [← hsame, hopen]

/-- Outside of blocks, recovery may have stopped on a brace that closes nothing. -/
theorem Recovered.past (h : Recovered o [] q) : Nested o [] q.advancePastStatement := by
  rcases h with ⟨hclose, hq⟩ | ⟨-, hq⟩
  · rw [(hq.plain ho).advancePastStatement]
    exact hq.stray hclose
  · exact hq

theorem Handled.afterRound {s? : Option Stmt} (h : Handled o base s? q) :
    Nested o base (afterRound s? q) := by
  cases s? with
  | some s => exact advancePastStatement_nests ho h.1
  | none =>
      rw [Parser.afterRound]
      rcases h with ⟨hclose, hq⟩ | ⟨hclose, hq⟩
      · rwa [if_pos hclose]
      · rwa [if_neg hclose]

theorem Handled.past {s? : Option Stmt} (h : Handled o [] s? q) :
    Nested o [] q.advancePastStatement := by
  cases s? with
  | some s => exact advancePastStatement_nests ho h.1
  | none => exact Recovered.past ho h

omit ho in
theorem Handled.append {q' r : Parser} {s? : Option Stmt} (h : Handled o base s? q)
    (hpq : p.Keeps q) (hq : q.Keeps q') {ss : List Stmt} (hss : FilledAll o q' r ss) :
    FilledAll o p r (s?.toList ++ ss) := by
  have hqr : q.Keeps r := hq.trans hss.keeps
  cases s? with
  | some s =>
      obtain ⟨hclosed, hcalled⟩ := h
      exact ⟨hpq.trans hqr, List.forall_mem_cons.mpr ⟨hcalled.later hqr, hss.called⟩,
        List.forall_mem_append.mpr ⟨fun b hb => (hclosed.filled b hb).later hqr, hss.filled⟩⟩
  | none => exact ⟨hpq.trans hqr, hss.called, hss.filled⟩

variable {block : ParseM Block} (hb : NestsBlocks o block) (hreader : BlockReader block)

include hb hreader

theorem stmtOrRecover_nests (h : Nested o base p) (hend : p.current.kind ≠ .eof) :
    Ensures (stmtOrRecover block) p (fun s? q => Handled o base s? q ∧ p.Keeps q)
      fun f _ => f = .outOfFuel := by
  have hkeeps : Along Keeps (stmtOrRecover block) :=
    stmtOrRecover_along block hreader hreader.along
  suffices hitem : Ensures (stmtOrRecover block) p (Handled o base) fun f _ => f = .outOfFuel from
    (hitem.and (hkeeps p)).imp (fun _ _ h => h) fun _ _ h => h.1
  rw [ensures_stmtOrRecover]
  have hstmt := (ensures_self (stmt block) p).and (stmt_nests ho hb hreader h)
  refine hstmt.imp (fun s q ⟨hrun, hclosed⟩ => ?_) fun f q ⟨_, hf⟩ => ?_
  · exact ⟨hclosed, ⟨p, s, q⟩, rfl, ⟨base, h⟩, ⟨block, hreader, hrun⟩, List.suffix_rfl⟩
  cases f with
  | outOfFuel => rfl
  | rejected d =>
      obtain ⟨hq, hne⟩ := hf d rfl
      exact recover_nests ho hq (start_ne ho h hq hend hne)

theorem blockBody_nests (n : Nat) (h : Nested o base p) :
    Ensures (blockBody block n) p
      (fun ss q => (Nested o base q ∧ FilledAll o p q ss) ∧
        (q.current.kind = .symbol .closeCurly ∨ q.current.kind = .eof))
      fun f _ => f = .outOfFuel := by
  refine blockBody_rounds (P := Nested o base) (R := fun p ss q =>
      (Nested o base q ∧ FilledAll o p q ss) ∧
        (q.current.kind = .symbol .closeCurly ∨ q.current.kind = .eof))
    (fun p h hend => ?_) (fun p h _ hend => ?_) n h
  · exact ⟨⟨h, .nil o p⟩, hend⟩
  · refine (stmtOrRecover_nests ho hb hreader h hend).imp (fun s? q hitem => ?_) fun _ _ hf => hf
    obtain ⟨hitem, hkeeps⟩ := hitem
    refine ⟨hitem.afterRound ho, fun ss r hresult => ⟨⟨hresult.1.1, ?_⟩, hresult.2⟩⟩
    exact hitem.append hkeeps (afterRound_along s? q) hresult.1.2

theorem statements_nests (n : Nat) (h : Nested o [] p) :
    Ensures (statements (stmtOrRecover block) n) p
      (fun ss q => Nested o [] q ∧ FilledAll o p q ss)
      fun f _ => f = .outOfFuel := by
  refine statements_rounds (P := Nested o [])
    (R := fun p ss q => Nested o [] q ∧ FilledAll o p q ss)
    (fun p h _ => ?_) (fun p h hend => ?_) n h
  · exact ⟨h, .nil o p⟩
  · refine (stmtOrRecover_nests ho hb hreader h hend).imp (fun s? q hitem => ?_) fun _ _ hf => hf
    obtain ⟨hitem, hkeeps⟩ := hitem
    refine ⟨hitem.past ho, fun ss r hresult => ⟨hresult.1, ?_⟩⟩
    exact hitem.append hkeeps (advancePastStatement_along q) hresult.2

end Recovery

/-! ## Blocks and programs -/

section Programs

variable {o : Parser} (ho : o.Fresh)

include ho

theorem block_nests (fuel : Nat) : NestsBlocks o (block fuel) := by
  induction fuel with
  | zero => exact fun base p _ _ d hd => by cases hd
  | succ fuel ih =>
      intro base p h hopen
      rw [block, ensures_during]
      simp only [ensures_bind, ensures_currentToken, ensures_next, ensures_withBudget,
        ensures_get, ensures_ite, ensures_pure, ensures_reject]
      refine (blockBody_nests ho ih (.block fuel) _ (h.enter ho hopen)).imp ?_ ?_
      · intro ss q hresult
        obtain ⟨⟨hq, hss⟩, hend⟩ := hresult
        refine ⟨fun hclose => ?_, fun hnot d hd => ?_⟩
        · obtain ⟨hleft, hblock⟩ := Nested.leave ho (show Nested o (p.mark.index :: base) q from hq)
            hclose
          have hkeeps : q.Keeps (q.note .block .completed p.mark) := List.suffix_cons _ _
          refine ⟨hleft, List.forall_mem_cons.mpr ⟨⟨?_, fun s hs => (hss.called s hs).later hkeeps⟩,
            fun b hb => (hss.filled b hb).later hkeeps⟩, ?_⟩
          · rw [show (p.note .block .entered p.mark).current = p.current from rfl, h.current_eq ho]
            exact hblock ss
          · rw [blockEvents_note, if_neg (by simp), List.append_nil]
            exact hq.whole (by rw [hclose]; simp)
        · cases hd
          have heof := hend.resolve_left hnot
          have hq : Nested o (p.mark.index :: base) q := hq
          exact ⟨hq.abandon heof rfl (by simp [Diagnostic.missesBrace]), heof⟩
      · rintro f q rfl d hd
        cases hd

theorem parseBlock_nests : NestsBlocks o parseBlock := by
  intro base p h hopen
  rw [parseBlock, ensures_withBudget]
  exact block_nests ho p.budget base p h hopen

theorem BlockReader.nests {block : ParseM Block} (h : BlockReader block) : NestsBlocks o block := by
  cases h with
  | block fuel => exact block_nests ho fuel
  | parseBlock => exact parseBlock_nests ho

end Programs

/-- The tokens of a source, and nothing but the end behind them. -/
theorem get_upcoming_ofSource (source file : String) (i : Nat) :
    (i < (sourceTokens source file).length ∧
        (ofStream (.ofSource source file)).upcoming.get i ∈ sourceTokens source file) ∨
      ((sourceTokens source file).length ≤ i ∧
        ((ofStream (.ofSource source file)).upcoming.get i).kind = .eof) := by
  rw [upcoming_ofSource]
  by_cases hi : i < (sourceTokens source file).length
  · rw [Stream'.get_append_left _ _ _ hi]
    exact .inl ⟨hi, List.getElem_mem hi⟩
  · obtain ⟨j, rfl⟩ := Nat.exists_eq_add_of_le (Nat.le_of_not_lt hi)
    rw [Stream'.get_append_right]
    exact .inr ⟨Nat.le_add_right _ _, rfl⟩

theorem get_upcoming_of_getElem? {source file : String} {i : Nat} {t : Token}
    (h : (sourceTokens source file)[i]? = some t) :
    (ofStream (.ofSource source file)).upcoming.get i = t := by
  obtain ⟨hi, rfl⟩ := List.getElem?_eq_some_iff.mp h
  rw [upcoming_ofSource, Stream'.get_append_left _ _ _ hi]

theorem fresh_ofSource {source : String} (h : byteSize source.toList < Position.limit)
    (file : String) : (ofStream (.ofSource source file)).Fresh := by
  have hmem : ∀ i, ((ofStream (.ofSource source file)).upcoming.get i).kind ≠ .eof →
      i < (sourceTokens source file).length ∧
        (ofStream (.ofSource source file)).upcoming.get i ∈ sourceTokens source file :=
    fun i hi => (get_upcoming_ofSource source file i).resolve_right fun hend => hi hend.2
  refine ⟨⟨rfl, rfl⟩, rfl, faults_ofStream _, rfl, fun i j hij hi => ?_, fun i j hi hj heq => ?_⟩
  · by_contra hj
    rcases get_upcoming_ofSource source file i with ⟨-, hmem'⟩ | ⟨hle, -⟩
    · exact kind_ne_eof_of_mem_sourceTokens _ hmem' hi
    · have := (hmem j hj).1
      omega
  · exact sourceTokens_start_injective h file _ (hmem i hi).2 _ (hmem j hj).2 heq

end Parser

namespace Call.Within

variable {o q : Parser} {call : Call}

/-- A statement of a block is read like any other. -/
theorem stmtRead (h : call.Within o q) (ho : o.Fresh) :
    StmtRead call.start call.statement call.stop := by
  obtain ⟨⟨base, hnested⟩, ⟨block, hreader, hrun⟩, -⟩ := h
  have hplain := hnested.plain ho
  cases hreader with
  | block fuel => exact (Parser.stmt_reads (Parser.block_reads fuel) hplain).of_ok hrun
  | parseBlock => exact (Parser.stmt_reads (Parser.parseBlock_reads 0) hplain).of_ok hrun

theorem filled (h : call.Within o q) (ho : o.Fresh) :
    ∀ b ∈ call.statement.blocks, Filled o call.stop b := by
  obtain ⟨⟨base, hnested⟩, ⟨block, hreader, hrun⟩, -⟩ := h
  exact ((Parser.stmt_nests ho (hreader.nests ho) hreader hnested).of_ok hrun).filled

end Call.Within

/-! ## Sources -/

/-- End tokens are no braces. -/
theorem nesting_append_replicate (ts : List Token) {last : Token} (hlast : last.kind = .eof)
    (n : Nat) :
    nesting (ts ++ List.replicate n last) = nesting ts ∧
      openings (ts ++ List.replicate n last) = openings ts := by
  refine nesting_append_of_isBrace_eq_false ts fun u hu => ?_
  rw [List.eq_of_mem_replicate hu, hlast]
  rfl

/-- A block of a source is delimited by braces of the source. -/
theorem Fitted.of_source {source file : String} {b : Block}
    (h : Fitted (.ofStream (.ofSource source file)) b) :
    ∃ pair ∈ (nesting (sourceTokens source file)).pairs, ∃ closing,
      (sourceTokens source file)[pair.1]? = some b.token ∧
        (sourceTokens source file)[pair.2]? = some closing ∧
        b.span = ⟨b.token.span.start, closing.span.stop⟩ := by
  obtain ⟨ts, rest, hts, pair, hpair, htoken, hspan⟩ := h
  have hmem : pair ∈ (nesting (sourceTokens source file)).pairs := by
    rw [upcoming_ofSource] at hts
    rcases prefix_or_replicate_of_append_eq hts with ⟨vs, hvs, -⟩ | ⟨n, hn⟩
    · rw [hvs]
      exact (nesting_pairs_append ts vs).subset hpair
    · rwa [hn, (nesting_append_replicate _ rfl n).1] at hpair
  obtain ⟨-, ⟨opening, hopening, -⟩, closing, hclosing, -⟩ := (nesting_spec _).2 pair hmem
  refine ⟨pair, hmem, closing, ?_, hclosing, ?_⟩
  · rw [htoken, Parser.get_upcoming_of_getElem? hopening, hopening]
  · rw [hspan, Parser.get_upcoming_of_getElem? hclosing]

theorem Diagnostic.isLexical_eq_false_of_missesBrace {d : Diagnostic} (h : d.missesBrace) :
    d.cause.isLexical = false := by
  unfold missesBrace at h
  split at h
  · next hcause =>
      rw [hcause]
      rfl
  · cases h

/-- The block structure of a source is the nesting of its braces, whatever else is
wrong with it. The parse enters a block on each opening brace, once and in this
order; it completes the blocks of those braces that are closed, on the brace that
closes them, and gives up the others, each with a diagnostic. The blocks of the
program reach from a brace to its partner. -/
theorem parse_nesting {source : String} (h : byteSize source.toList < Position.limit)
    (file : String) :
    ∃ q, Parser.parseProgram (.ofStream (.ofSource source file)) = .ok (parse source file).1 q ∧
      q.diagnostics = (parse source file).2 ∧
      (q.blockEvents .entered).map (·.entry.index) = openings (sourceTokens source file) ∧
      (q.blockEvents .completed).map (fun e => (e.entry.index, e.here.index)) =
        (nesting (sourceTokens source file)).pairs ∧
      (q.blockEvents .abandoned).map (·.entry.index) =
        (nesting (sourceTokens source file)).unmatched ∧
      (∀ b ∈ (parse source file).1.blocks,
        ∃ pair ∈ (nesting (sourceTokens source file)).pairs, ∃ closing,
          (sourceTokens source file)[pair.1]? = some b.token ∧
            (sourceTokens source file)[pair.2]? = some closing ∧
            b.span = ⟨b.token.span.start, closing.span.stop⟩) ∧
      (parse source file).2.countP (·.missesBrace) =
        (nesting (sourceTokens source file)).unmatched.length := by
  have ho := Parser.fresh_ofSource h file
  obtain ⟨ss, q, hrun, hprogram, -, hend⟩ := Parser.parseProgram_reads ho.plain
  obtain ⟨q', hrun', -, -, hfaults⟩ := parseStream_reads _ (isLexical_ofSource source file)
  have hparse : parse source file = (⟨ss⟩, q.diagnostics) := by
    rw [parse, parseStream, hprogram]
  have hsame : (parseStream (.ofSource source file)).1.statements = ss ∧ q' = q := by
    rw [hrun] at hrun'
    cases hrun'
    exact ⟨rfl, rfl⟩
  rw [hsame.2, show parseStream (.ofSource source file) = parse source file from rfl] at hfaults
  obtain ⟨⟨ts, ds, hw, ht⟩, hall⟩ :=
    (Parser.statements_nests ho (Parser.parseBlock_nests ho) .parseBlock _ (.refl ho)).of_ok hrun
  have htape := hw.upcoming
  rw [upcoming_ofSource] at htape
  obtain ⟨n, hn⟩ := eq_append_replicate_of_append_eq (show q.upcoming.head.kind = .eof from hend)
    kind_ne_eof_of_mem_sourceTokens htape
  obtain ⟨hnesting, hopenings⟩ :=
    nesting_append_replicate (sourceTokens source file)
      (show (Token.atEnd (byteSize source.toList) file).kind = .eof from rfl) n
  rw [← hn] at hnesting hopenings
  have habandoned := ht.abandoned
  rw [List.append_nil, hnesting] at habandoned
  refine ⟨q, by rw [hparse]; exact hprogram, by rw [hparse], by rw [ht.entered, hopenings],
    by rw [ht.completed, hnesting], habandoned, ?_, ?_⟩
  · rw [hparse]
    exact fun b hb => (hall.filled b hb).fitted.of_source
  · have hcount : (parse source file).2.countP (·.missesBrace) =
        q.faults.countP (·.missesBrace) := by
      rw [← hfaults, List.countP_filter]
      refine List.countP_congr fun d _ => ?_
      cases hm : d.missesBrace with
      | false => simp
      | true => simp [Diagnostic.isLexical_eq_false_of_missesBrace hm]
    rw [hcount, hw.faults, ho.faults, List.nil_append, ← ht.missing, ← habandoned, List.length_map]

/-- A block within another one, one that is never closed, and a brace that closes
nothing. -/
def nestedSample : String := "\x7d fn f( \x7b \x7b a + \x7d 1"

theorem parse_nesting_sample :
    ∃ q, Parser.parseProgram (.ofStream (.ofSource nestedSample "a.x")) =
        .ok (parse nestedSample "a.x").1 q ∧
      (q.blockEvents .completed).map (fun e => (e.entry.index, e.here.index)) =
        (nesting (sourceTokens nestedSample "a.x")).pairs ∧
      (parse nestedSample "a.x").2.countP (·.missesBrace) =
        (nesting (sourceTokens nestedSample "a.x")).unmatched.length := by
  have h : byteSize nestedSample.toList < Position.limit := by decide
  obtain ⟨q, hprogram, -, -, hcompleted, -, -, hmissing⟩ := parse_nesting h "a.x"
  exact ⟨q, hprogram, hcompleted, hmissing⟩

end Frontend
