import Frontend.Proofs.Course

/-!
# Every parse gets on

A parse comes to the end of every stream, and the calls on its trail show why. They are
properly nested, and a production that is called again within itself is called on a
later token. A loop over statements starts each of its rounds where the last one has
stopped, which is at least one token further on.

The end of the input hands out one token forever, so that moving the window there is no
progress. But nothing is called from the end but an expression, and that expression
calls nothing. Places in front of the end are those below `n` in what follows.

Nothing is assumed of the spans of the tokens. Recovery compares positions in order to
see whether the window has been moved; when two positions differ, so do the places.
-/

namespace Frontend

variable {α β : Type}

/-- The rounds of a loop over statements that starts at a place `i` in front of the end
and stops at the place `k`: the statements that it calls. Each round starts where the one
before it has stopped, and passes a token at least. -/
inductive Laps (n : Nat) : Nat → List Event → Nat → Prop
  | stop (i : Nat) : Laps n i [] i
  | lap {e : Event} {calls : List Event} {j k : Nat} (hproduction : e.production = .statement)
      (hreal : e.entry.index < n) (hlt : e.entry.index < j) (h : Laps n j calls k) :
      Laps n e.entry.index (e :: calls) k

/-- There are no more rounds than places in front of the end. -/
theorem Laps.length_le {n i k : Nat} {calls : List Event} (h : Laps n i calls k) :
    calls.length ≤ n - i := by
  induction h with
  | stop => exact Nat.zero_le _
  | lap _ hreal hlt _ ih =>
      rw [List.length_cons]
      omega

/-- The events are those of these calls, one after the other, and of all that was called
within them, oldest first. A call is named by the event that ends it.

A production called again within a call of itself is called further on; what calls
anything is not at the end; and the statements that a block calls are the rounds of a
loop from behind its brace to where the block ends. -/
inductive Calls (n : Nat) : List Event → List Event → Prop
  | nil : Calls n [] []
  | call {leave : Event} {inner rest calls calls' : List Event} (hstage : leave.stage ≠ .entered)
      (hinner : Calls n inner calls)
      (hlater : ∀ e ∈ inner, e.production = leave.production → leave.entry.index < e.entry.index)
      (hreal : inner ≠ [] → leave.entry.index < n)
      (hlaps : leave.production = .block →
        Laps n (leave.entry.index + 1) calls leave.here.index)
      (hrest : Calls n rest calls') :
      Calls n (⟨leave.production, .entered, leave.entry, leave.entry⟩ :: (inner ++ leave :: rest))
        (leave :: calls')

theorem Calls.append {n : Nat} {events events' calls calls' : List Event}
    (h : Calls n events calls) (h' : Calls n events' calls') :
    Calls n (events ++ events') (calls ++ calls') := by
  induction h with
  | nil => exact h'
  | call hstage hinner hlater hreal hlaps _ _ ih =>
      rw [List.cons_append, List.append_assoc, List.cons_append]
      exact .call hstage hinner hlater hreal hlaps ih

/-! ## Places of calls -/

/-- Where something can be called within a call made at the place `i`: further on, or by
a statement on its own first token. -/
def Event.Beyond (production : Production) (i : Nat) (e : Event) : Prop :=
  i < e.entry.index ∨ i = e.entry.index ∧ production = .statement ∧ e.production ≠ .statement

/-- Where something is called from a call made at the place `i` on, itself included. -/
def Event.From (production : Production) (i : Nat) (e : Event) : Prop :=
  i < e.entry.index ∨ i = e.entry.index ∧ (e.production = production ∨ production = .statement)

theorem Event.Beyond.toFrom {production : Production} {i : Nat} {e : Event}
    (h : Event.Beyond production i e) : Event.From production i e :=
  h.imp id fun h => ⟨h.1, .inr h.2.1⟩

theorem Event.From.le {production : Production} {i : Nat} {e : Event}
    (h : Event.From production i e) : i ≤ e.entry.index :=
  h.elim Nat.le_of_lt fun h => Nat.le_of_eq h.1

/-- What a call at the place `j` calls, as part of the call made at `i`. -/
theorem Event.From.beyond {production production' : Production} {i j : Nat} {e : Event}
    (h : Event.From production' j e) (hne : production' ≠ .statement)
    (hij : i < j ∨ i = j ∧ production = .statement) : Event.Beyond production i e := by
  rcases hij with hlt | ⟨rfl, hstatement⟩
  · exact .inl (Nat.lt_of_lt_of_le hlt h.le)
  · refine h.imp id fun h => ⟨h.1, hstatement, ?_⟩
    rw [h.2.resolve_right hne]
    exact hne

namespace Parser

/-- The parse has made some calls since its trail was `trail`, all of them at such
places. -/
structure Made (o : Parser) (n : Nat) (P : Event → Prop) (trail : List Event) (q : Parser) : Prop
    extends OnTape o q where
  calls : ∃ events calls, q.trail = events.reverse ++ trail ∧ Calls n events calls ∧
    ∀ e ∈ events, P e

/-- The parse has come from `p` to `q` over one call of the production. -/
structure Called (o : Parser) (n : Nat) (production : Production) (p q : Parser) : Prop
    extends OnTape o q where
  le : p.index ≤ q.index
  call : ∃ events leave, q.trail = events.reverse ++ p.trail ∧ Calls n events [leave] ∧
    leave.production = production ∧ leave.entry = p.mark ∧
    ∀ e ∈ events, Event.From production p.index e

section Calls

variable {o : Parser} {n : Nat}

theorem Made.start {p : Parser} (h : OnTape o p) (P : Event → Prop) : Made o n P p.trail p :=
  ⟨h, [], [], rfl, .nil, List.forall_mem_nil _⟩

theorem Made.advance {P : Event → Prop} {trail : List Event} {q : Parser}
    (h : Made o n P trail q) : Made o n P trail q.advance :=
  ⟨h.toOnTape.advance, h.calls⟩

theorem Made.trans {P : Event → Prop} {trail : List Event} {p q : Parser} {production : Production}
    (h : Made o n P trail p) (h' : Called o n production p q)
    (hP : ∀ e, Event.From production p.index e → P e) : Made o n P trail q := by
  obtain ⟨events, calls, htrail, hcalls, hevents⟩ := h.calls
  obtain ⟨events', leave, htrail', hcalls', -, -, hevents'⟩ := h'.call
  refine ⟨h'.toOnTape, events ++ events', _, ?_, hcalls.append hcalls',
    List.forall_mem_append.mpr ⟨hevents, fun e he => hP e (hevents' e he)⟩⟩
  rw [htrail', htrail, List.reverse_append, List.append_assoc]

/-- Leaving a production. -/
theorem Called.leave {p q : Parser} {production : Production} (hq : OnTape o q)
    (hle : p.index ≤ q.index) {events calls : List Event}
    (htrail : q.trail = events.reverse ++ (p.note production .entered p.mark).trail)
    (hcalls : Calls n events calls) (hbeyond : ∀ e ∈ events, Event.Beyond production p.index e)
    (hreal : events ≠ [] → p.index < n)
    (hlaps : production = .block → Laps n (p.index + 1) calls q.index) {stage : Stage}
    (hstage : stage ≠ .entered) : Called o n production p (q.note production stage p.mark) := by
  set leave : Event := ⟨production, stage, p.mark, q.mark⟩ with hleave
  refine ⟨⟨hq.plain.note, hq.upcoming⟩, hle,
    ⟨production, .entered, p.mark, p.mark⟩ :: (events ++ [leave]), leave, ?_, ?_, rfl, rfl, ?_⟩
  · have hnote : (q.note production stage p.mark).trail = leave :: q.trail := rfl
    rw [hnote, htrail]
    simp [note]
  · have hlater : ∀ e ∈ events, e.production = production → p.index < e.entry.index := by
      intro e he hproduction
      refine (hbeyond e he).resolve_right fun hsame => hsame.2.2 ?_
      rw [hproduction]
      exact hsame.2.1
    have hcall : Calls n (⟨leave.production, .entered, leave.entry, leave.entry⟩ ::
        (events ++ [leave])) [leave] := .call hstage hcalls hlater hreal hlaps .nil
    exact hcall
  · have hself : ∀ {e : Event}, e.production = production → e.entry = p.mark →
        Event.From production p.index e := fun hproduction hentry =>
      .inr ⟨by rw [hentry]; rfl, .inl hproduction⟩
    refine List.forall_mem_cons.mpr ⟨hself rfl rfl, List.forall_mem_append.mpr ⟨?_, ?_⟩⟩
    · exact fun e he => (hbeyond e he).toFrom
    · exact List.forall_mem_singleton.mpr (hself rfl rfl)

/-- Leaving a production that has done nothing. -/
theorem Called.nothing {p : Parser} (h : OnTape o p) {production : Production}
    (hne : production ≠ .block) {stage : Stage} (hstage : stage ≠ .entered) :
    Called o n production p ((p.note production .entered p.mark).note production stage p.mark) := by
  have htrail : (p.note production .entered p.mark).trail =
    ([] : List Event).reverse ++ (p.note production .entered p.mark).trail := rfl
  exact .leave ⟨h.plain.note, h.upcoming⟩ (Nat.le_refl p.index) htrail .nil
    (List.forall_mem_nil _) (absurd rfl) (fun hblock => absurd hblock hne) hstage

/-! ## The course within a call -/

/-- What has been called in the course of a call that was made at the place `i`, when the
trail was `trail`. -/
def callCourse (o : Parser) (n : Nat) (production : Production) (i : Nat) (trail : List Event) :
    Course where
  front p := Made o n (Event.Beyond production i) trail p ∧
    (i < p.index ∨ i = p.index ∧ production = .statement)
  mid p := Made o n (Event.Beyond production i) trail p ∧ i ≤ p.index
  past p := Made o n (Event.Beyond production i) trail p ∧ i ≤ p.index
  fails f p := f ≠ .outOfFuel → Made o n (Event.Beyond production i) trail p ∧ i ≤ p.index
  rules h := h.1.plain.rules
  past_of_mid h := h
  next h := ⟨h.1.advance, .inl (Nat.lt_succ_of_le h.2)⟩
  step h _ := ⟨h.1.advance, Nat.le_succ_of_le h.2⟩
  exhausted _ hne := absurd rfl hne
  reject _ _ hq _ _ := hq
  reject_ahead _ h _ := h

/-- The production is a call of its own from wherever `P` holds. -/
def CallsAt (o : Parser) (n : Nat) (production : Production) (P : Parser → Prop) (x : ParseM α) :
    Prop :=
  ∀ p, OnTape o p → P p → Ensures x p (fun _ q => Called o n production p q)
    fun f q => f ≠ .outOfFuel → Called o n production p q

/-- A call within a call, which has come further on or is that of a statement. -/
theorem CallsAt.runs {production production' : Production} {i : Nat} {trail : List Event}
    {P Q : Parser → Prop} {x : ParseM α} (hx : CallsAt o n production' P x)
    (hne : production' ≠ .statement)
    (hfront : ∀ p, Q p → (callCourse o n production i trail).front p ∧ P p) :
    (callCourse o n production i trail).Runs Q x (callCourse o n production i trail).mid := by
  intro p h
  obtain ⟨⟨hmade, hplace⟩, hp⟩ := hfront p h
  have hcall : ∀ q, Called o n production' p q →
      (callCourse o n production i trail).mid q := fun q hq =>
    ⟨hmade.trans hq fun e he => he.beyond hne hplace, by have := hq.le; omega⟩
  exact (hx p hmade.toOnTape hp).imp (fun _ q hq => hcall q hq)
    fun _ q hq hfuel => hcall q (hq hfuel)

/-- A production that keeps the course of its own call. -/
theorem CallsAt.during (hn : o.Ends n) {production : Production} (hne : production ≠ .block)
    {P : Parser → Prop} {x : ParseM α} (hP : ∀ p, P p → p.current.kind ≠ .eof)
    (hx : ∀ p, P p → Made o n (Event.Beyond production p.index)
        (p.note production .entered p.mark).trail (p.note production .entered p.mark) →
      Ensures x (p.note production .entered p.mark)
        (fun _ q => (callCourse o n production p.index
          (p.note production .entered p.mark).trail).mid q)
        (callCourse o n production p.index (p.note production .entered p.mark).trail).fails) :
    CallsAt o n production P (Parser.during production x) := by
  intro p htape hp
  have hreal := htape.lt_of_ends hn (hP p hp)
  have hleave : ∀ {q : Parser} {stage : Stage}, stage ≠ .entered →
      (callCourse o n production p.index (p.note production .entered p.mark).trail).mid q →
      Called o n production p (q.note production stage p.mark) := by
    rintro q stage hstage ⟨hmade, hle⟩
    obtain ⟨events, calls, htrail, hcalls, hbeyond⟩ := hmade.calls
    exact .leave hmade.toOnTape hle htrail hcalls hbeyond (fun _ => hreal)
      (fun hblock => absurd hblock hne) hstage
  rw [ensures_during]
  refine (hx p hp (.start ⟨htape.plain.note, htape.upcoming⟩ _)).imp (fun _ q hq => ?_)
    fun f q hq hfuel => ?_
  · exact hleave (by simp) hq
  · exact hleave (by simp) (hq hfuel)

/-! ## Calls -/

variable (hn : o.Ends n)

include hn

theorem expr_calls (fuel : Nat) (power : Power) :
    CallsAt o n .expression (fun _ => True) (expr fuel power) := by
  induction fuel generalizing power with
  | zero => exact fun _ _ _ hne => absurd rfl hne
  | succ fuel ih =>
      intro p htape _
      cases hrule : p.current.kind.prefixRule? with
      | none =>
          rw [expr, ensures_during, ensures_bind, ensures_get,
            show (p.note .expression .entered p.mark).rules = .standard from htape.plain.rules,
            show Rules.standard.prefixRule? (p.note .expression .entered p.mark).current.kind = none
              from hrule, ensures_reject]
          exact fun _ => .nothing htape (by simp) (by simp)
      | some rule =>
          refine CallsAt.during (P := fun p => p.current.kind.prefixRule? = some rule) hn (by simp)
            (fun p hp => ?_) (fun p hp hmade => ?_) p htape hrule
          · exact Kind.ne_eof_of_inExpression (Kind.inExpression_of_prefixRule? hp)
          set c := callCourse o n .expression p.index (p.note .expression .entered p.mark).trail
          have hoperand : ∀ power, c.Runs c.front (expr fuel power) c.mid := fun power =>
            (ih power).runs (by simp) fun _ h => ⟨h, trivial⟩
          rw [ensures_bind, ensures_get, hmade.plain.rules,
            show Rules.standard.prefixRule? (p.note .expression .entered p.mark).current.kind =
              some rule from hp]
          exact Course.Runs.bind (applyPrefix_runs hoperand (expr_along fuel) rule)
            (fun _ => climb_runs hoperand _ _ _) _ ⟨hmade, Nat.le_refl _⟩

theorem expression_calls (power : Power) :
    CallsAt o n .expression (fun _ => True) (expression power) := by
  intro p htape hp
  rw [expression, ensures_withBudget]
  exact expr_calls hn p.budget power p htape hp

/-- A way to read blocks is a call from each opening brace. -/
abbrev CallsBlocks (o : Parser) (n : Nat) (block : ParseM Block) : Prop :=
  CallsAt o n .block (fun p => p.current.kind = .symbol .openCurly) block

section Blocks

variable {block : ParseM Block} (hb : CallsBlocks o n block)

include hb

theorem conditional_calls (fuel : Nat) :
    CallsAt o n .conditional
      (fun p => p.current.kind = .keyword .if_ ∨ p.current.kind = .keyword .elif)
      (conditional block fuel) := by
  induction fuel with
  | zero => exact fun _ _ _ hne => absurd rfl hne
  | succ fuel ih =>
      rw [conditional_succ]
      refine .during hn (by simp) (fun p hp => ?_) fun p _ hmade => ?_
      · rcases hp with hp | hp <;> simp [hp]
      · exact conditionalWith_runs (hb.runs (by simp) fun _ h => h)
          ((expression_calls hn _).runs (by simp) fun _ h => ⟨h, trivial⟩)
          (ih.runs (by simp) fun _ h => ⟨h.1, h.2.2⟩) _ ⟨hmade, Nat.le_refl _⟩

theorem stmt_calls : CallsAt o n .statement (fun p => p.current.kind ≠ .eof) (stmt block) := by
  refine .during hn (by simp) (fun p hp => hp) fun p _ hmade => ?_
  refine ruled_runs (hb.runs (by simp) fun _ h => h)
    ((expression_calls hn _).runs (by simp) fun _ h => ⟨h, trivial⟩)
    (fun fuel => (conditional_calls hn hb fuel).runs (by simp) fun _ h => ⟨h.1, h.2.2⟩) _ ?_
  exact ⟨⟨hmade, .inr ⟨rfl, rfl⟩⟩, hmade, Nat.le_refl _⟩

end Blocks

/-! ## Loops -/

/-- The rounds of the loop over the statements of a program, by the states that they start
in. -/
inductive Rounds (item : ParseM (Option Stmt)) : Parser → List Parser → Parser → Prop
  | done {p : Parser} (hp : p.current.kind = .eof) : Rounds item p [] p
  | round {p q r : Parser} {s? : Option Stmt} {starts : List Parser}
      (hp : p.current.kind ≠ .eof) (h : item p = .ok s? q)
      (hs : Rounds item q.advancePastStatement starts r) : Rounds item p (p :: starts) r

omit hn in
theorem skip_trail (k : Nat) (p : Parser) : (p.skip k).trail = p.trail := by
  induction k generalizing p with
  | zero => rfl
  | succ k ih =>
      rw [skip]
      split
      · rfl
      · exact ih p.advance

omit hn in
theorem recover_trail (p : Parser) (start : Position) : (p.recover start).trail = p.trail := by
  rw [recover]
  split
  · rfl
  · exact skip_trail _ p

omit hn in
theorem advancePastStatement_trail (p : Parser) : p.advancePastStatement.trail = p.trail := by
  rw [advancePastStatement]
  split <;> rfl

omit hn in
theorem afterRound_trail (s? : Option Stmt) (q : Parser) : (afterRound s? q).trail = q.trail := by
  cases s? with
  | some s => exact advancePastStatement_trail q
  | none =>
      rw [afterRound]
      split
      · rfl
      · exact advancePastStatement_trail q

/-- One round of a loop over statements has come from `p` to `q`. -/
structure Lapped (o : Parser) (n : Nat) (p q : Parser) : Prop extends OnTape o q where
  lt : p.index < q.index
  call : ∃ events leave, q.trail = events.reverse ++ p.trail ∧ Calls n events [leave] ∧
    leave.production = .statement ∧ leave.entry = p.mark ∧ ∀ e ∈ events, p.index ≤ e.entry.index

/-- A loop over statements has come from `p` to `q`, and has been in these states at the
start of its rounds. -/
structure Looped (o : Parser) (n : Nat) (p : Parser) (starts : List Parser) (q : Parser) : Prop
    extends OnTape o q where
  le : p.index ≤ q.index
  calls : ∃ events calls, q.trail = events.reverse ++ p.trail ∧ Calls n events calls ∧
    Laps n p.index calls q.index ∧ calls.map (·.entry) = starts.map (·.mark) ∧
    ∀ e ∈ events, p.index ≤ e.entry.index

omit hn in
theorem Looped.refl {p : Parser} (h : OnTape o p) : Looped o n p [] p :=
  ⟨h, Nat.le_refl _, [], [], rfl, .nil, .stop _, rfl, List.forall_mem_nil _⟩

omit hn in
theorem Looped.cons {p q r : Parser} {starts : List Parser} (hp : p.index < n)
    (h : Lapped o n p q) (h' : Looped o n q starts r) : Looped o n p (p :: starts) r := by
  obtain ⟨events, leave, htrail, hcalls, hproduction, hentry, hevents⟩ := h.call
  obtain ⟨events', calls, htrail', hcalls', hlaps, hstarts, hevents'⟩ := h'.calls
  have hlt := h.lt
  have hle := h'.le
  have hindex : leave.entry.index = p.index := by
    rw [hentry]
    rfl
  refine ⟨h'.toOnTape, by omega, events ++ events', leave :: calls, ?_, hcalls.append hcalls', ?_,
    ?_, List.forall_mem_append.mpr ⟨hevents, fun e he => ?_⟩⟩
  · rw [htrail', htrail, List.reverse_append, List.append_assoc]
  · rw [← hindex]
    exact .lap hproduction (hindex ▸ hp) (hindex ▸ hlt) hlaps
  · rw [List.map_cons, List.map_cons, hentry, hstarts]
  · have := hevents' e he
    omega

section Rounds

variable {block : ParseM Block} (hb : CallsBlocks o n block) {fuel : Nat}
  (hreads : ReadsBlocks fuel block) {p : Parser}

include hb

theorem stmtOrRecover_calls (h : OnTape o p) (hp : p.current.kind ≠ .eof) :
    Ensures (stmtOrRecover block) p
      (fun _ q => ∃ q', Called o n .statement p q' ∧ q.trail = q'.trail)
      fun f _ => f = .outOfFuel := by
  rw [ensures_stmtOrRecover]
  refine (stmt_calls hn hb p h hp).imp (fun _ q hq => ⟨q, hq, rfl⟩) fun f q hf => ?_
  cases f with
  | outOfFuel => rfl
  | rejected d => exact ⟨q, hf (by simp), recover_trail _ _⟩

omit hn hb in
/-- A round passes a token, whether or not it gives a statement. -/
theorem Lapped.of_turned (h : OnTape o p) {q q' : Parser} {s? : Option Stmt}
    (hturned : Turned p s? q) (hcalled : Called o n .statement p q')
    (htrail : q.trail = q'.trail) : Lapped o n p q := by
  obtain ⟨ts, ds, hts, hw⟩ := hturned.exists_walk
  obtain ⟨events, leave, hevents, hcalls, hproduction, hentry, hplaces⟩ := hcalled.call
  refine ⟨h.walk hw, ?_, events, leave, by rw [htrail, hevents], hcalls, hproduction, hentry,
    fun e he => (hplaces e he).le⟩
  rw [hw.index]
  exact Nat.lt_add_of_pos_right (List.length_pos_iff.mpr hts)

include hreads

theorem blockBody_calls (k : Nat) (h : OnTape o p) :
    Ensures (blockBody block k) p (fun _ q => ∃ starts, Looped o n p starts q)
      fun f _ => f = .outOfFuel := by
  refine blockBody_rounds (P := OnTape o) (R := fun p _ q => ∃ starts, Looped o n p starts q)
    (fun p h _ => ⟨[], .refl h⟩) (fun p h hopened hend => ?_) k h
  refine ((stmtOrRecover_reads hreads h.plain).and
    (stmtOrRecover_calls hn hb h hend)).imp ?_ fun _ _ hf => hf.2
  rintro s? q ⟨hitem, q', hcalled, htrail⟩
  have hlap := Lapped.of_turned h (.of_round h.plain hitem hopened) hcalled
    ((afterRound_trail s? q).trans htrail)
  refine ⟨hlap.toOnTape, fun _ r hrest => ?_⟩
  obtain ⟨starts, hlooped⟩ := hrest
  exact ⟨p :: starts, .cons (h.lt_of_ends hn hend) hlap hlooped⟩

theorem statements_calls (k : Nat) (h : OnTape o p) :
    Ensures (statements (stmtOrRecover block) k) p
      (fun _ q => ∃ starts, Rounds (stmtOrRecover block) p starts q ∧ Looped o n p starts q)
      fun f _ => f = .outOfFuel := by
  refine statements_rounds (P := OnTape o) (R := fun p _ q =>
      ∃ starts, Rounds (stmtOrRecover block) p starts q ∧ Looped o n p starts q)
    (fun p h hend => ⟨[], .done hend, .refl h⟩) (fun p h hend => ?_) k h
  refine (((stmtOrRecover_reads hreads h.plain).and
    (stmtOrRecover_calls hn hb h hend)).and (ensures_self _ p)).imp ?_ fun _ _ hf => hf.1.2
  rintro s? q ⟨⟨hitem, q', hcalled, htrail⟩, hrun⟩
  have hlap := Lapped.of_turned h (.of_item h.plain hitem) hcalled
    ((advancePastStatement_trail q).trans htrail)
  refine ⟨hlap.toOnTape, fun _ r hrest => ?_⟩
  obtain ⟨starts, hrounds, hlooped⟩ := hrest
  exact ⟨p :: starts, .round hend hrun hrounds, .cons (h.lt_of_ends hn hend) hlap hlooped⟩

end Rounds

/-! ## Blocks and programs -/

theorem block_calls (fuel : Nat) : CallsBlocks o n (block fuel) := by
  induction fuel with
  | zero => exact fun _ _ _ hne => absurd rfl hne
  | succ fuel ih =>
      intro p htape hopen
      have hreal := htape.lt_of_ends hn (by rw [hopen]; simp)
      have hstart : OnTape o (p.note .block .entered p.mark).advance :=
        OnTape.advance ⟨htape.plain.note, htape.upcoming⟩
      rw [block, ensures_during]
      simp only [ensures_bind, ensures_currentToken, ensures_next, ensures_withBudget, ensures_get,
        ensures_ite, ensures_pure, ensures_reject]
      refine (blockBody_calls hn ih (block_reads fuel) _ hstart).imp (fun _ q hresult => ?_) ?_
      · obtain ⟨starts, hq⟩ := hresult
        have hleave : ∀ {stage : Stage}, stage ≠ .entered →
            Called o n .block p (q.note .block stage p.mark) := by
          intro stage hstage
          obtain ⟨events, calls, htrail, hcalls, hlaps, -, hplaces⟩ := hq.calls
          have hle : p.index + 1 ≤ q.index := hq.le
          exact .leave hq.toOnTape (by omega) htrail hcalls (fun e he => .inl (hplaces e he))
            (fun _ => hreal) (fun _ => hlaps) hstage
        exact ⟨fun _ => hleave (by simp), fun _ _ => hleave (by simp)⟩
      · rintro f q rfl hne
        exact absurd rfl hne

theorem parseBlock_calls : CallsBlocks o n parseBlock := by
  intro p htape hopen
  rw [parseBlock, ensures_withBudget]
  exact block_calls hn p.budget p htape hopen

end Calls

end Parser

/-- The tokens of a stream come in front of its end. -/
theorem Parser.ends_ofStream (stream : TokenStream) :
    (Parser.ofStream stream).Ends (stream.pending.filter (·.token.kind ≠ .comment)).length := by
  intro i hi
  obtain ⟨j, rfl⟩ := Nat.exists_eq_add_of_le hi
  rw [Parser.upcoming_ofStream, TokenStream.tape,
    ← List.length_map (f := fun s : Supply => s.token), Stream'.get_append_right]
  exact stream.last_kind

/-- Every parse ends. Whatever tokens a stream holds and whatever spans they have, the
parse comes to its end. A production called again within itself is called on a later
token. Each round of a loop over statements, that of the program and those of its blocks,
passes a token at least before the next one starts or the loop stops. So the loop of the
program takes no more rounds than the stream has tokens that are no comments. -/
theorem parseProgram_ends (stream : TokenStream) :
    ∃ program q starts calls, Parser.parseProgram (.ofStream stream) = .ok program q ∧
      q.current.kind = .eof ∧
      Calls (stream.pending.filter (·.token.kind ≠ .comment)).length q.trail.reverse calls ∧
      Parser.Rounds Parser.parseStmtOrRecover (.ofStream stream) starts q ∧
      calls.map (·.entry) = starts.map (·.mark) ∧
      Laps (stream.pending.filter (·.token.kind ≠ .comment)).length 0 calls q.index ∧
      starts.length ≤ (stream.pending.filter (·.token.kind ≠ .comment)).length := by
  set n := (stream.pending.filter (·.token.kind ≠ .comment)).length with hlength
  have hn : (Parser.ofStream stream).Ends n := Parser.ends_ofStream stream
  obtain ⟨ss, q, hrun, hprogram, -, hend⟩ :=
    Parser.parseProgram_reads (p := .ofStream stream) ⟨rfl, rfl⟩
  obtain ⟨starts, hrounds, hlooped⟩ := (Parser.statements_calls hn (Parser.parseBlock_calls hn)
    (Parser.parseBlock_reads 0) _ (.refl ⟨rfl, rfl⟩ rfl)).of_ok hrun
  obtain ⟨events, calls, htrail, hcalls, hlaps, hstarts, -⟩ := hlooped.calls
  have hevents : q.trail.reverse = events := by
    rw [htrail, show (Parser.ofStream stream).trail = [] from rfl, List.append_nil,
      List.reverse_reverse]
  have hle := hlaps.length_le
  rw [← List.length_map (f := fun e : Event => e.entry), hstarts, List.length_map] at hle
  exact ⟨⟨ss⟩, q, starts, calls, hprogram, hend, hevents ▸ hcalls, hrounds, hstarts, hlaps, hle⟩

end Frontend
