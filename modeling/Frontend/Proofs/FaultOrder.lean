import Frontend.Proofs.Course

/-!
# Diagnostics come in order

The diagnostics of failed productions are recorded in the order of the source,
although a statement is complained about only after everything that went wrong
within its blocks, and although recovery may stop in front of the token that was
found wrong.

The order is that of places, the numbers of tokens from the start on. Within a
statement nothing recorded so far lies behind the current token. A statement that
fails on the current token or further back leaves it at that. One that fails on the
token ahead would not, if the next statement were to start on the current token. But
then the current token starts a statement, so that it can only be the first token of
the one that has failed (`Parser.Late`), and recovery does not stop there.
-/

namespace Frontend

open Text

/-- The diagnostics are about tokens of the parse that starts in `o`, each about one
that is no further to the front than those before; the last place is `n` at most. -/
def Ranked (o : Parser) (n : Nat) (ds : List Diagnostic) : Prop :=
  ∃ places : List Nat,
    ds.map (·.position) = places.map (fun i => (o.upcoming.get i).span.start) ∧
      places.Pairwise (· ≤ ·) ∧ ∀ i ∈ places, i ≤ n

namespace Ranked

variable {o : Parser} {n m : Nat} {ds : List Diagnostic}

theorem nil (o : Parser) (n : Nat) : Ranked o n [] :=
  ⟨[], rfl, .nil, List.forall_mem_nil _⟩

theorem mono (h : Ranked o n ds) (hle : n ≤ m) : Ranked o m ds := by
  obtain ⟨places, hplaces, hsorted, hbound⟩ := h
  exact ⟨places, hplaces, hsorted, fun i hi => Nat.le_trans (hbound i hi) hle⟩

theorem concat (h : Ranked o n ds) {d : Diagnostic}
    (hd : d.position = (o.upcoming.get n).span.start) : Ranked o n (ds ++ [d]) := by
  obtain ⟨places, hplaces, hsorted, hbound⟩ := h
  refine ⟨places ++ [n], ?_, ?_, ?_⟩
  · rw [List.map_append, List.map_append, hplaces, List.map_singleton, List.map_singleton, hd]
  · refine List.pairwise_append.mpr ⟨hsorted, List.pairwise_singleton _ _, fun i hi j hj => ?_⟩
    rw [List.mem_singleton.mp hj]
    exact hbound i hi
  · exact List.forall_mem_append.mpr ⟨hbound, List.forall_mem_singleton.mpr (Nat.le_refl n)⟩

end Ranked

namespace Parser

/-- The parse that has started in `o` has come to the place `i` or further, and no
diagnostic is about a token behind the current one. -/
structure Orderly (o : Parser) (i : Nat) (p : Parser) : Prop extends OnTape o p where
  le : i ≤ p.index
  ranked : Ranked o p.index p.faults

/-- The statement entered at `i` has failed. The token found wrong is the current one, or
one further back, or the one ahead. In the last case the current token is one that
starts a statement only if it is the first one of this statement. -/
def Late (o : Parser) (i : Nat) (f : Failure) (q : Parser) : Prop :=
  ∀ d, f = .rejected d → Orderly o i q ∧
    ∃ k, d.position = (o.upcoming.get k).span.start ∧ Ranked o k q.faults ∧
      (k ≤ q.index ∨ k = q.index + 1 ∧ (q.current.kind.isMedial ∨ q.index = i))

namespace Orderly

variable {o p q : Parser} {i j : Nat}

theorem refl (ho : o.Fresh) : Orderly o 0 o where
  toOnTape := .refl ho.plain ho.index
  le := Nat.zero_le _
  ranked := ho.faults ▸ .nil _ _

theorem of_le (h : Orderly o i p) (hle : j ≤ i) : Orderly o j p :=
  ⟨h.toOnTape, Nat.le_trans hle h.le, h.ranked⟩

/-- Whatever is next starts here. -/
theorem start (h : Orderly o i p) : Orderly o p.index p :=
  ⟨h.toOnTape, Nat.le_refl _, h.ranked⟩

theorem advance (h : Orderly o i p) : Orderly o i p.advance where
  toOnTape := h.toOnTape.advance
  le := Nat.le_succ_of_le h.le
  ranked := by
    rw [faults_advance]
    exact h.ranked.mono (Nat.le_succ _)

theorem note {production : Production} : Silent production (Orderly o i) :=
  fun _ _ h => ⟨⟨h.plain.note, h.upcoming⟩, h.le, h.ranked⟩

end Orderly

theorem Late.note {o : Parser} {i : Nat} (f : Failure) {production : Production} :
    Silent production (Late o i f) := by
  intro p stage entry h d hd
  obtain ⟨horderly, k, hk⟩ := h d hd
  exact ⟨horderly.note _ _, k, hk⟩

/-- A rejection on the current token. -/
theorem Orderly.late {o q : Parser} {i : Nat} (h : Orderly o i q) (cause : Cause) :
    Late o i (.rejected ⟨cause, q.current.span.start⟩) q := by
  intro d hd
  cases hd
  exact ⟨h, q.index, by rw [h.current_eq], h.ranked, .inl (Nat.le_refl _)⟩

/-- The order of diagnostics in the course of the statement entered at `i`. -/
def orderCourse (o : Parser) (i : Nat) : Course where
  front := Orderly o i
  mid p := Orderly o i p ∧ (p.current.kind.isMedial ∨ p.index = i)
  past := Orderly o i
  fails := Late o i
  rules h := h.1.plain.rules
  past_of_mid h := h.1
  next h := h.advance
  step h hk := ⟨h.advance, .inl hk⟩
  exhausted _ _ hd := by cases hd
  reject {p q} cause hp hq hstill := by
    intro d hd
    cases hd
    refine ⟨hq.1, p.index, by rw [hp.1.current_eq], ?_, .inl hstill.1⟩
    rw [hstill.2]
    exact hp.1.ranked
  reject_ahead {p} cause hp := by
    intro d hd
    cases hd
    refine ⟨hp.1, p.index + 1, by rw [hp.1.lookahead_eq], ?_, .inr ⟨rfl, hp.2⟩⟩
    exact hp.1.ranked.mono (Nat.le_succ _)

section Orders

variable {o : Parser}

theorem silent_mid {i : Nat} {production : Production} :
    Silent production (orderCourse o i).mid :=
  fun _ _ h => ⟨h.1.note _ _, h.2⟩

theorem expression_orders (i : Nat) (power : Power) :
    (orderCourse o i).Runs (Orderly o i) (expression power) (orderCourse o i).mid :=
  .withBudget fun fuel => expr_runs Orderly.note silent_mid (fun f => Late.note f)
    (fun h => h.plain.rules) (fun h hk => ⟨h, .inl hk⟩) (fun cause h => h.late cause) fuel power

/-- A way to read blocks keeps the order of diagnostics, whatever statement the block is
part of. -/
def OrdersBlocks (o : Parser) (block : ParseM Block) : Prop :=
  ∀ i, (orderCourse o i).Runs (opens (orderCourse o i)) block (Orderly o i)

section Blocks

variable {block : ParseM Block} (hb : OrdersBlocks o block)

include hb

theorem stmt_orders {p : Parser} (h : Orderly o p.index p) :
    Ensures (stmt block) p (fun _ q => Orderly o p.index q) (Late o p.index) := by
  have hconditional : ∀ n, (orderCourse o p.index).Runs (branches (orderCourse o p.index))
      (conditional block n) (Orderly o p.index) :=
    conditional_runs (hb p.index) (expression_orders _ _) Orderly.note silent_mid Orderly.note
      fun f => Late.note f
  have hruled := ruled_runs (hb p.index) (expression_orders _ _) hconditional
  have hnoted : Orderly o p.index (p.note .statement .entered p.mark) := h.note _ _
  rw [stmt_eq, ensures_during]
  refine (hruled _ ⟨hnoted, hnoted, .inr rfl⟩).imp (fun _ q hq => ?_) fun f q hf => ?_
  · exact Orderly.note _ _ hq
  · exact Late.note f _ _ hf

end Blocks

/-! ## Recovery -/

/-- The next statement can be read from behind `q`. If `q` is on a closing brace that the
failed statement, entered in `p`, did not start on, it can end the block. -/
def Ready (o p q : Parser) : Prop :=
  Orderly o p.index q.advancePastStatement ∧
    (q.current.kind = .symbol .closeCurly → p.current.kind ≠ .symbol .closeCurly →
      Orderly o p.index q)

theorem Ready.afterRound {o p q : Parser} (h : Ready o p q)
    (hopened : p.current.kind ≠ .symbol .closeCurly) (s? : Option Stmt) :
    Orderly o p.index (afterRound s? q) := by
  cases s? with
  | some s => exact h.1
  | none =>
      rw [Parser.afterRound]
      split
      · next hclose => exact h.2 hclose hopened
      · exact h.1

/-- The failure of the statement entered in `p` has been recorded in `q`, with the token
at the place `k` as the one found wrong. -/
structure Stuck (o p : Parser) (k : Nat) (q : Parser) : Prop extends OnTape o q where
  le : p.index ≤ q.index
  ranked : Ranked o k q.faults
  place : k ≤ q.index ∨ k = q.index + 1 ∧ (q.current.kind.isMedial ∨ q.index = p.index)

theorem Late.stuck {p q : Parser} {d : Diagnostic} (h : Late o p.index (.rejected d) q) :
    ∃ k, Stuck o p k (q.record d) := by
  obtain ⟨horderly, k, hposition, hranked, hplace⟩ := h d rfl
  refine ⟨k, ⟨⟨horderly.plain.rules, horderly.plain.resume⟩, horderly.upcoming⟩, horderly.le, ?_,
    hplace⟩
  rw [faults_record]
  exact hranked.concat hposition

namespace Stuck

variable {p q : Parser} (hp : Orderly o p.index p) {k : Nat} (h : Stuck o p k q)

include hp h

theorem current_eq_start (hindex : q.index = p.index) : q.current = p.current := by
  rw [h.current_eq, hp.current_eq, hindex]

/-- When recovery stops at once, the token found wrong is not the one ahead. -/
theorem resume (hne : q.current.span.start ≠ p.current.span.start)
    (hheads : q.current.kind.stmtRule?.isSome) : Ready o p { q with resume := true } := by
  have hle : k ≤ q.index := by
    refine h.place.resolve_right fun hahead => ?_
    rcases hahead.2 with hmedial | hindex
    · rw [(Kind.isMedial_iff.mp hmedial).1] at hheads
      cases hheads
    · exact hne (congrArg (·.span.start) (h.current_eq_start hp hindex))
  refine ⟨⟨⟨⟨h.plain.rules, rfl⟩, h.upcoming⟩, h.le, h.ranked.mono hle⟩, fun hclose => ?_⟩
  rw [show q.current.kind = .symbol .closeCurly from hclose] at hheads
  cases hheads

/-- When recovery has passed some tokens, the next statement starts behind all that has
been found wrong. -/
theorem passed {r : Parser} {ts : List Token} (hw : Walk ts [] q r) : Ready o p r := by
  have htape := h.toOnTape.walk hw
  have hindex := hw.index
  have hle := h.le
  have hplace := h.place
  have hranked : ∀ {n : Nat}, k ≤ n → Ranked o n r.faults := by
    intro n hn
    rw [hw.faults, List.append_nil]
    exact h.ranked.mono hn
  refine ⟨?_, fun hclose hopened => ⟨htape, by omega, hranked ?_⟩⟩
  · rw [htape.plain.advancePastStatement]
    refine ⟨htape.advance, ?_, ?_⟩
    · rw [advance_index]
      omega
    · rw [faults_advance, advance_index]
      exact hranked (by omega)
  · by_contra hlt
    -- Nothing was passed, so that the statement has failed on the closing brace.
    have hsame : r.index = q.index := by omega
    rw [htape.current_eq, hsame, ← h.current_eq] at hclose
    rcases (hplace.resolve_left (by omega)).2 with hmedial | hstart
    · exact (Kind.isMedial_iff.mp hmedial).2.1 hclose
    · exact hopened (h.current_eq_start hp hstart ▸ hclose)

end Stuck

theorem recover_orders {p q : Parser} (hp : Orderly o p.index p) {d : Diagnostic}
    (hq : Late o p.index (.rejected d) q) :
    Ready o p ((q.record d).recover p.current.span.start) := by
  obtain ⟨k, hstuck⟩ := hq.stuck
  rw [recover]
  split
  · next hresume =>
      rw [hstuck.plain.rules] at hresume
      exact hstuck.resume hp hresume.1 hresume.2
  · obtain ⟨ts, hw⟩ := skip_walk ((q.record d).stream.pending.length + 2) (q.record d)
    exact hstuck.passed hp hw

section Blocks

variable {block : ParseM Block} (hb : OrdersBlocks o block) {p : Parser}

include hb

theorem stmtOrRecover_orders (h : Orderly o p.index p) :
    Ensures (stmtOrRecover block) p (fun _ q => Ready o p q) fun f _ => f = .outOfFuel := by
  rw [ensures_stmtOrRecover]
  refine (stmt_orders hb h).imp (fun _ q hq => ?_) fun f q hf => ?_
  · refine ⟨?_, fun _ _ => hq⟩
    rw [hq.plain.advancePastStatement]
    exact hq.advance
  · cases f with
    | outOfFuel => rfl
    | rejected d => exact recover_orders h hf

theorem blockBody_orders {i : Nat} (n : Nat) (h : Orderly o i p) :
    Ensures (blockBody block n) p
      (fun _ q => Orderly o i q ∧ (q.current.kind = .symbol .closeCurly ∨ q.current.kind = .eof))
      fun f _ => f = .outOfFuel := by
  refine blockBody_rounds (P := Orderly o i) (R := fun _ _ q =>
      Orderly o i q ∧ (q.current.kind = .symbol .closeCurly ∨ q.current.kind = .eof))
    (fun p h hend => ⟨h, hend⟩) (fun p h hopened _ => ?_) n h
  refine (stmtOrRecover_orders hb h.start).imp (fun s? q hready => ⟨?_, fun _ _ hr => hr⟩)
    fun _ _ hf => hf
  exact (hready.afterRound hopened s?).of_le h.le

theorem statements_orders (n : Nat) (h : Orderly o 0 p) :
    Ensures (statements (stmtOrRecover block) n) p (fun _ q => Orderly o 0 q)
      fun f _ => f = .outOfFuel := by
  refine statements_rounds (P := Orderly o 0) (R := fun _ _ q => Orderly o 0 q)
    (fun p h _ => h) (fun p h _ => ?_) n h
  refine (stmtOrRecover_orders hb h.start).imp (fun _ q hready => ⟨?_, fun _ _ hr => hr⟩)
    fun _ _ hf => hf
  exact hready.1.of_le (Nat.zero_le _)

end Blocks

theorem block_orders (fuel : Nat) : OrdersBlocks o (block fuel) := by
  induction fuel with
  | zero => exact fun _ => .exhaust
  | succ fuel ih =>
      intro i
      refine .during (fun _ _ h => ⟨Orderly.note _ _ h.1, h.2⟩) Orderly.note
        (fun f => Late.note f) fun p h => ?_
      simp only [ensures_bind, ensures_currentToken, ensures_next, ensures_withBudget, ensures_get,
        ensures_ite, ensures_pure, ensures_reject]
      refine (blockBody_orders ih _ (Orderly.advance h.1)).imp (fun _ q hq => ?_) ?_
      · exact ⟨fun _ => hq.1, fun _ => hq.1.late _⟩
      · rintro f q rfl d hd
        cases hd

theorem parseBlock_orders : OrdersBlocks o parseBlock :=
  fun i => .withBudget fun fuel => block_orders fuel i

end Orders

end Parser

/-! ## Sources -/

section Source

variable {source : String} (hsize : byteSize source.toList < Position.limit) (file : String)

/-- Behind the tokens of a source comes its end. -/
theorem get_upcoming_of_length_le {i : Nat} (h : (sourceTokens source file).length ≤ i) :
    (Parser.ofStream (.ofSource source file)).upcoming.get i =
      Token.atEnd (byteSize source.toList) file := by
  obtain ⟨j, rfl⟩ := Nat.exists_eq_add_of_le h
  rw [upcoming_ofSource, Stream'.get_append_right, Stream'.get_const]

include hsize

theorem start_le_of_get_upcoming (i : Nat) :
    ((Parser.ofStream (.ofSource source file)).upcoming.get i).span.start.offset ≤
      byteSize source.toList := by
  rcases Parser.get_upcoming_ofSource source file i with ⟨-, hmem⟩ | ⟨hle, -⟩
  · have hspan := (sourceTokens_ordered hsize file).2 _ hmem
    omega
  · rw [get_upcoming_of_length_le file hle]
    exact Nat.le_of_eq (Position.mark_offset hsize file)

/-- The order of places is the order of the text. -/
theorem start_mono {i j : Nat} (hij : i ≤ j) :
    ((Parser.ofStream (.ofSource source file)).upcoming.get i).span.start.offset ≤
      ((Parser.ofStream (.ofSource source file)).upcoming.get j).span.start.offset := by
  by_cases hj : (sourceTokens source file).length ≤ j
  · refine Nat.le_trans (start_le_of_get_upcoming hsize file i) (Nat.le_of_eq ?_)
    rw [get_upcoming_of_length_le file hj]
    exact (Position.mark_offset hsize file).symm
  · rcases Nat.eq_or_lt_of_le hij with rfl | hlt
    · exact Nat.le_refl _
    obtain ⟨hpairwise, hspan⟩ := sourceTokens_ordered hsize file
    have hj : j < (sourceTokens source file).length := Nat.lt_of_not_le hj
    have hi : i < (sourceTokens source file).length := Nat.lt_trans hlt hj
    rw [Parser.get_upcoming_of_getElem? (List.getElem?_eq_getElem hi),
      Parser.get_upcoming_of_getElem? (List.getElem?_eq_getElem hj)]
    have hstop := List.pairwise_iff_getElem.mp hpairwise i j hi hj hlt
    exact Nat.le_trans (Nat.le_of_lt (hspan _ (List.getElem_mem hi)).1) hstop

/-- What is in the order of places is in the order of positions. -/
theorem Ranked.of_source {n : Nat} {ds : List Diagnostic}
    (h : Ranked (.ofStream (.ofSource source file)) n ds) :
    ds.Pairwise (fun d d' => d.position.offset ≤ d'.position.offset) ∧
      ∀ d ∈ ds, (∃ t ∈ sourceTokens source file, d.position = t.span.start) ∨
        d.position = Position.mark (byteSize source.toList) file := by
  obtain ⟨places, hplaces, hsorted, -⟩ := h
  constructor
  · have hpositions : (ds.map (·.position)).Pairwise fun a b => a.offset ≤ b.offset := by
      rw [hplaces, List.pairwise_map]
      exact hsorted.imp (start_mono hsize file)
    exact (List.pairwise_map (R := fun a b : Position => a.offset ≤ b.offset)).mp hpositions
  · intro d hd
    have hposition : d.position ∈ ds.map (·.position) := List.mem_map_of_mem hd
    rw [hplaces, List.mem_map] at hposition
    obtain ⟨i, -, hi⟩ := hposition
    rw [← hi]
    rcases Parser.get_upcoming_ofSource source file i with ⟨-, hmem⟩ | ⟨hend, -⟩
    · exact .inl ⟨_, hmem, rfl⟩
    · exact .inr (by rw [get_upcoming_of_length_le file hend]; rfl)

end Source

/-- Syntactic diagnostics come in the order of the source. Each of them is about the start
of a token or about the end of the source. -/
theorem parse_faults_ordered {source : String} (hsize : byteSize source.toList < Position.limit)
    (file : String) :
    ((parse source file).2.filter (!·.cause.isLexical)).Pairwise
        (fun d d' => d.position.offset ≤ d'.position.offset) ∧
      ∀ d ∈ (parse source file).2.filter (!·.cause.isLexical),
        (∃ t ∈ sourceTokens source file, d.position = t.span.start) ∨
          d.position = Position.mark (byteSize source.toList) file := by
  obtain ⟨q, hrun, -, -, hfaults⟩ := parseStream_reads _ (isLexical_ofSource source file)
  have hfresh := Parser.fresh_ofSource hsize file
  have horderly := (Parser.statements_orders Parser.parseBlock_orders _ (.refl hfresh)).of_ok hrun
  rw [parse, hfaults]
  exact horderly.ranked.of_source hsize file

/-- Tokens ahead that are found wrong, an operator further back, and a statement that fails
behind a block with failed statements in it. -/
def complaintsSample : String := "fn \x7b var ; 1 + \x7d if a \x7b ++1; c = \x7d else 2"

theorem parse_faults_ordered_sample :
    byteSize complaintsSample.toList < Position.limit ∧
      ((parse complaintsSample "a.x").2.filter (!·.cause.isLexical)).Pairwise
        (fun d d' => d.position.offset ≤ d'.position.offset) ∧
      ∀ d ∈ (parse complaintsSample "a.x").2.filter (!·.cause.isLexical),
        (∃ t ∈ sourceTokens complaintsSample "a.x", d.position = t.span.start) ∨
          d.position = Position.mark (byteSize complaintsSample.toList) "a.x" :=
  ⟨by decide, parse_faults_ordered (by decide) "a.x"⟩

example : (parse complaintsSample "a.x").2.map (·.position.offset) = [3, 9, 15, 24, 33, 40] := by
  decide +kernel

end Frontend
