import Frontend.Proofs.StmtEntries

/-!
# What becomes of a statement

A statement that is entered is left once, with the statement that was read or with
a diagnostic, and the diagnostic is recorded right then: recovery comes first, then
everything else. So what a parse has noted about its statements tells of readings
that took place, and the diagnostics of failed productions are those of the
statements that failed, one each.

`Balanced` counts the statements that were entered and left; `Logged` ties each of
them to its reading. Both are kept by every step, and `StmtEntries` tells on which
tokens statements are entered, so all there is to know about the keywords of a
source comes together in `parse_keywords`.
-/

namespace Frontend

open Text

variable {α β : Type}

namespace Parser

/-! ## The first token of a statement -/

/-- Every result of the production has this property. -/
def Yields (P : α → Prop) (x : ParseM α) : Prop :=
  ∀ p, Ensures x p (fun a _ => P a) fun _ _ => True

namespace Yields

variable {P : β → Prop}

theorem bind {x : ParseM α} {f : α → ParseM β} (hf : ∀ a, Yields P (f a)) :
    Yields P (x >>= f) := by
  intro p
  rw [ensures_bind]
  exact (ensures_self x p).imp (fun a q _ => hf a q) fun _ _ _ => trivial

theorem pure {b : β} (h : P b) : Yields P (Pure.pure b) := fun _ => h

theorem reject (cause : Cause) (position : Position) : Yields P (Parser.reject cause position) :=
  fun _ => trivial

theorem ite {c : Prop} [Decidable c] {x y : ParseM β} (hx : Yields P x) (hy : Yields P y) :
    Yields P (if c then x else y) := by
  split
  · exact hx
  · exact hy

end Yields

theorem block_token {block : ParseM Block} (h : BlockReader block) (p : Parser) :
    Ensures block p (fun b _ => b.token = p.current) fun _ _ => True := by
  have hblock : ∀ fuel, Ensures (Parser.block fuel) p (fun b _ => b.token = p.current)
      fun _ _ => True := by
    intro fuel
    cases fuel with
    | zero => trivial
    | succ fuel =>
        rw [Parser.block, ensures_during, ensures_bind, ensures_currentToken]
        refine Yields.bind (P := fun b : Block => b.token = p.current) (fun _ => .bind fun _ => ?_) _
        exact .bind fun q => .ite (.pure rfl) (.reject _ _)
  cases h with
  | block fuel => exact hblock fuel
  | parseBlock => exact ensures_withBudget.mpr (hblock p.budget)

theorem conditional_token (block : ParseM Block) (n : Nat) (p : Parser) :
    Ensures (conditional block n) p (fun branch _ => branch.token = p.current)
      fun _ _ => True := by
  cases n with
  | zero => trivial
  | succ n =>
      rw [conditional, ensures_during, ensures_bind, ensures_currentToken]
      refine Yields.bind (P := fun c : Conditional => c.token = p.current)
        (fun _ => .bind fun _ => .bind fun _ => .ite ?_ (.bind fun _ => .ite ?_ ?_)) _
      · exact .bind fun _ => .bind fun _ => .bind fun _ => .pure rfl
      · exact .bind fun _ => .bind fun _ => .bind fun _ => .pure rfl
      · exact .bind fun _ => .pure rfl

theorem applyStmt_token {block : ParseM Block} (h : BlockReader block) (rule : StmtRule)
    (p : Parser) :
    Ensures (applyStmt block rule) p (fun s _ => s.token = p.current) fun _ _ => True := by
  have hstart : ∀ f : Token → ParseM Stmt, Yields (·.token = p.current) (f p.current) →
      Ensures (currentToken >>= f) p (fun s _ => s.token = p.current) fun _ _ => True :=
    fun f hf => hf p
  cases rule with
  | declaration =>
      refine hstart _ (.bind fun _ => .bind fun _ => .bind fun _ => .bind fun _ => ?_)
      exact .bind fun _ => .bind fun _ => .bind fun _ => .bind fun _ => .pure rfl
  | return_ =>
      refine hstart _ (.bind fun _ => .ite ?_ ?_)
      · exact .bind fun _ => .bind fun _ => .pure rfl
      · exact .bind fun _ => .bind fun _ => .bind fun _ => .bind fun _ => .pure rfl
  | block =>
      rw [applyStmt, ensures_bind]
      exact block_token h p
  | function =>
      refine hstart _ (.bind fun _ => .bind fun _ => .bind fun _ => .bind fun _ => ?_)
      exact .bind fun _ => .bind fun _ => .pure rfl
  | conditional =>
      rw [applyStmt, ensures_bind, ensures_withBudget]
      exact conditional_token block p.budget p
  | while_ =>
      exact hstart _ (.bind fun _ => .bind fun _ => .bind fun _ => .pure rfl)
  | loop => exact hstart _ (.bind fun _ => .bind fun _ => .pure rfl)

/-- A statement that is read starts with the token that it was entered on. -/
theorem stmt_token {block : ParseM Block} (h : BlockReader block) (p : Parser) :
    Ensures (stmt block) p (fun s _ => s.token = p.current) fun _ _ => True := by
  rw [stmt, ensures_during, ensures_bind, ensures_get]
  split
  · exact applyStmt_token h _ _
  · rw [expressionStmt, ensures_bind, ensures_currentToken]
    refine Yields.bind (P := fun s : Stmt => s.token = p.current)
      (fun _ => .bind fun _ => .ite ?_ ?_) _
    · exact .bind fun _ => .bind fun _ => .pure rfl
    · exact .bind fun _ => .pure rfl

/-! ## Entering and leaving -/

/-- How statements were left so far, oldest first. -/
def outcomes (p : Parser) : List Event :=
  (p.trail.filter fun e => e.production = .statement ∧ e.stage ≠ .entered).reverse

/-- The tokens on which the statements were entered that have been left. -/
def exits (p : Parser) : List Nat := p.outcomes.map (·.entry.index)

theorem outcomes_note (p : Parser) (production : Production) (stage : Stage) (entry : Mark) :
    (p.note production stage entry).outcomes = p.outcomes ++
      if production = .statement ∧ stage ≠ .entered then [⟨production, stage, entry, p.mark⟩]
      else [] := by
  by_cases h : production = .statement ∧ stage ≠ .entered
  · rw [outcomes, note, List.filter_cons_of_pos (by simpa using h), if_pos h, List.reverse_cons]
    rfl
  · rw [outcomes, note, List.filter_cons_of_neg (by simpa using h), if_neg h, List.append_nil]
    rfl

theorem exits_note (p : Parser) (production : Production) (stage : Stage) (entry : Mark) :
    (p.note production stage entry).exits = p.exits ++
      if production = .statement ∧ stage ≠ .entered then [entry.index] else [] := by
  rw [exits, outcomes_note, List.map_append, exits]
  split <;> rfl

/-- As many statements were left on the way as were entered, by their first tokens. -/
def Balanced (p q : Parser) : Prop :=
  ∀ i, p.entries.count i + q.exits.count i = q.entries.count i + p.exits.count i

instance : Onward Balanced where
  refl _ _ := rfl
  trans h h' i := by
    have := h i
    have := h' i
    omega
  advance _ _ := rfl
  note p production stage entry hne i := by
    rw [entries_note (fun h => hne h.1), exits_note, if_neg (fun h => hne h.1), List.append_nil]
  settle _ _ := rfl

theorem stmt_balanced {block : ParseM Block} (hb : Along Balanced block) :
    Along Balanced (stmt block) := by
  intro p
  rw [stmt, ensures_during]
  -- What is entered here is left in either case.
  have hleave : ∀ {q : Parser} {stage : Stage}, stage ≠ .entered →
      Balanced (p.note .statement .entered p.mark) q →
      Balanced p (q.note .statement stage p.mark) := by
    intro q stage hstage hq i
    have := hq i
    rw [entries_note_entered, exits_note, if_neg (by simp), List.append_nil] at this
    rw [entries_note (fun h => hstage h.2), exits_note, if_pos ⟨rfl, hstage⟩]
    simp only [List.count_append, mark] at this ⊢
    omega
  refine (ruled_along hb _).imp (fun _ q hq => ?_) fun _ q hq hfuel => ?_
  · exact hleave (by simp) hq
  · exact hleave (by simp) (hq hfuel)

theorem stmtOrRecover_balanced (block : ParseM Block) (_ : BlockReader block)
    (hb : Along Balanced block) : Along Balanced (stmtOrRecover block) := by
  intro p
  rw [ensures_stmtOrRecover]
  refine (stmt_balanced hb p).imp (fun _ _ h => h) fun f q hq => ?_
  cases f with
  | outOfFuel => exact hq
  | rejected d =>
      have hrecover : Balanced (q.record d) ((q.record d).recover p.current.span.start) := by
        rw [recover]
        split
        · exact fun _ => rfl
        · exact skip_along _ _
      exact Onward.trans (R := Balanced) (hq (by simp)) hrecover

/-! ## Readings -/

/-- The note tells of a reading of a statement that took place between two states of
the parse and started on this token. It gave a statement that starts with the token,
or a diagnostic, which was recorded then. -/
def Told (p : Parser) (t : Token) (e : Event) : Prop :=
  ∃ block start stop, BlockReader block ∧ start.mark = e.entry ∧ start.current = t ∧
    (start.note .statement .entered start.mark).trail <:+ stop.trail ∧ stop.trail <:+ p.trail ∧
    stop.trail.head? = some e ∧
    ((∃ s, stmt block start = .ok s stop ∧ s.token = t) ∨
      ∃ d, stmt block start = .error (.rejected d) stop ∧
        p.findings[e.here.findings]? = some ⟨.production, d⟩)

/-- What a parse has noted about leaving statements tells of readings, and the
diagnostics of failed productions are those of the readings that have failed. -/
structure Logged (o p : Parser) : Prop where
  upcoming : p.upcoming = o.upcoming.drop p.index
  told : ∀ e ∈ p.outcomes, Told p (o.upcoming.get e.entry.index) e
  recorded : (p.events .statement .abandoned).map (·.here.findings) =
    p.findings.findIdxs fun f => f.origin = .production

theorem Fresh.exits {o : Parser} (ho : o.Fresh) : o.exits = [] := by
  simp [Parser.exits, outcomes, ho.trail]

theorem Logged.refl {o : Parser} (ho : o.Fresh) : Logged o o where
  upcoming := by rw [ho.index]; rfl
  told := by simp [outcomes, ho.trail]
  recorded := by
    have hnone := ho.faults
    rw [faults, List.map_eq_nil_iff, List.filter_eq_nil_iff] at hnone
    rw [events, ho.trail, eq_comm, List.filter_nil, List.reverse_nil, List.map_nil,
      List.findIdxs_eq_nil_iff]
    exact fun f hf => Bool.eq_false_iff.mpr (hnone f hf)

/-- A parse goes on: nothing that it has noted or recorded is lost. -/
structure Later (o p q : Parser) : Prop where
  trail : p.trail <:+ q.trail
  findings : p.findings <+: q.findings
  logged : Logged o p → Logged o q

section Later

variable {o p q : Parser}

theorem Told.later {t : Token} {e : Event} (h : Told p t e) (htrail : p.trail <:+ q.trail)
    (hfindings : p.findings <+: q.findings) : Told q t e := by
  obtain ⟨block, start, stop, hblock, hmark, hcurrent, hentered, hstop, he, hend⟩ := h
  refine ⟨block, start, stop, hblock, hmark, hcurrent, hentered, hstop.trans htrail, he, ?_⟩
  refine hend.imp id ?_
  rintro ⟨d, hrun, hd⟩
  refine ⟨d, hrun, ?_⟩
  obtain ⟨hi, -⟩ := List.getElem?_eq_some_iff.mp hd
  obtain ⟨more, hmore⟩ := hfindings
  rw [← hmore, List.getElem?_append_left hi, hd]

instance : Onward (Later o) where
  refl p := ⟨List.suffix_rfl, List.prefix_rfl, id⟩
  trans h h' := ⟨h.trail.trans h'.trail, h.findings.trans h'.findings, h'.logged ∘ h.logged⟩
  advance p := by
    have hfindings : p.findings <+: p.advance.findings := List.prefix_append _ _
    refine ⟨List.suffix_rfl, hfindings, fun h => ⟨?_, fun e he => ?_, ?_⟩⟩
    · exact upcoming_of_walk h.upcoming (.advance p)
    · exact (h.told e he).later List.suffix_rfl hfindings
    · have hstream : (handedOver p.stream.pull.1).findIdxs (fun f => f.origin = .production)
          (0 + p.findings.length) = [] := by
        rw [List.findIdxs_eq_nil_iff]
        simp [handedOver]
      rw [advance, List.findIdxs_append, hstream, List.append_nil]
      exact h.recorded
  note p production stage entry hne := by
    have htrail : p.trail <:+ (p.note production stage entry).trail := List.suffix_cons _ _
    refine ⟨htrail, List.prefix_rfl, fun h => ⟨h.upcoming, fun e he => ?_, ?_⟩⟩
    · rw [outcomes_note, if_neg (fun h => hne h.1), List.append_nil] at he
      exact (h.told e he).later htrail List.prefix_rfl
    · rw [events_note, if_neg (fun h => hne h.1), List.append_nil]
      exact h.recorded
  settle p := ⟨List.suffix_rfl, List.prefix_rfl, fun h => ⟨h.upcoming, h.told, h.recorded⟩⟩

/-- A statement that has been entered has not been left yet. -/
theorem Later.enter (p : Parser) : Later o p (p.note .statement .entered p.mark) := by
  have htrail : p.trail <:+ (p.note .statement .entered p.mark).trail := List.suffix_cons _ _
  refine ⟨htrail, List.prefix_rfl, fun h => ⟨h.upcoming, fun e he => ?_, ?_⟩⟩
  · rw [outcomes_note, if_neg (by simp), List.append_nil] at he
    exact (h.told e he).later htrail List.prefix_rfl
  · rw [events_note, if_neg (by simp), List.append_nil]
    exact h.recorded

variable {block : ParseM Block} (hblock : BlockReader block)

include hblock

theorem Later.complete {s : Stmt} (h : Later o p q)
    (hentered : (p.note .statement .entered p.mark).trail <:+ q.trail)
    (hrun : stmt block p = .ok s (q.note .statement .completed p.mark))
    (htoken : s.token = p.current) : Later o p (q.note .statement .completed p.mark) := by
  have htrail : q.trail <:+ (q.note .statement .completed p.mark).trail := List.suffix_cons _ _
  refine ⟨h.trail.trans htrail, h.findings, fun hp => ?_⟩
  have hstart := current_eq_get hp.upcoming
  have hlogged := h.logged hp
  refine ⟨hlogged.upcoming, ?_, ?_⟩
  · rw [outcomes_note, if_pos (by simp)]
    refine List.forall_mem_append.mpr ⟨fun e he => ?_, List.forall_mem_singleton.mpr ?_⟩
    · exact (hlogged.told e he).later htrail List.prefix_rfl
    · exact ⟨block, p, _, hblock, rfl, hstart, hentered.trans htrail, List.suffix_rfl, rfl,
        .inl ⟨s, hrun, htoken.trans hstart⟩⟩
  · rw [events_note, if_neg (by simp), List.append_nil]
    exact hlogged.recorded

theorem Later.abandon {d : Diagnostic} (h : Later o p q)
    (hentered : (p.note .statement .entered p.mark).trail <:+ q.trail)
    (hrun : stmt block p = .error (.rejected d) (q.note .statement .abandoned p.mark)) :
    Later o p ((q.note .statement .abandoned p.mark).record d) := by
  have htrail : q.trail <:+ ((q.note .statement .abandoned p.mark).record d).trail :=
    List.suffix_cons _ _
  have hfindings : q.findings <+: ((q.note .statement .abandoned p.mark).record d).findings :=
    List.prefix_append _ _
  refine ⟨h.trail.trans htrail, h.findings.trans hfindings, fun hp => ?_⟩
  have hstart := current_eq_get hp.upcoming
  have hlogged := h.logged hp
  refine ⟨hlogged.upcoming, ?_, ?_⟩
  · rw [show ((q.note .statement .abandoned p.mark).record d).outcomes =
      (q.note .statement .abandoned p.mark).outcomes from rfl, outcomes_note, if_pos (by simp)]
    refine List.forall_mem_append.mpr ⟨fun e he => ?_, List.forall_mem_singleton.mpr ?_⟩
    · exact (hlogged.told e he).later htrail hfindings
    · exact ⟨block, p, q.note .statement .abandoned p.mark, hblock, rfl, hstart,
        hentered.trans htrail, List.suffix_rfl, rfl, .inr ⟨d, hrun, List.getElem?_concat_length⟩⟩
  · rw [show ((q.note .statement .abandoned p.mark).record d).events =
      (q.note .statement .abandoned p.mark).events from rfl, events_note, if_pos ⟨rfl, rfl⟩,
      List.map_append, hlogged.recorded, record, List.findIdxs_append]
    simp [note, mark]

variable (hb : Along (Later o) block)

include hb

/-- Reading a statement, with its diagnostic recorded if there is one. -/
theorem stmt_later (p : Parser) :
    Ensures (stmt block) p (fun _ q => Later o p q)
      fun f q => ∀ d, f = .rejected d → Later o p (q.record d) := by
  have hnoted : Ensures (stmt block) p
      (fun _ q => ∃ r, Later o (p.note .statement .entered p.mark) r ∧
        q = r.note .statement .completed p.mark)
      fun f q => f ≠ .outOfFuel → ∃ r, Later o (p.note .statement .entered p.mark) r ∧
        q = r.note .statement .abandoned p.mark := by
    rw [stmt, ensures_during]
    exact (ruled_along hb _).imp (fun _ r hr => ⟨r, hr, rfl⟩) fun _ r hr hfuel => ⟨r, hr hfuel, rfl⟩
  refine (((ensures_self _ p).and (stmt_token hblock p)).and hnoted).imp ?_ ?_
  · rintro s q ⟨⟨hrun, htoken⟩, r, hr, rfl⟩
    exact (Onward.trans (Later.enter p) hr).complete hblock hr.trail hrun htoken
  · rintro f q ⟨⟨hrun, -⟩, hleft⟩ d rfl
    obtain ⟨r, hr, rfl⟩ := hleft (by simp)
    exact (Onward.trans (Later.enter p) hr).abandon hblock hr.trail hrun

theorem stmtOrRecover_later : Along (Later o) (stmtOrRecover block) := by
  intro p
  rw [ensures_stmtOrRecover]
  refine (stmt_later hblock hb p).imp (fun _ _ h => h) fun f q hq => ?_
  cases f with
  | outOfFuel => exact fun hne => absurd rfl hne
  | rejected d =>
      refine Onward.trans (hq d rfl) ?_
      rw [recover]
      split
      · exact ⟨List.suffix_rfl, List.prefix_rfl, fun h => ⟨h.upcoming, h.told, h.recorded⟩⟩
      · exact skip_along _ _

end Later

/-- One note among many, told by where the production was entered. -/
theorem exists_event {es : List Event} {i : Nat} (h : (es.map (·.entry.index)).count i = 1) :
    ∃ e, es.filter (·.entry.index = i) = [e] := by
  rw [List.count, List.countP_map, List.countP_eq_length_filter] at h
  obtain ⟨e, he⟩ := List.length_eq_one_iff.mp h
  refine ⟨e, he ▸ List.filter_congr fun e' _ => ?_⟩
  simp [beq_eq_decide]

end Parser

/-! ## Sources -/

/-- No statement of a source is lost to an error in front of it. A parse enters a
statement on each keyword that starts one, and does so once; it leaves the statement
once, with a statement that starts with this keyword or with a diagnostic that is
recorded. Each diagnostic of a failed production is that of one statement. -/
theorem parse_keywords {source : String} (h : byteSize source.toList < Position.limit)
    (file : String) :
    ∃ q, Parser.parseProgram (.ofStream (.ofSource source file)) = .ok (parse source file).1 q ∧
      q.diagnostics = (parse source file).2 ∧
      (∀ (i : Nat) (t : Token), (sourceTokens source file)[i]? = some t → t.kind.isStmtKeyword →
        ∃ e e', (q.events .statement .entered).filter (·.entry.index = i) = [e] ∧
          q.outcomes.filter (·.entry.index = i) = [e'] ∧ q.Told t e') ∧
      (q.events .statement .abandoned).map (·.here.findings) =
        q.findings.findIdxs fun f => f.origin = .production := by
  set o : Parser := .ofStream (.ofSource source file) with ho
  have hapart : o.Apart := Parser.apart_ofSource h file
  have hfresh : o.Fresh := Parser.fresh_ofSource h file
  obtain ⟨ss, q, hrun, hprogram, -, hend⟩ := Parser.parseProgram_reads hfresh.plain
  have hparse : parse source file = (⟨ss⟩, q.diagnostics) := by
    rw [parse, parseStream, ← ho, hprogram]
  have hcaught : Parser.Caught o q :=
    (Parser.statements_enters hapart (Parser.parseBlock_enters hapart) _ (.refl hfresh)).of_ok hrun
  have hbalanced : Parser.Balanced o q :=
    (Parser.parseProgram_along Parser.stmtOrRecover_balanced o).of_ok hprogram
  have hlater : Parser.Later o o q :=
    (Parser.parseProgram_along (fun _ => Parser.stmtOrRecover_later) o).of_ok hprogram
  have hlogged : Parser.Logged o q := hlater.logged (.refl hfresh)
  obtain ⟨hnodup, hkeywords⟩ := hcaught.of_end hend
  refine ⟨q, by rw [hparse]; exact hprogram, by rw [hparse], fun i t ht hkeyword => ?_,
    hlogged.recorded⟩
  have hentry : q.entries.count i = 1 :=
    List.count_eq_one_of_mem hnodup (hkeywords i t ht hkeyword)
  have hexit : q.exits.count i = 1 := by
    have := hbalanced i
    rw [hfresh.entries, hfresh.exits, List.count_nil] at this
    omega
  obtain ⟨e, he⟩ := Parser.exists_event hentry
  obtain ⟨e', he'⟩ := Parser.exists_event hexit
  refine ⟨e, e', he, he', ?_⟩
  have hmem : e' ∈ q.outcomes.filter (·.entry.index = i) := he' ▸ List.mem_singleton_self e'
  obtain ⟨hmem, hindex⟩ := List.mem_filter.mp hmem
  have htold := hlogged.told e' hmem
  rw [of_decide_eq_true hindex] at htold
  rwa [Parser.get_upcoming_of_getElem? ht] at htold

/-- Statements that run into the front of the next one, as a name, a condition, a block
and an operand. -/
def crowdedSample : String := "fn while \x7b var if ( loop return"

theorem parse_keywords_sample :
    byteSize crowdedSample.toList < Position.limit ∧
      ∃ q, Parser.parseProgram (.ofStream (.ofSource crowdedSample "a.x")) =
          .ok (parse crowdedSample "a.x").1 q ∧
        ∃ e e', (q.events .statement .entered).filter (·.entry.index = 6) = [e] ∧
          q.outcomes.filter (·.entry.index = 6) = [e'] ∧
          q.Told ⟨.keyword .loop, "loop", ⟨⟨20, "a.x"⟩, ⟨24, "a.x"⟩⟩⟩ e' := by
  have h : byteSize crowdedSample.toList < Position.limit := by decide
  obtain ⟨q, hrun, -, hkeywords, -⟩ := parse_keywords h "a.x"
  exact ⟨h, q, hrun, hkeywords 6 _ (by decide) rfl⟩

example : (match Parser.parseProgram (.ofStream (.ofSource crowdedSample "a.x")) with
    | .ok _ q => (q.entries, q.exits)
    | .error _ _ => ([], [])) = ([0, 1, 2, 3, 4, 6, 7], [0, 1, 3, 4, 6, 7, 2]) := by
  decide +kernel

end Frontend
