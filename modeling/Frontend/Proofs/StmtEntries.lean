import Frontend.Proofs.Course

/-!
# Every keyword starts a statement

A word such as `var` or `while` can stand nowhere but at the front of a
statement. A parse takes each of them for the front of one, whatever stands
around it. A statement that comes to such a word too early fails there, either
with the word ahead of its window or with the window on it; in the first case
recovery stops in front of the word, and in the second it stops on the word and
says so. What is skipped holds none.

`Caught` says that all keywords in front of the window have had their turn, and
`Served` that the current token has had it as well. Within a statement either the
current token is served, `Inside`, or it is one that no production has asked for
yet. A statement fails in one of these two states, `Astray`, and recovery from
either leads to the next statement. This is the course of a statement, `turnCourse`.
-/

namespace Frontend

open Text

variable {α β : Type}

namespace Kind

theorem isStmtKeyword_eq_false {kind : Kind} (h : kind.stmtRule? = none) :
    kind.isStmtKeyword = false := by
  rw [Bool.eq_false_iff]
  intro hkeyword
  have hhead := stmtRule?_isSome_of_isStmtKeyword hkeyword
  rw [h] at hhead
  cases hhead

end Kind

namespace Parser

/-! ## Where statements were entered -/

/-- How a production was entered or left so far, oldest first. -/
def events (p : Parser) (production : Production) (stage : Stage) : List Event :=
  (p.trail.filter fun e => e.production = production ∧ e.stage = stage).reverse

/-- The tokens on which statements were entered so far. -/
def entries (p : Parser) : List Nat := (p.events .statement .entered).map (·.entry.index)

theorem events_note (p : Parser) (production production' : Production) (stage stage' : Stage)
    (entry : Mark) : (p.note production stage entry).events production' stage' =
      p.events production' stage' ++
        if production = production' ∧ stage = stage' then [⟨production, stage, entry, p.mark⟩]
        else [] := by
  by_cases h : production = production' ∧ stage = stage'
  · simp [events, note, h]
  · simp [events, note, h]

theorem entries_note {production : Production} {stage : Stage}
    (h : ¬ (production = .statement ∧ stage = .entered)) (p : Parser) (entry : Mark) :
    (p.note production stage entry).entries = p.entries := by
  rw [entries, events_note, if_neg h, List.append_nil, entries]

theorem entries_note_entered (p : Parser) :
    (p.note .statement .entered p.mark).entries = p.entries ++ [p.index] := by
  rw [entries, events_note, if_pos ⟨rfl, rfl⟩, List.map_append]
  rfl

/-- The tokens in front of the end start at places of their own. -/
def Apart (o : Parser) : Prop :=
  ∀ i j, (o.upcoming.get i).kind ≠ .eof → (o.upcoming.get j).kind ≠ .eof →
    (o.upcoming.get i).span.start = (o.upcoming.get j).span.start → i = j

/-- In the parse that has started in `o`, each keyword in front of the window of `p`
was the first token of a statement once, and no statement was entered twice. -/
structure Caught (o p : Parser) : Prop where
  plain : p.Plain
  upcoming : p.upcoming = o.upcoming.drop p.index
  entries_lt : ∀ i ∈ p.entries, i < p.index
  increasing : p.entries.Pairwise (· < ·)
  keywords : ∀ i < p.index, (o.upcoming.get i).kind.isStmtKeyword → i ∈ p.entries

/-- The current token is no keyword either that has missed its turn. -/
structure Served (o p : Parser) : Prop where
  upcoming : p.upcoming = o.upcoming.drop p.index
  caught : Caught o p.advance

/-- The parse is on a token of the statement entered at `i`. Only the first token of
the statement can be one that starts a statement. -/
structure Inside (o : Parser) (i : Nat) (p : Parser) : Prop extends Served o p where
  le : i ≤ p.index
  head : p.current.kind.stmtRule?.isSome → p.index = i

/-- The statement entered at `i` is not to be read on from here: either the window
is on a token that it has no use for, or some token is wrong behind it. -/
def Astray (o : Parser) (i : Nat) (p : Parser) : Prop :=
  (Caught o p ∧ i < p.index) ∨ Inside o i p

/-- A rejection leaves the statement entered at `i` astray. -/
def Fails (o : Parser) (i : Nat) (f : Failure) (q : Parser) : Prop :=
  f ≠ .outOfFuel → Astray o i q

section Steps

variable {o p q : Parser} {i : Nat}

theorem Fresh.entries (ho : o.Fresh) : o.entries = [] := by
  simp [Parser.entries, events, ho.trail]

theorem Caught.refl (ho : o.Fresh) : Caught o o where
  plain := ho.plain
  upcoming := by rw [ho.index]; rfl
  entries_lt := by simp [ho.entries]
  increasing := by simp [ho.entries]
  keywords i hi := by
    rw [ho.index] at hi
    exact absurd hi (Nat.not_lt_zero i)

/-- Neither notes nor diagnostics have a part in it. -/
theorem Caught.same (h : Caught o p) (hplain : q.Plain) (hupcoming : q.upcoming = p.upcoming)
    (hindex : q.index = p.index) (hentries : q.entries = p.entries) : Caught o q where
  plain := hplain
  upcoming := by rw [hupcoming, hindex, h.upcoming]
  entries_lt := by rw [hentries, hindex]; exact h.entries_lt
  increasing := by rw [hentries]; exact h.increasing
  keywords := by rw [hentries, hindex]; exact h.keywords

/-- A token that is no such keyword needs no turn. -/
theorem Caught.served (h : Caught o p) (hp : p.current.kind.isStmtKeyword = false) :
    Served o p := by
  refine ⟨h.upcoming, h.plain.advance, upcoming_of_walk h.upcoming (.advance p), fun j hj => ?_,
    h.increasing, fun j hj hkeyword => ?_⟩
  · exact Nat.lt_succ_of_lt (h.entries_lt j hj)
  · rcases Nat.lt_succ_iff_lt_or_eq.mp hj with hlt | rfl
    · exact h.keywords j hlt hkeyword
    · rw [← current_eq_get h.upcoming, hp] at hkeyword
      cases hkeyword

/-- Entering a statement gives its first token its turn. -/
theorem Caught.enter (h : Caught o p) : Inside o p.index (p.note .statement .entered p.mark) := by
  have hentries : (p.note .statement .entered p.mark).advance.entries = p.entries ++ [p.index] :=
    p.entries_note_entered
  refine ⟨⟨h.upcoming, ?_⟩, Nat.le_refl _, fun _ => rfl⟩
  constructor
  case plain => exact h.plain.note.advance
  case upcoming => exact upcoming_of_walk (p := p.note _ _ _) h.upcoming (.advance _)
  case entries_lt =>
    rw [hentries]
    refine List.forall_mem_append.mpr ⟨fun j hj => ?_, ?_⟩
    · exact Nat.lt_succ_of_lt (h.entries_lt j hj)
    · exact List.forall_mem_singleton.mpr (Nat.lt_succ_self _)
  case increasing =>
    rw [hentries]
    refine List.pairwise_append.mpr ⟨h.increasing, List.pairwise_singleton _ _, fun j hj k hk => ?_⟩
    rw [List.mem_singleton.mp hk]
    exact h.entries_lt j hj
  case keywords =>
    intro j hj hkeyword
    rw [hentries]
    by_cases heq : j = p.index
    · exact List.mem_append_right _ (List.mem_singleton.mpr heq)
    · refine List.mem_append_left _ (h.keywords j ?_ hkeyword)
      have : j < p.index + 1 := hj
      omega

theorem Served.plain (h : Served o p) : p.Plain := ⟨h.caught.plain.rules, h.caught.plain.resume⟩

theorem Served.note (h : Served o p) {production : Production} {stage : Stage}
    (hne : ¬ (production = .statement ∧ stage = .entered)) (entry : Mark) :
    Served o (p.note production stage entry) :=
  ⟨h.upcoming, h.caught.same h.plain.note.advance rfl rfl (entries_note hne p entry)⟩

theorem Inside.past (h : Inside o i p) : Astray o i p.advance :=
  .inl ⟨h.caught, Nat.lt_succ_of_le h.le⟩

theorem Inside.step (h : Inside o i p) (hk : p.lookahead.kind.stmtRule? = none) :
    Inside o i p.advance where
  toServed := h.caught.served (Kind.isStmtKeyword_eq_false hk)
  le := Nat.le_succ_of_le h.le
  head hhead := by
    rw [advance_current, hk] at hhead
    cases hhead

theorem Inside.note (h : Inside o i p) {production : Production} {stage : Stage}
    (hne : ¬ (production = .statement ∧ stage = .entered)) (entry : Mark) :
    Inside o i (p.note production stage entry) :=
  ⟨h.toServed.note hne entry, h.le, h.head⟩

theorem Astray.note (h : Astray o i p) {production : Production} {stage : Stage}
    (hne : ¬ (production = .statement ∧ stage = .entered)) (entry : Mark) :
    Astray o i (p.note production stage entry) := by
  refine h.imp (fun hcaught => ⟨?_, hcaught.2⟩) fun hinside => hinside.note hne entry
  exact hcaught.1.same hcaught.1.plain.note rfl rfl (entries_note hne p entry)

theorem Inside.silent {production : Production} (hne : production ≠ .statement) :
    Silent production (Inside o i) :=
  fun _ entry h => h.note (fun hboth => hne hboth.1) entry

theorem Astray.silent {production : Production} (hne : production ≠ .statement) :
    Silent production (Astray o i) :=
  fun _ entry h => h.note (fun hboth => hne hboth.1) entry

theorem Fails.silent {production : Production} (hne : production ≠ .statement) {f : Failure} :
    Silent production (Fails o i f) :=
  fun _ _ h hfuel => Astray.silent hne _ _ (h hfuel)

theorem Astray.le (h : Astray o i p) : i ≤ p.index :=
  h.elim (fun hcaught => Nat.le_of_lt hcaught.2) Inside.le

/-- A brace needs no turn. -/
theorem Astray.served_of_openCurly (h : Astray o i p)
    (hopen : p.current.kind = .symbol .openCurly) : Served o p :=
  h.elim (fun hcaught => hcaught.1.served (by rw [hopen]; rfl)) Inside.toServed

theorem Astray.plain (h : Astray o i p) : p.Plain :=
  h.elim (fun hcaught => hcaught.1.plain) fun hinside => hinside.plain

theorem Astray.upcoming (h : Astray o i p) : p.upcoming = o.upcoming.drop p.index :=
  h.elim (fun hcaught => hcaught.1.upcoming) fun hinside => hinside.upcoming

/-- A token that goes on with a statement starts none. -/
theorem Astray.inside_of_isMedial (h : Astray o i p) (hk : p.current.kind.isMedial) :
    Inside o i p := by
  have hnone := (Kind.isMedial_iff.mp hk).1
  rcases h with ⟨hcaught, hlt⟩ | hinside
  · refine ⟨hcaught.served (Kind.isStmtKeyword_eq_false hnone), Nat.le_of_lt hlt, fun hhead => ?_⟩
    rw [hnone] at hhead
    cases hhead
  · exact hinside

end Steps

/-! ## Statements -/

/-- What has had its turn in the course of the statement entered at `i`. -/
def turnCourse (o : Parser) (i : Nat) : Course where
  front := Astray o i
  mid := Inside o i
  past := Inside o i
  fails := Fails o i
  rules h := h.plain.rules
  past_of_mid h := h
  next h := h.past
  step h hk := h.step (Kind.isMedial_iff.mp hk).1
  exhausted _ hne := absurd rfl hne
  reject _ _ hq _ _ := .inr hq
  reject_ahead _ h _ := .inr h

/-- An expression may start on any token; it ends on one of its own. -/
theorem expression_enters {o : Parser} (i : Nat) (power : Power) :
    (turnCourse o i).Runs (Astray o i) (expression power) (Inside o i) :=
  .withBudget fun fuel => expr_runs (c := turnCourse o i) (Astray.silent (by simp))
    (Inside.silent (by simp)) (fun _ => Fails.silent (by simp)) (fun h => (Astray.plain h).rules)
    Astray.inside_of_isMedial (fun _ h _ => h) fuel power

/-- A way to read blocks gives what is in a block its turn, whatever statement the block is
part of. -/
def EntersBlocks (o : Parser) (block : ParseM Block) : Prop :=
  ∀ i, (turnCourse o i).Runs (opens (turnCourse o i)) block (Inside o i)

section Blocks

variable {o : Parser} {block : ParseM Block} (hb : EntersBlocks o block) {p : Parser}

include hb

theorem conditional_enters (i n : Nat) :
    (turnCourse o i).Runs (branches (turnCourse o i)) (conditional block n) (Inside o i) :=
  conditional_runs (hb i) (expression_enters _ _) (Astray.silent (by simp))
    (Inside.silent (by simp)) (Inside.silent (by simp))
    (fun _ => Fails.silent (by simp)) n

theorem stmt_enters (h : Caught o p) :
    Ensures (stmt block) p (fun _ q => Served o q) (Fails o p.index) := by
  have hp := h.enter
  rw [stmt_eq, ensures_during]
  refine (ruled_runs (hb p.index) (expression_enters _ _)
    (conditional_enters hb p.index) _ ⟨.inr hp, hp⟩).imp (fun s q hq => ?_) fun f q hq hfuel => ?_
  · exact Served.note (Inside.toServed hq) (by simp) p.mark
  · exact (hq hfuel).note (by simp) p.mark

end Blocks

/-! ## Recovery -/

/-- Recovery has come to its end. In a block it may have stopped on the closing
brace. -/
def Regained (o q : Parser) : Prop :=
  Caught o q.advancePastStatement ∧ (q.current.kind = .symbol .closeCurly → Served o q)

/-- Where the loop of a block starts a round. Recovery may have stopped on the closing brace,
which ends the loop. -/
def Startable (o p : Parser) : Prop :=
  Caught o p ∨ (p.current.kind = .symbol .closeCurly ∧ Served o p)

section Recovery

variable {o p q : Parser}

theorem Served.regained (h : Served o q) : Regained o q := by
  rw [Regained, h.plain.advancePastStatement]
  exact ⟨h.caught, fun _ => h⟩

theorem Regained.afterRound (h : Regained o q) (s? : Option Stmt) :
    Startable o (afterRound s? q) := by
  cases s? with
  | some s => exact .inl h.1
  | none =>
      rw [Parser.afterRound]
      split
      · next hclose => exact .inr ⟨hclose, h.2 hclose⟩
      · exact .inl h.1

theorem Startable.served (h : Startable o p)
    (hend : p.current.kind = .symbol .closeCurly ∨ p.current.kind = .eof) : Served o p := by
  rcases h with hcaught | ⟨-, hserved⟩
  · refine hcaught.served ?_
    rcases hend with hend | hend <;> (rw [hend]; rfl)
  · exact hserved

/-- Skipping stops in front of every keyword. -/
theorem skip_enters (n : Nat) (h : Served o p) : Served o (p.skip n) := by
  induction n generalizing p with
  | zero => exact h
  | succ n ih =>
      rw [skip]
      split
      · exact h
      · next hgoes =>
          simp only [beforeBoundary, Bool.or_eq_true, not_or, h.plain.rules] at hgoes
          have hnone : p.lookahead.kind.stmtRule? = none := by
            rw [← Option.not_isSome_iff_eq_none]
            exact hgoes.2.2
          exact ih (h.caught.served (Kind.isStmtKeyword_eq_false hnone))

variable (hapart : o.Apart)

include hapart

/-- A statement that fails on a token that starts one, and not on its own first token,
leaves that token to the next statement. -/
theorem recover_enters (hp : Caught o p) (hend : p.current.kind ≠ .eof)
    (h : Astray o p.index q) : Regained o (q.recover p.current.span.start) := by
  have hcurrent := current_eq_get h.upcoming
  have hstart := current_eq_get hp.upcoming
  have hindex : q.current.kind.stmtRule?.isSome →
      q.current.span.start = p.current.span.start → q.index = p.index := by
    intro hhead heq
    rw [hcurrent, hstart] at heq
    refine hapart _ _ (fun heof => ?_) (hstart ▸ hend) heq
    rw [hcurrent, heof] at hhead
    cases hhead
  have hrules := h.plain.rules
  rw [recover]
  split
  · next hresume =>
      rw [hrules] at hresume
      obtain ⟨hne, hhead⟩ := hresume
      have hhead : q.current.kind.stmtRule?.isSome := hhead
      rcases h with ⟨hcaught, -⟩ | hinside
      · have hsettled : Caught o q.settled := hcaught.same ⟨hcaught.plain.rules, rfl⟩ rfl rfl rfl
        refine ⟨hsettled, fun hclose => ?_⟩
        rw [show q.current.kind = .symbol .closeCurly from hclose] at hhead
        cases hhead
      · refine absurd ?_ hne
        rw [hcurrent, hstart, hinside.head hhead]
  · next hresume =>
      rw [hrules] at hresume
      refine Served.regained (skip_enters _ ?_)
      rcases h with ⟨hcaught, hlt⟩ | hinside
      · refine hcaught.served (Kind.isStmtKeyword_eq_false ?_)
        rw [← Option.not_isSome_iff_eq_none]
        intro hhead
        have hsame : q.current.span.start = p.current.span.start :=
          not_not.mp fun hne => hresume ⟨hne, hhead⟩
        exact absurd (hindex hhead hsame) (Nat.ne_of_gt hlt)
      · exact hinside.toServed

variable {block : ParseM Block} (hb : EntersBlocks o block)

include hb

theorem stmtOrRecover_enters (h : Caught o p) (hend : p.current.kind ≠ .eof) :
    Ensures (stmtOrRecover block) p (fun _ q => Regained o q) fun f _ => f = .outOfFuel := by
  rw [ensures_stmtOrRecover]
  refine (stmt_enters hb h).imp (fun _ q hq => hq.regained) fun f q hf => ?_
  cases f with
  | outOfFuel => rfl
  | rejected d =>
      refine recover_enters hapart h hend ?_
      refine (hf (by simp)).imp (fun hcaught => ⟨?_, hcaught.2⟩) fun hinside => ?_
      · exact hcaught.1.same ⟨hcaught.1.plain.rules, hcaught.1.plain.resume⟩ rfl rfl rfl
      · refine ⟨⟨hinside.upcoming, ?_⟩, hinside.le, hinside.head⟩
        exact hinside.caught.same ⟨hinside.plain.rules, hinside.plain.resume⟩ rfl rfl rfl

theorem blockBody_enters (n : Nat) (h : Startable o p) :
    Ensures (blockBody block n) p
      (fun _ q => Served o q ∧ (q.current.kind = .symbol .closeCurly ∨ q.current.kind = .eof))
      fun f _ => f = .outOfFuel := by
  refine blockBody_rounds (P := Startable o) (R := fun _ _ q =>
      Served o q ∧ (q.current.kind = .symbol .closeCurly ∨ q.current.kind = .eof))
    (fun p h hend => ⟨h.served hend, hend⟩) (fun p h hopened hend => ?_) n h
  have hcaught := h.resolve_right fun hclose => hopened hclose.1
  refine (stmtOrRecover_enters hapart hb hcaught hend).imp (fun s? q hregained => ?_)
    fun _ _ hf => hf
  exact ⟨hregained.afterRound s?, fun _ _ hr => hr⟩

theorem statements_enters (n : Nat) (h : Caught o p) :
    Ensures (statements (stmtOrRecover block) n) p (fun _ q => Caught o q)
      fun f _ => f = .outOfFuel := by
  refine statements_rounds (P := Caught o) (R := fun _ _ q => Caught o q) (fun p h _ => h)
    (fun p h hend => ?_) n h
  refine (stmtOrRecover_enters hapart hb h hend).imp (fun s? q hregained => ?_) fun _ _ hf => hf
  exact ⟨hregained.1, fun _ _ hr => hr⟩

end Recovery

/-! ## Blocks and programs -/

section Programs

variable {o : Parser} (hapart : o.Apart)

include hapart

theorem block_enters (fuel : Nat) : EntersBlocks o (block fuel) := by
  induction fuel with
  | zero => exact fun i => .exhaust
  | succ fuel ih =>
      intro i p hopens
      obtain ⟨hastray, hopen⟩ := hopens
      have hle := hastray.le
      have hstart : Caught o (p.note .block .entered p.mark).advance :=
        ((hastray.served_of_openCurly hopen).note (by simp) p.mark).caught
      have hforward : Along (fun p q => p.index ≤ q.index)
          (withBudget (blockBody (block fuel))) :=
        .withBudget (blockBody_along (stmtOrRecover_along _ (.block fuel)
          (block_along stmtOrRecover_along fuel)))
      rw [block, ensures_during, ensures_bind, ensures_currentToken, ensures_bind, ensures_next,
        ensures_bind]
      refine ((ensures_withBudget.mpr (blockBody_enters hapart ih _ (.inl hstart))).and
        (hforward _)).imp ?_ ?_
      · intro ss q hresult
        obtain ⟨⟨hserved, hend⟩, hindex⟩ := hresult
        have hlater : i ≤ q.index := by
          have : p.index + 1 ≤ q.index := hindex
          omega
        have hinside : Inside o i q := by
          refine ⟨hserved, hlater, fun hhead => ?_⟩
          rcases hend with hend | hend <;> (rw [hend] at hhead; cases hhead)
        simp only [ensures_bind, ensures_get, ensures_ite, ensures_pure, ensures_reject]
        exact ⟨fun _ => hinside.note (by simp) p.mark,
          fun _ _ => .inr (hinside.note (by simp) p.mark)⟩
      · rintro f q ⟨rfl, -⟩ hne
        exact absurd rfl hne

theorem parseBlock_enters : EntersBlocks o parseBlock :=
  fun i => .withBudget fun fuel => block_enters hapart fuel i

end Programs

/-- In front of the end the tape holds the tokens of the source. -/
theorem getElem?_sourceTokens {source file : String} {i : Nat}
    (h : ((ofStream (.ofSource source file)).upcoming.get i).kind ≠ .eof) :
    (sourceTokens source file)[i]? = some ((ofStream (.ofSource source file)).upcoming.get i) := by
  obtain ⟨hi, -⟩ := (get_upcoming_ofSource source file i).resolve_right fun hend => h hend.2
  rw [upcoming_ofSource, Stream'.get_append_left _ _ _ hi, List.getElem?_eq_getElem hi]

theorem apart_ofSource {source : String} (h : byteSize source.toList < Position.limit)
    (file : String) : (ofStream (.ofSource source file)).Apart := by
  obtain ⟨hpairwise, hspan⟩ := sourceTokens_ordered h file
  have hincreasing : (sourceTokens source file).Pairwise
      fun a b => a.span.start.offset < b.span.start.offset :=
    hpairwise.imp_of_mem fun ha _ hle => Nat.lt_of_lt_of_le (hspan _ ha).1 hle
  intro i j hi hj heq
  obtain ⟨hi, hti⟩ := List.getElem?_eq_some_iff.mp (getElem?_sourceTokens hi)
  obtain ⟨hj, htj⟩ := List.getElem?_eq_some_iff.mp (getElem?_sourceTokens hj)
  rw [List.pairwise_iff_getElem] at hincreasing
  rcases Nat.lt_trichotomy i j with hlt | heq' | hlt
  · have := hincreasing i j hi hj hlt
    rw [hti, htj, heq] at this
    omega
  · exact heq'
  · have := hincreasing j i hj hi hlt
    rw [hti, htj, heq] at this
    omega

/-- A parse that has come to the end of a source has entered a statement on each
keyword of the source, and has entered none twice. -/
theorem Caught.of_end {source file : String} {q : Parser}
    (h : Caught (ofStream (.ofSource source file)) q) (hend : q.current.kind = .eof) :
    q.entries.Nodup ∧ ∀ (i : Nat) (t : Token), (sourceTokens source file)[i]? = some t →
      t.kind.isStmtKeyword → i ∈ q.entries := by
  refine ⟨h.increasing.imp Nat.ne_of_lt, fun i t ht hkeyword => ?_⟩
  obtain ⟨hi, -⟩ := List.getElem?_eq_some_iff.mp ht
  have hindex : (sourceTokens source file).length ≤ q.index := by
    rw [current_eq_get h.upcoming] at hend
    rcases get_upcoming_ofSource source file q.index with ⟨-, hmem⟩ | ⟨hle, -⟩
    · exact absurd hend (kind_ne_eof_of_mem_sourceTokens _ hmem)
    · exact hle
  rw [← get_upcoming_of_getElem? ht] at hkeyword
  exact h.keywords i (Nat.lt_of_lt_of_le hi hindex) hkeyword

end Parser

end Frontend
