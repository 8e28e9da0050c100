import Frontend.Proofs.Scanning
import Frontend.Proofs.StmtReading
import Mathlib.Data.List.Induction

/-!
# Blocks and braces

`nesting` matches the braces of a list of tokens with a stack and nothing else:
it knows of no statements, of no errors and of no recovery. A parse keeps a stack
of its own, that of the blocks it is in, and notes in its trail when it enters
and leaves one. `Nested` says that the two agree: what the stack of braces holds
are the blocks that the parse is in and those that it has given up.

A block is given up at the end of the input only, so nothing comes in behind it
that could close a brace again. This is why the blocks that were given up may lie
on top of the stack, and it makes each of them a diagnostic, which is recorded
later than the block is left; `Nested.abandon` takes both steps at once.
-/

namespace Frontend

/-- The braces of a list of tokens, by their places in it. -/
structure Nesting where
  /-- Each opening brace with the one that closes it, in the order in which they
  are closed. -/
  pairs : List (Nat × Nat)
  /-- The opening braces that nothing closes, innermost first. -/
  unmatched : List Nat
deriving DecidableEq

/-- Goes on with a token and its place. -/
def Nesting.step (n : Nesting) (t : Token × Nat) : Nesting :=
  if t.1.kind = .symbol .openCurly then { n with unmatched := t.2 :: n.unmatched }
  else if t.1.kind = .symbol .closeCurly then
    match n.unmatched with
    | [] => n
    | i :: is => ⟨n.pairs ++ [(i, t.2)], is⟩
  else n

/-- Matches the braces with a stack. A closing brace with nothing to close does
not count. -/
def nesting (ts : List Token) : Nesting := ts.zipIdx.foldl Nesting.step ⟨[], []⟩

/-- The places of the opening braces. -/
def openings (ts : List Token) : List Nat :=
  ts.findIdxs fun t => t.kind = .symbol .openCurly

namespace Kind

/-- Whether a token of this kind opens or closes a block. -/
def isBrace (kind : Kind) : Bool := kind = .symbol .openCurly || kind = .symbol .closeCurly

/-- Whether a token of this kind can stand in the middle of a statement without
blocks, or end it. -/
def isFlat (kind : Kind) : Bool := !kind.isBrace && kind ≠ .eof

theorem isBrace_eq_false_iff {kind : Kind} :
    kind.isBrace = false ↔ kind ≠ .symbol .openCurly ∧ kind ≠ .symbol .closeCurly := by
  simp [isBrace]

theorem isFlat_iff {kind : Kind} : kind.isFlat ↔ kind.isBrace = false ∧ kind ≠ .eof := by
  simp [isFlat]

theorem isFlat_of_inExpression {kind : Kind} (h : kind.inExpression) : kind.isFlat := by
  rw [isFlat_iff, isBrace_eq_false_iff]
  refine ⟨⟨?_, ?_⟩, ne_eof_of_inExpression h⟩ <;> (rintro rfl; cases h)

end Kind

/-! ## Matching braces -/

theorem nesting_concat (ts : List Token) (t : Token) :
    nesting (ts ++ [t]) = (nesting ts).step (t, ts.length) := by
  rw [nesting, List.zipIdx_append, List.foldl_append, Nat.zero_add]
  rfl

theorem openings_concat (ts : List Token) (t : Token) :
    openings (ts ++ [t]) =
      openings ts ++ if t.kind = .symbol .openCurly then [ts.length] else [] := by
  rw [openings, List.findIdxs_append, List.findIdxs_singleton, Nat.zero_add]
  simp [openings]

namespace Nesting

theorem step_of_isBrace_eq_false (n : Nesting) {t : Token} (h : t.kind.isBrace = false) (i : Nat) :
    n.step (t, i) = n := by
  rw [Kind.isBrace_eq_false_iff] at h
  rw [step, if_neg h.1, if_neg h.2]

theorem step_of_openCurly (n : Nesting) {t : Token} (h : t.kind = .symbol .openCurly) (i : Nat) :
    n.step (t, i) = ⟨n.pairs, i :: n.unmatched⟩ := by
  rw [step, if_pos h]

theorem step_of_closeCurly (n : Nesting) {t : Token} (h : t.kind = .symbol .closeCurly)
    (i : Nat) :
    n.step (t, i) =
      match n.unmatched with
      | [] => n
      | j :: js => ⟨n.pairs ++ [(j, i)], js⟩ := by
  rw [step, if_neg (by rw [h]; simp), if_pos h]

theorem pairs_prefix_step (n : Nesting) (t : Token × Nat) : n.pairs <+: (n.step t).pairs := by
  unfold step
  split
  · exact List.prefix_rfl
  · split
    · split
      · exact List.prefix_rfl
      · exact List.prefix_append _ _
    · exact List.prefix_rfl

end Nesting

/-- What has been closed stays closed. -/
theorem nesting_pairs_append (ts us : List Token) :
    (nesting ts).pairs <+: (nesting (ts ++ us)).pairs := by
  induction us using List.reverseRecOn with
  | nil => exact (List.append_nil ts).symm ▸ List.prefix_rfl
  | append_singleton us u ih =>
      rw [← List.append_assoc, nesting_concat]
      exact ih.trans (Nesting.pairs_prefix_step _ _)

/-- Tokens that are no braces do not count. -/
theorem nesting_append_of_isBrace_eq_false (ts : List Token) {us : List Token}
    (h : ∀ u ∈ us, u.kind.isBrace = false) :
    nesting (ts ++ us) = nesting ts ∧ openings (ts ++ us) = openings ts := by
  induction us using List.reverseRecOn with
  | nil => simp
  | append_singleton us u ih =>
      rw [List.forall_mem_append, List.forall_mem_singleton] at h
      obtain ⟨hn, ho⟩ := ih h.1
      rw [← List.append_assoc, nesting_concat, openings_concat, hn, ho]
      have hu := h.2
      rw [Kind.isBrace_eq_false_iff] at hu
      rw [Nesting.step_of_isBrace_eq_false _ h.2, if_neg hu.1, List.append_nil]
      exact ⟨rfl, rfl⟩

/-- A pair is an opening brace and a closing one behind it. -/
theorem nesting_spec (ts : List Token) :
    (∀ i ∈ (nesting ts).unmatched, ∃ t, ts[i]? = some t ∧ t.kind = .symbol .openCurly) ∧
      ∀ pair ∈ (nesting ts).pairs, pair.1 < pair.2 ∧
        (∃ t, ts[pair.1]? = some t ∧ t.kind = .symbol .openCurly) ∧
        ∃ t, ts[pair.2]? = some t ∧ t.kind = .symbol .closeCurly := by
  have hlater : ∀ {ts : List Token} {t : Token} {i : Nat} {kind : Kind},
      (∃ u, ts[i]? = some u ∧ u.kind = kind) → ∃ u, (ts ++ [t])[i]? = some u ∧ u.kind = kind := by
    rintro ts t i kind ⟨u, hu, hk⟩
    have hi : i < ts.length := (List.getElem?_eq_some_iff.mp hu).1
    exact ⟨u, by rw [List.getElem?_append_left hi, hu], hk⟩
  induction ts using List.reverseRecOn with
  | nil => simp [nesting]
  | append_singleton ts t ih =>
      have hlast : (ts ++ [t])[ts.length]? = some t := List.getElem?_concat_length
      have hunmatched := fun i hi => hlater (t := t) (ih.1 i hi)
      have hpairs := fun pair hpair => (ih.2 pair hpair).imp id
        (And.imp (hlater (t := t)) (hlater (t := t)))
      rw [nesting_concat]
      by_cases hopen : t.kind = .symbol .openCurly
      · rw [Nesting.step_of_openCurly _ hopen]
        exact ⟨List.forall_mem_cons.mpr ⟨⟨t, hlast, hopen⟩, hunmatched⟩, hpairs⟩
      by_cases hclose : t.kind = .symbol .closeCurly
      · rw [Nesting.step_of_closeCurly _ hclose]
        split
        · exact ⟨hunmatched, hpairs⟩
        · next i is hstack =>
            rw [hstack, List.forall_mem_cons] at hunmatched
            refine ⟨hunmatched.2, List.forall_mem_append.mpr ⟨hpairs, ?_⟩⟩
            refine List.forall_mem_singleton.mpr ⟨?_, hunmatched.1, t, hlast, hclose⟩
            obtain ⟨u, hu, -⟩ := ih.1 i (by rw [hstack]; exact List.mem_cons_self)
            exact (List.getElem?_eq_some_iff.mp hu).1
      · rw [Nesting.step_of_isBrace_eq_false _ (Kind.isBrace_eq_false_iff.mpr ⟨hopen, hclose⟩)]
        exact ⟨hunmatched, hpairs⟩

example : nesting (sourceTokens "\x7d \x7b \x7b \x7d \x7b" "a.x") = ⟨[(2, 3)], [4, 1]⟩ := by decide

/-! ## The blocks of a tree -/

mutual

/-- The blocks of a statement, those within other blocks included. -/
def Stmt.blocks : Stmt → List Block
  | .block block => block.blocks
  | .function _ _ _ _ body _ => body.blocks
  | .conditional branch => branch.blocks
  | .while_ _ _ body _ => body.blocks
  | .loop _ body _ => body.blocks
  | .expression .. | .declaration .. | .return_ .. => []

def Block.blocks : Block → List Block
  | .mk token body span => .mk token body span :: Stmt.blocksAll body

def Conditional.blocks : Conditional → List Block
  | .mk _ _ body otherwise _ => body.blocks ++ otherwise.blocks

def Otherwise.blocks : Otherwise → List Block
  | .nothing => []
  | .block block => block.blocks
  | .elif branch => branch.blocks

def Stmt.blocksAll : List Stmt → List Block
  | [] => []
  | s :: ss => s.blocks ++ Stmt.blocksAll ss

end

/-- The blocks of a program at any depth. -/
def Program.blocks (program : Program) : List Block := Stmt.blocksAll program.statements

/-! ## The blocks of a parse -/

/-- Whether the diagnostic is that of a block without a closing brace. -/
def Diagnostic.missesBrace (d : Diagnostic) : Bool :=
  match d.cause with
  | .unexpectedToken expected _ => expected = .symbol .closeCurly
  | _ => false

namespace Parser

/-- How blocks were entered or left so far, oldest first. -/
def blockEvents (p : Parser) (stage : Stage) : List Event :=
  (p.trail.filter fun e => e.production = .block ∧ e.stage = stage).reverse

@[simp]
theorem blockEvents_advance (p : Parser) : p.advance.blockEvents = p.blockEvents := rfl

@[simp]
theorem blockEvents_record (p : Parser) (d : Diagnostic) :
    (p.record d).blockEvents = p.blockEvents := rfl

theorem blockEvents_note_of_ne {production : Production} (h : production ≠ .block) (p : Parser)
    (stage : Stage) (entry : Mark) :
    (p.note production stage entry).blockEvents = p.blockEvents := by
  funext stage'
  simp [blockEvents, note, h]

theorem blockEvents_note (p : Parser) (stage stage' : Stage) (entry : Mark) :
    (p.note .block stage entry).blockEvents stage' =
      p.blockEvents stage' ++ if stage = stage' then [⟨.block, stage, entry, p.mark⟩] else [] := by
  by_cases h : stage = stage'
  · simp [blockEvents, note, h]
  · simp [blockEvents, note, h]

end Parser

/-- A parser in front of the tokens of a source. -/
structure Parser.Fresh (o : Parser) : Prop where
  plain : o.Plain
  index : o.index = 0
  faults : o.faults = []
  trail : o.trail = []
  /-- Behind the end comes nothing else. -/
  lasting : ∀ i j, i ≤ j → (o.upcoming.get i).kind = .eof → (o.upcoming.get j).kind = .eof
  start_injective : ∀ i j, (o.upcoming.get i).kind ≠ .eof → (o.upcoming.get j).kind ≠ .eof →
    (o.upcoming.get i).span.start = (o.upcoming.get j).span.start →
    o.upcoming.get i = o.upcoming.get j

/-- What a parse has noted about blocks fits the tokens `ts` it has passed and the
diagnostics `ds` it has recorded, when it is in the blocks that the braces at
`base` have opened. -/
structure Tally (base : List Nat) (ts : List Token) (ds : List Diagnostic) (p : Parser) :
    Prop where
  entered : (p.blockEvents .entered).map (·.entry.index) = openings ts
  completed : (p.blockEvents .completed).map (fun e => (e.entry.index, e.here.index)) =
    (nesting ts).pairs
  abandoned : (p.blockEvents .abandoned).map (·.entry.index) ++ base = (nesting ts).unmatched
  missing : (p.blockEvents .abandoned).length = ds.countP (·.missesBrace)
  /-- Blocks are given up at the end only. -/
  ended : p.current.kind ≠ .eof → p.blockEvents .abandoned = []

/-- The parse that has started in `o` is in the blocks that the braces at `base`
have opened, innermost first, and has kept to the nesting of braces so far. -/
def Nested (o : Parser) (base : List Nat) (p : Parser) : Prop :=
  ∃ ts ds, Walk ts ds o p ∧ Tally base ts ds p

/-- The block reaches from an opening brace to the one that closes it. -/
def Fitted (o : Parser) (block : Block) : Prop :=
  ∃ ts rest, o.upcoming = ts ++ₛ rest ∧ ∃ pair ∈ (nesting ts).pairs,
    block.token = o.upcoming.get pair.1 ∧
      block.span = ⟨block.token.span.start, (o.upcoming.get pair.2).span.stop⟩

theorem Walk.get_upcoming {ts : List Token} {ds : List Diagnostic} {p q : Parser}
    (h : Walk ts ds p q) (i : Nat) :
    p.upcoming.get (ts.length + i) = q.upcoming.get i := by
  rw [h.upcoming, Stream'.get_append_right]

/-- A note is no step over a token. -/
theorem Walk.noted (p : Parser) (production : Production) (stage : Stage) (entry : Mark) :
    Walk [] [] p (p.note production stage entry) :=
  ⟨rfl, (List.append_nil _).symm, List.forall_mem_nil _, rfl, rfl, rfl, rfl⟩

namespace Nested

variable {o p q : Parser} {base : List Nat}

theorem plain (ho : o.Fresh) (h : Nested o base p) : p.Plain := by
  obtain ⟨ts, ds, hw, -⟩ := h
  exact hw.plain ho.plain

/-- The current token is the one that the number of moves counts up to. -/
theorem current_eq (ho : o.Fresh) (h : Nested o base p) : p.current = o.upcoming.get p.index := by
  obtain ⟨ts, ds, hw, -⟩ := h
  rw [hw.index, ho.index, Nat.zero_add]
  exact (hw.get_upcoming 0).symm

theorem lasting (ho : o.Fresh) (h : Nested o base p) (hp : p.current.kind = .eof) (i : Nat) :
    (p.upcoming.get i).kind = .eof := by
  obtain ⟨ts, ds, hw, -⟩ := h
  rw [← hw.get_upcoming i]
  refine ho.lasting _ _ (Nat.le_add_right _ _) ?_
  have h := hw.get_upcoming 0
  rw [Nat.add_zero] at h
  rw [h]
  exact hp

/-- No block has been given up in front of the end. -/
theorem whole (h : Nested o base p) (hp : p.current.kind ≠ .eof) :
    p.blockEvents .abandoned = [] := by
  obtain ⟨ts, ds, -, ht⟩ := h
  exact ht.ended hp

theorem refl (ho : o.Fresh) : Nested o [] o := by
  refine ⟨[], [], .refl o, ?_⟩
  constructor <;> simp [Parser.blockEvents, ho.trail, openings, nesting]

/-- Passing tokens that are no braces. -/
theorem walk (ho : o.Fresh) (h : Nested o base p) {us : List Token} (hw : Walk us [] p q)
    (hus : ∀ u ∈ us, u.kind.isBrace = false) (hblocks : q.blockEvents = p.blockEvents) :
    Nested o base q := by
  have hended : q.current.kind ≠ .eof → p.current.kind ≠ .eof := by
    intro hq hp
    refine hq ?_
    have := h.lasting ho hp us.length
    have hget := hw.get_upcoming 0
    rw [Nat.add_zero] at hget
    rwa [hget] at this
  obtain ⟨ts, ds, hw', ht⟩ := h
  obtain ⟨hnesting, hopenings⟩ := nesting_append_of_isBrace_eq_false ts hus
  refine ⟨ts ++ us, ds ++ [], hw'.trans hw, ?_⟩
  rw [List.append_nil]
  exact {
    entered := by rw [hblocks, hopenings, ht.entered]
    completed := by rw [hblocks, hnesting, ht.completed]
    abandoned := by rw [hblocks, hnesting, ht.abandoned]
    missing := by rw [hblocks, ht.missing]
    ended := fun hq => by rw [hblocks, ht.ended (hended hq)] }

theorem pass (ho : o.Fresh) (h : Nested o base p) (hp : p.current.kind.isBrace = false) :
    Nested o base p.advance :=
  h.walk ho (.advance p) (List.forall_mem_singleton.mpr hp) rfl

/-- Notes about other productions do not count. -/
theorem note (h : Nested o base p) {production : Production} (hne : production ≠ .block)
    (stage : Stage) (entry : Mark) : Nested o base (p.note production stage entry) := by
  obtain ⟨ts, ds, hw, ht⟩ := h
  have hblocks := Parser.blockEvents_note_of_ne hne p stage entry
  have hw := hw.trans (.noted p production stage entry)
  simp only [List.append_nil] at hw
  refine ⟨ts, ds, hw, ?_⟩
  constructor <;> rw [hblocks]
  · exact ht.entered
  · exact ht.completed
  · exact ht.abandoned
  · exact ht.missing
  · exact ht.ended

theorem record (h : Nested o base p) {d : Diagnostic} (hd : d.cause.isLexical = false)
    (hm : d.missesBrace = false) : Nested o base (p.record d) := by
  obtain ⟨ts, ds, hw, ht⟩ := h
  have hw := hw.trans (.record p hd)
  rw [List.append_nil] at hw
  refine ⟨ts, ds ++ [d], hw, ht.entered, ht.completed, ht.abandoned, ?_, ht.ended⟩
  rw [List.countP_append, List.countP_singleton, hm]
  exact ht.missing

/-- Entering a block on its opening brace. -/
theorem enter (ho : o.Fresh) (h : Nested o base p) (hp : p.current.kind = .symbol .openCurly) :
    Nested o (p.index :: base) (p.note .block .entered p.mark).advance := by
  obtain ⟨ts, ds, hw, ht⟩ := h
  have hindex : p.index = ts.length := by rw [hw.index, ho.index, Nat.zero_add]
  have hnone := ht.ended (by rw [hp]; simp)
  have hunmatched := ht.abandoned
  rw [hnone, List.map_nil, List.nil_append] at hunmatched
  have hw := (hw.trans (.noted p .block .entered p.mark)).trans (.advance _)
  simp only [List.append_nil] at hw
  refine ⟨ts ++ [p.current], ds, hw, ?_⟩
  constructor <;>
    simp only [nesting_concat, openings_concat, Nesting.step_of_openCurly _ hp,
      Parser.blockEvents_advance, Parser.blockEvents_note, if_pos hp, reduceCtorEq, if_false,
      List.append_nil]
  · simp [ht.entered, Parser.mark, hindex]
  · exact ht.completed
  · rw [hnone, hunmatched, hindex]
    rfl
  · exact ht.missing
  · exact fun _ => hnone

/-- Leaving a block on its closing brace. -/
theorem leave (ho : o.Fresh) {entry : Mark} (h : Nested o (entry.index :: base) p)
    (hp : p.current.kind = .symbol .closeCurly) :
    Nested o base (p.note .block .completed entry).advance ∧
      ∀ body, Fitted o (.mk (o.upcoming.get entry.index) body
        ⟨(o.upcoming.get entry.index).span.start, p.current.span.stop⟩) := by
  have hcurrent := h.current_eq ho
  obtain ⟨ts, ds, hw, ht⟩ := h
  have hindex : p.index = ts.length := by rw [hw.index, ho.index, Nat.zero_add]
  have hnone := ht.ended (by rw [hp]; simp)
  have hunmatched := ht.abandoned
  rw [hnone, List.map_nil, List.nil_append] at hunmatched
  have hstep : nesting (ts ++ [p.current]) =
      ⟨(nesting ts).pairs ++ [(entry.index, p.index)], base⟩ := by
    rw [nesting_concat, Nesting.step_of_closeCurly _ hp, ← hunmatched, hindex]
  have hw := (hw.trans (.noted p .block .completed entry)).trans (.advance _)
  simp only [List.append_nil] at hw
  refine ⟨⟨ts ++ [p.current], ds, hw, ?_⟩, fun body => ?_⟩
  · constructor <;>
      simp only [hstep, openings_concat, hp, Parser.blockEvents_advance,
        Parser.blockEvents_note, reduceCtorEq, if_true, if_false, List.append_nil,
        Kind.symbol.injEq]
    · exact ht.entered
    · simp [ht.completed, Parser.mark]
    · rw [hnone]
      rfl
    · exact ht.missing
    · exact fun _ => hnone
  · refine ⟨ts ++ [p.current], _, hw.upcoming, (entry.index, p.index), ?_, rfl, ?_⟩
    · rw [hstep]
      exact List.mem_append_right _ (List.mem_singleton_self _)
    · rw [hcurrent]
      rfl

/-- Leaving a block at the end of the input, and recording that its closing brace
is missing. -/
theorem abandon {entry : Mark} (h : Nested o (entry.index :: base) p)
    (hp : p.current.kind = .eof) {d : Diagnostic} (hd : d.cause.isLexical = false)
    (hm : d.missesBrace) : Nested o base ((p.note .block .abandoned entry).record d) := by
  obtain ⟨ts, ds, hw, ht⟩ := h
  have hw := (hw.trans (.noted p .block .abandoned entry)).trans (.record _ hd)
  simp only [List.append_nil] at hw
  refine ⟨ts, ds ++ [d], hw, ?_⟩
  constructor <;>
    simp only [Parser.blockEvents_record, Parser.blockEvents_note, reduceCtorEq, if_true, if_false,
      List.append_nil, List.map_append, List.map_cons, List.map_nil, List.append_assoc]
  · exact ht.entered
  · exact ht.completed
  · exact ht.abandoned
  · simp [ht.missing, hm]
  · exact fun hne => absurd hp hne

/-- Outside of blocks a closing brace closes nothing. -/
theorem stray (h : Nested o [] p) (hp : p.current.kind = .symbol .closeCurly) :
    Nested o [] p.advance := by
  obtain ⟨ts, ds, hw, ht⟩ := h
  have hnone := ht.ended (by rw [hp]; simp)
  have hunmatched := ht.abandoned
  rw [hnone, List.map_nil, List.nil_append] at hunmatched
  have hstep : nesting (ts ++ [p.current]) = nesting ts := by
    rw [nesting_concat, Nesting.step_of_closeCurly _ hp, ← hunmatched]
  have hw := hw.trans (.advance p)
  rw [List.append_nil] at hw
  refine ⟨ts ++ [p.current], ds, hw, ?_⟩
  constructor <;>
    simp only [hstep, openings_concat, hp, Parser.blockEvents_advance, reduceCtorEq, if_false,
      List.append_nil, Kind.symbol.injEq]
  · exact ht.entered
  · exact ht.completed
  · rw [← ht.abandoned, List.append_nil]
  · exact ht.missing
  · exact fun _ => hnone

end Nested

end Frontend
