import Frontend.Proofs.Along
import Frontend.Proofs.Lockstep
import Frontend.Proofs.Relabel

/-!
# Two inputs that part

Two parsers are compared here. Their inputs have the same tokens up to some
point, except that these may stand in other places; behind that point, the seam,
the first input ends and the second one goes on. The question is how long the
first parser fails to notice.

It would notice at the last shared token, where the lookahead is the end for the
one and the first token behind the seam for the other. Two things keep it from
that. If the last shared token is a semicolon or a closing brace, no production
looks behind it, but for a conditional that is not in a block
(`Seam.Exposed`). If the first token behind the seam is a word that starts a
statement, or the end of the second input, a production looks at it, but has no
more use for it than for the end (`Seam.quiet`).

A block would notice as well, since it needs its closing brace from the input.
So the braces must be balanced at the seam, unless the second input ends there
too.

`Linked` is the relation of the two parsers in the middle of a statement, and
`Linked.next` and its companions say when a step keeps it. `Fault` relates their
complaints: as long as the parsers see the same, these name the same token.
-/

namespace Frontend

/-- How many braces are open behind the tokens, when so many are open in front
of them. A closing brace without a partner does not count. -/
def openBraces (depth : Nat) : List Token → Nat
  | [] => depth
  | t :: ts =>
      if t.kind = .symbol .openCurly then openBraces (depth + 1) ts
      else if t.kind = .symbol .closeCurly then openBraces (depth - 1) ts
      else openBraces depth ts

namespace Kind

/-- Whether the kind is that of a word that starts a statement. -/
def isStmtKeyword : Kind → Bool
  | keyword .var | keyword .const | keyword .return_ | keyword .fn | keyword .if_
  | keyword .while_ | keyword .loop => true
  | _ => false

/-- Whether a token of this kind is of no use behind a token of a statement. -/
def isQuiet (kind : Kind) : Bool := kind = .eof || kind.isStmtKeyword

/-- Whether a statement can go on behind a token of this kind within the same
block. -/
def isInner (kind : Kind) : Bool :=
  kind ≠ .eof && kind ≠ .symbol .semicolon && kind ≠ .symbol .openCurly &&
    kind ≠ .symbol .closeCurly

theorem isInner_iff {kind : Kind} :
    kind.isInner ↔ kind ≠ .eof ∧ kind ≠ .symbol .semicolon ∧ kind ≠ .symbol .openCurly ∧
      kind ≠ .symbol .closeCurly := by
  simp [isInner, and_assoc]

theorem ne_eof_of_isInner {kind : Kind} (h : kind.isInner) : kind ≠ .eof :=
  (isInner_iff.mp h).1

theorem stmtRule?_isSome_of_isStmtKeyword {kind : Kind} (h : kind.isStmtKeyword) :
    kind.stmtRule?.isSome := by
  unfold isStmtKeyword at h
  split at h <;> first | rfl | cases h

theorem prefixRule?_of_isQuiet {kind : Kind} (h : kind.isQuiet) : kind.prefixRule? = none := by
  cases kind with
  | keyword k => cases k <;> first | rfl | cases h
  | eof | illegal | comment | type => rfl
  | identifier | number | symbol => cases h

theorem infixRule?_of_isQuiet {kind : Kind} (h : kind.isQuiet) : kind.infixRule? = none := by
  cases kind with
  | symbol => cases h
  | _ => rfl

theorem primitiveType?_of_isQuiet {kind : Kind} (h : kind.isQuiet) :
    kind.primitiveType? = none := by
  cases kind with
  | type => cases h
  | _ => rfl

theorem isInner_of_prefixRule? {kind : Kind} {rule : PrefixRule}
    (h : kind.prefixRule? = some rule) : kind.isInner := by
  rw [isInner_iff]
  refine ⟨?_, ?_, ?_, ?_⟩ <;> (rintro rfl; cases h)

theorem isInner_of_infixRule? {kind : Kind} {rule : Power × InfixRule}
    (h : kind.infixRule? = some rule) : kind.isInner := by
  rw [isInner_iff]
  refine ⟨?_, ?_, ?_, ?_⟩ <;> (rintro rfl; cases h)

end Kind

/-- The place where two inputs part. -/
structure Seam where
  /-- Where in the second input a span starts that starts at a position in the
  first one. -/
  start : Position → Position
  /-- Where in the second input a span ends that ends at a position in the first
  one. -/
  stop : Position → Position
  /-- The tokens in front of the seam, as they are in the first input. -/
  shared : List Token
  /-- The first input behind the seam, forever. -/
  last : Token
  /-- The second input behind the seam. -/
  rest : Stream' Token
  /-- How far the second parser is when it has come to the seam. -/
  edge : Nat
  /-- The diagnostics of the productions that had failed in the second input
  already. -/
  surplus : List Diagnostic
  /-- What comes behind the seam is of no use to a statement in front of it. -/
  quiet : Prop
  last_kind : last.kind = .eof
  kind_ne_eof : ∀ t ∈ shared, t.kind ≠ .eof
  start_injective : ∀ t ∈ shared, ∀ u ∈ shared, start t.span.start = start u.span.start → t = u
  start_ne : quiet → rest.head.kind.isStmtKeyword →
    ∀ t ∈ shared, start t.span.start ≠ rest.head.span.start
  quiet_cases : quiet → rest.head.kind.isStmtKeyword ∨ rest.head.kind = .eof ∧ rest.tail = rest

namespace Seam

variable (w : Seam)

/-- From the trees of the first input to those of the second. -/
def label : Relabelling := .placed w.start w.stop

/-- The second input ends at the seam, too. -/
def Final : Prop := w.quiet ∧ w.rest.head.kind = .eof

/-- If a production can come to see what is behind the seam, it sees the same in
both inputs. -/
def Sharp : Prop :=
  w.quiet → w.rest.head.kind = .eof ∧ w.rest.head.span.start = w.start w.last.span.start

/-- No production that stands on the first of these tokens looks at the seam and
makes use of it, but for a conditional that has come to its last token. -/
def Guarded (us : List Token) : Prop :=
  w.quiet ∨ ∃ t, us.getLast? = some t ∧
    (t.kind = .symbol .semicolon ∨ t.kind = .symbol .closeCurly)

/-- Outside of blocks, a conditional may have its last token in front of the seam
and look behind it. -/
def Exposed (depth : Nat) : Prop :=
  depth = 0 ∧ ¬ w.quiet ∧ ∃ t, w.shared.getLast? = some t ∧ t.kind = .symbol .closeCurly

/-- No block that is open in front of these tokens needs what is behind the
seam. -/
def Balanced (depth : Nat) (us : List Token) : Prop := w.Final ∨ openBraces depth us = 0

/-- The diagnostics of two failed productions say the same of the same token. -/
def Fault (d d' : Diagnostic) : Prop :=
  w.Sharp → (∃ t ∈ w.shared ++ [w.last], d.position = t.span.start) ∧
    d' = ⟨d.cause, w.start d.position⟩

/-- Two parsers have the tokens `us` in front of the seam. -/
structure Before (us : List Token) (p q : Parser) : Prop where
  plain : p.Plain
  plain' : q.Plain
  upcoming : p.upcoming = us ++ₛ Stream'.const w.last
  upcoming' : q.upcoming = us.map w.label.token ++ₛ w.rest
  isSuffix : us <:+ w.shared
  index : ¬ w.quiet → q.index + us.length = w.edge
  faults : ∃ ds, q.faults = w.surplus ++ ds ∧ List.Forall₂ w.Fault p.faults ds

/-- Two parsers are in the middle of a statement in front of the seam, or have
both come to it. -/
def Linked (depth : Nat) (p q : Parser) : Prop :=
  ∃ us, w.Before us p q ∧ w.Guarded us ∧ w.Balanced depth us

/-- Two parsers are between statements in front of the seam, or have both come
to it. -/
def Between (depth : Nat) (p q : Parser) : Prop :=
  ∃ us, w.Before us p q ∧ (us = [] ∨ w.Guarded us) ∧ w.Balanced depth us

/-- Two productions have been rejected in front of the seam. -/
def Rejected (depth : Nat) (d : Diagnostic) (p : Parser) (d' : Diagnostic) (q : Parser) : Prop :=
  w.Fault d d' ∧ w.Linked depth p q

end Seam

variable {w : Seam}

namespace Seam

theorem Final.tail (h : w.Final) : w.rest.tail = w.rest := by
  rcases w.quiet_cases h.1 with hkeyword | ⟨-, htail⟩
  · rw [h.2] at hkeyword
    cases hkeyword
  · exact htail

theorem isQuiet_head (h : w.quiet) : w.rest.head.kind.isQuiet := by
  rw [Kind.isQuiet]
  rcases w.quiet_cases h with hkeyword | ⟨heof, -⟩
  · simp [hkeyword]
  · simp [heof]

theorem Guarded.quiet (h : w.Guarded []) : w.quiet := by
  rcases h with h | ⟨t, ht, -⟩
  · exact h
  · cases ht

/-- The token that keeps the productions from the seam is the last one. -/
theorem Guarded.tail_or {t : Token} {us : List Token} (h : w.Guarded (t :: us)) :
    us = [] ∨ w.Guarded us := by
  rcases h with h | ⟨u, hu, hk⟩
  · exact .inr (.inl h)
  · cases us with
    | nil => exact .inl rfl
    | cons v vs => exact .inr (.inr ⟨u, by rwa [List.getLast?_cons_cons] at hu, hk⟩)

theorem Guarded.tail {t : Token} {us : List Token} (h : w.Guarded (t :: us))
    (hs : t.kind ≠ .symbol .semicolon) (hc : t.kind ≠ .symbol .closeCurly) : w.Guarded us := by
  rcases h with h | ⟨u, hu, hk⟩
  · exact .inl h
  · cases us with
    | nil =>
        obtain rfl : t = u := by simpa using hu
        exact absurd hk (not_or.mpr ⟨hs, hc⟩)
    | cons v vs => exact .inr ⟨u, by rwa [List.getLast?_cons_cons] at hu, hk⟩

theorem Balanced.tail {depth : Nat} {t : Token} {us : List Token}
    (h : w.Balanced depth (t :: us)) (ho : t.kind ≠ .symbol .openCurly)
    (hc : t.kind ≠ .symbol .closeCurly) : w.Balanced depth us := by
  rwa [Balanced, openBraces, if_neg ho, if_neg hc] at h

theorem Balanced.enter {depth : Nat} {t : Token} {us : List Token}
    (h : w.Balanced depth (t :: us)) (ht : t.kind = .symbol .openCurly) :
    w.Balanced (depth + 1) us := by
  rwa [Balanced, openBraces, if_pos ht] at h

theorem Balanced.leave {depth : Nat} {t : Token} {us : List Token}
    (h : w.Balanced depth (t :: us)) (ht : t.kind = .symbol .closeCurly) :
    w.Balanced (depth - 1) us := by
  rwa [Balanced, openBraces, if_neg (by simp [ht]), if_pos ht] at h

namespace Before

theorem cons {t : Token} {us : List Token} {p q : Parser} (h : w.Before (t :: us) p q) :
    p.current = t ∧ q.current = w.label.token t ∧ w.Before us p.advance q.advance := by
  obtain ⟨hcurrent, hu⟩ := Parser.of_upcoming_eq_cons h.upcoming
  obtain ⟨hcurrent', hu'⟩ := Parser.of_upcoming_eq_cons h.upcoming'
  refine ⟨hcurrent, hcurrent', h.plain.advance, h.plain'.advance, hu, hu', ?_, ?_, ?_⟩
  · exact (List.suffix_cons t us).trans h.isSuffix
  · intro hquiet
    have := h.index hquiet
    rw [List.length_cons] at this
    rw [Parser.advance_index]
    omega
  · rw [Parser.faults_advance, Parser.faults_advance]
    exact h.faults

theorem mem {us : List Token} {p q : Parser} (h : w.Before us p q) {t : Token} (ht : t ∈ us) :
    t ∈ w.shared :=
  h.isSuffix.subset ht

theorem kind_ne_eof {t : Token} {us : List Token} {p q : Parser} (h : w.Before (t :: us) p q) :
    p.current.kind ≠ .eof := by
  rw [h.cons.1]
  exact w.kind_ne_eof t (h.mem List.mem_cons_self)

theorem nil {p q : Parser} (h : w.Before [] p q) :
    p.current = w.last ∧ q.current = w.rest.head :=
  ⟨congrArg Stream'.head h.upcoming, congrArg Stream'.head h.upcoming'⟩

theorem eof {p q : Parser} (h : w.Before [] p q) : p.current.kind = .eof := by
  rw [h.nil.1, w.last_kind]

theorem eq_nil_iff {us : List Token} {p q : Parser} (h : w.Before us p q) :
    us = [] ↔ p.current.kind = .eof := by
  cases us with
  | nil => simp [h.eof]
  | cons t us => simp [h.kind_ne_eof]

theorem exists_cons {us : List Token} {p q : Parser} (h : w.Before us p q)
    (hp : p.current.kind ≠ .eof) : ∃ vs, us = p.current :: vs := by
  cases us with
  | nil => exact absurd h.eof hp
  | cons t us => exact ⟨us, by rw [h.cons.1]⟩

theorem faults_length {us : List Token} {p q : Parser} (h : w.Before us p q) :
    q.faults.length = w.surplus.length + p.faults.length := by
  obtain ⟨ds, hds, hfaults⟩ := h.faults
  rw [hds, List.length_append, hfaults.length_eq]

/-- At the seam a parser can go on reading the end, if it has come to it. -/
theorem advance_left {p q : Parser} (h : w.Before [] p q) : w.Before [] p.advance q := by
  refine ⟨h.plain.advance, h.plain', ?_, h.upcoming', h.isSuffix, h.index, ?_⟩
  · have htail := congrArg Stream'.tail h.upcoming
    rwa [Parser.upcoming_eq_cons, Stream'.tail_cons] at htail
  · rw [Parser.faults_advance]
    exact h.faults

theorem advance_right {p q : Parser} (h : w.Before [] p q) (hw : w.Final) :
    w.Before [] p q.advance := by
  refine ⟨h.plain, h.plain'.advance, h.upcoming, ?_, h.isSuffix, ?_, ?_⟩
  · have htail := congrArg Stream'.tail h.upcoming'
    rw [Parser.upcoming_eq_cons, Stream'.tail_cons] at htail
    exact htail.trans hw.tail
  · exact fun hquiet => absurd hw.1 hquiet
  · rw [Parser.faults_advance]
    exact h.faults

theorem note {us : List Token} {p q : Parser} (h : w.Before us p q)
    {production : Production} {stage stage' : Stage} {entry entry' : Mark} :
    w.Before us (p.note production stage entry) (q.note production stage' entry') :=
  ⟨⟨h.plain.rules, h.plain.resume⟩, ⟨h.plain'.rules, h.plain'.resume⟩, h.upcoming, h.upcoming',
    h.isSuffix, h.index, h.faults⟩

theorem record {us : List Token} {p q : Parser} (h : w.Before us p q) {d d' : Diagnostic}
    (hd : w.Fault d d') : w.Before us (p.record d) (q.record d') := by
  refine ⟨⟨h.plain.rules, h.plain.resume⟩, ⟨h.plain'.rules, h.plain'.resume⟩, h.upcoming,
    h.upcoming', h.isSuffix, h.index, ?_⟩
  obtain ⟨ds, hds, hfaults⟩ := h.faults
  refine ⟨ds ++ [d'], ?_, ?_⟩
  · rw [Parser.faults_record, hds, List.append_assoc]
  · rw [Parser.faults_record]
    exact List.rel_append hfaults (.cons hd .nil)

end Before

end Seam

/-! ## In the middle of a statement -/

namespace Seam.Linked

variable {depth : Nat} {p q : Parser}

theorem plain (h : w.Linked depth p q) : p.Plain ∧ q.Plain := by
  obtain ⟨us, hus, -⟩ := h
  exact ⟨hus.plain, hus.plain'⟩

theorem mem (h : w.Linked depth p q) (hp : p.current.kind ≠ .eof) : p.current ∈ w.shared := by
  obtain ⟨us, hus, -⟩ := h
  obtain ⟨vs, rfl⟩ := hus.exists_cons hp
  exact hus.mem List.mem_cons_self

theorem current (h : w.Linked depth p q) (hp : p.current.kind ≠ .eof) :
    q.current = w.label.token p.current := by
  obtain ⟨us, hus, -⟩ := h
  obtain ⟨vs, rfl⟩ := hus.exists_cons hp
  exact hus.cons.2.1

theorem isQuiet (h : w.Linked depth p q) (hp : p.current.kind = .eof) :
    q.current.kind.isQuiet := by
  obtain ⟨us, hus, hguard, -⟩ := h
  obtain rfl := hus.eq_nil_iff.mpr hp
  rw [hus.nil.2]
  exact w.isQuiet_head hguard.quiet

/-- Neither parser can tell where it is by a property that what is of no use has
in common with the end. -/
theorem map_kind {α : Type} (h : w.Linked depth p q) (f : Kind → α)
    (hf : ∀ kind : Kind, kind.isQuiet → f kind = f .eof) : f q.current.kind = f p.current.kind := by
  by_cases hp : p.current.kind = .eof
  · rw [hp, hf _ (h.isQuiet hp)]
  · rw [h.current hp]
    rfl

theorem kind_eq_iff (h : w.Linked depth p q) {kind : Kind} (hk : kind.isQuiet = false) :
    q.current.kind = kind ↔ p.current.kind = kind := by
  refine iff_of_eq (h.map_kind (· = kind) fun k hquiet => ?_)
  have hne : ∀ k : Kind, k.isQuiet → k ≠ kind := by
    rintro k hquiet rfl
    rw [hk] at hquiet
    cases hquiet
  rw [eq_false (hne k hquiet), eq_false (hne .eof rfl)]

/-- What the parsers complain of is the token that they stand on. -/
theorem fault (h : w.Linked depth p q) (f : Kind → Cause) :
    w.Fault ⟨f p.current.kind, p.current.span.start⟩ ⟨f q.current.kind, q.current.span.start⟩ := by
  intro hsharp
  obtain ⟨us, hus, hguard, -⟩ := h
  cases us with
  | nil =>
      obtain ⟨hcurrent, hcurrent'⟩ := hus.nil
      obtain ⟨heof, hstart⟩ := hsharp hguard.quiet
      rw [hcurrent, hcurrent', heof, hstart, w.last_kind]
      exact ⟨⟨w.last, by simp, rfl⟩, rfl⟩
  | cons t us =>
      obtain ⟨hcurrent, hcurrent', -⟩ := hus.cons
      rw [hcurrent, hcurrent']
      exact ⟨⟨t, List.mem_append_left _ (hus.mem List.mem_cons_self), rfl⟩, rfl⟩

theorem next (h : w.Linked depth p q) (hp : p.current.kind.isInner) :
    w.Linked depth p.advance q.advance := by
  obtain ⟨us, hus, hguard, hbalanced⟩ := h
  obtain ⟨hne, hs, ho, hc⟩ := Kind.isInner_iff.mp hp
  obtain ⟨vs, rfl⟩ := hus.exists_cons hne
  exact ⟨vs, hus.cons.2.2, hguard.tail hs hc, hbalanced.tail ho hc⟩

theorem enter (h : w.Linked depth p q) (hp : p.current.kind = .symbol .openCurly) :
    w.Linked (depth + 1) p.advance q.advance := by
  obtain ⟨us, hus, hguard, hbalanced⟩ := h
  obtain ⟨vs, rfl⟩ := hus.exists_cons (by simp [hp])
  exact ⟨vs, hus.cons.2.2, hguard.tail (by simp [hp]) (by simp [hp]), hbalanced.enter hp⟩

/-- A step out of a block, or over a stray closing brace, may cross the seam. -/
theorem leave (h : w.Linked depth p q) (hp : p.current.kind = .symbol .closeCurly) :
    w.Between (depth - 1) p.advance q.advance := by
  obtain ⟨us, hus, hguard, hbalanced⟩ := h
  obtain ⟨vs, rfl⟩ := hus.exists_cons (by simp [hp])
  exact ⟨vs, hus.cons.2.2, hguard.tail_or, hbalanced.leave hp⟩

/-- A step over a semicolon may cross the seam. -/
theorem pass (h : w.Linked depth p q) (hp : p.current.kind = .symbol .semicolon) :
    w.Between depth p.advance q.advance := by
  obtain ⟨us, hus, hguard, hbalanced⟩ := h
  obtain ⟨vs, rfl⟩ := hus.exists_cons (by simp [hp])
  exact ⟨vs, hus.cons.2.2, hguard.tail_or, hbalanced.tail (by simp [hp]) (by simp [hp])⟩

theorem between (h : w.Linked depth p q) : w.Between depth p q := by
  obtain ⟨us, hus, hguard, hbalanced⟩ := h
  exact ⟨us, hus, .inr hguard, hbalanced⟩

/-- In a block only the common end of both inputs can be reached. -/
theorem final (h : w.Linked (depth + 1) p q) (hp : p.current.kind = .eof) :
    w.Final ∧ q.current.kind = .eof := by
  obtain ⟨us, hus, -, hbalanced⟩ := h
  obtain rfl := hus.eq_nil_iff.mpr hp
  rcases hbalanced with hfinal | hdepth
  · exact ⟨hfinal, by rw [hus.nil.2, hfinal.2]⟩
  · cases hdepth

/-- At the common end of both inputs it does not matter how many blocks are
open. -/
theorem of_final (h : w.Linked depth p q) (hw : w.Final) (depth' : Nat) :
    w.Linked depth' p q := by
  obtain ⟨us, hus, hguard, -⟩ := h
  exact ⟨us, hus, hguard, .inl hw⟩

theorem note (h : w.Linked depth p q) {production : Production} {stage stage' : Stage}
    {entry entry' : Mark} :
    w.Linked depth (p.note production stage entry) (q.note production stage' entry') := by
  obtain ⟨us, hus, hrest⟩ := h
  exact ⟨us, hus.note, hrest⟩

theorem record (h : w.Linked depth p q) {d d' : Diagnostic} (hd : w.Fault d d') :
    w.Linked depth (p.record d) (q.record d') := by
  obtain ⟨us, hus, hrest⟩ := h
  exact ⟨us, hus.record hd, hrest⟩

end Seam.Linked

namespace Seam.Between

variable {depth : Nat} {p q : Parser}

theorem linked (h : w.Between depth p q) (hp : p.current.kind ≠ .eof) : w.Linked depth p q := by
  obtain ⟨us, hus, hguard, hbalanced⟩ := h
  obtain ⟨vs, rfl⟩ := hus.exists_cons hp
  exact ⟨_, hus, hguard.resolve_left (by simp), hbalanced⟩

/-- In a block the seam is never crossed. -/
theorem linked_of_pos (h : w.Between (depth + 1) p q) : w.Linked (depth + 1) p q := by
  obtain ⟨us, hus, rfl | hguard, hbalanced⟩ := h
  · rcases hbalanced with hfinal | hdepth
    · exact ⟨[], hus, .inl hfinal.1, .inl hfinal⟩
    · cases hdepth
  · exact ⟨us, hus, hguard, hbalanced⟩

end Seam.Between

/-! ## Across the seam -/

namespace Seam

variable {depth : Nat} {p q : Parser} {α β γ δ : Type}

/-- If the production gives a result, it has come across the seam. -/
def Crosses (w : Seam) (y : ParseM β) (q : Parser) : Prop :=
  ∀ b q', y q = .ok b q' → w.edge ≤ q'.index

/-- The productions are in lockstep, unless the second one is a conditional that
goes on behind the seam. -/
def Abreast (w : Seam) (depth : Nat) (x : ParseM α) (y : ParseM β) (p q : Parser)
    (ok : α → Parser → β → Parser → Prop) (err : Rejections) : Prop :=
  Related x y p q ok err ∨ w.Exposed depth ∧ w.Crosses y q

theorem not_exposed_succ : ¬ w.Exposed (depth + 1) := fun h => by cases h.1

/-- A production that steps across the seam does not come back. -/
theorem crosses_next_bind {g : Unit → ParseM β} (h : w.edge ≤ q.advance.index)
    (hg : Along (fun p q : Parser => p.index ≤ q.index) (g ())) :
    w.Crosses (Parser.next >>= g) q :=
  fun _ _ hb => Nat.le_trans h ((hg q.advance).of_ok hb)

section Rules

variable {ok : α → Parser → β → Parser → Prop} {ok' : γ → Parser → δ → Parser → Prop}
  {err : Rejections}

theorem Abreast.imp {ok' : α → Parser → β → Parser → Prop} {err' : Rejections} {x : ParseM α}
    {y : ParseM β} (h : w.Abreast depth x y p q ok err)
    (hok : ∀ a p' b q', ok a p' b q' → ok' a p' b q')
    (herr : ∀ d p' d' q', err d p' d' q' → err' d p' d' q') :
    w.Abreast depth x y p q ok' err' :=
  Or.imp_left (fun h => h.imp hok herr) h

theorem abreast_bind {x : ParseM α} {y : ParseM β} {f : α → ParseM γ} {g : β → ParseM δ}
    (h : Related x y p q (fun a p' b q' => w.Abreast depth (f a) (g b) p' q' ok' err) err) :
    w.Abreast depth (x >>= f) (y >>= g) p q ok' err := by
  by_cases hcross : w.Exposed depth ∧ w.Crosses (y >>= g) q
  · exact .inr hcross
  · refine .inl (related_bind (h.and_run.imp (fun a p' b q' hrun => ?_) fun _ _ _ _ h => h))
    refine hrun.2.resolve_right fun hrest => hcross ⟨hrest.1, fun c r hr => ?_⟩
    rw [bind_of_ok hrun.1] at hr
    exact hrest.2 c r hr

/-- What comes behind a production that may have crossed the seam. -/
theorem Abreast.bind {x : ParseM α} {y : ParseM β} {f : α → ParseM γ} {g : β → ParseM δ}
    (h : w.Abreast depth x y p q ok err)
    (hok : ∀ a p' b q', ok a p' b q' → Related (f a) (g b) p' q' ok' err)
    (hg : ∀ b, Along (fun p q : Parser => p.index ≤ q.index) (g b)) :
    w.Abreast depth (x >>= f) (y >>= g) p q ok' err := by
  rcases h with h | ⟨hexposed, hcross⟩
  · exact .inl (related_bind (h.imp hok fun _ _ _ _ h => h))
  · refine .inr ⟨hexposed, fun c r hr => ?_⟩
    cases hy : y q with
    | ok b q' =>
        rw [bind_of_ok hy] at hr
        exact Nat.le_trans (hcross b q' hy) ((hg b q').of_ok hr)
    | error e q' =>
        rw [bind_of_error hy] at hr
        cases hr

theorem abreast_currentToken_bind {f : Token → ParseM α} {g : Token → ParseM β} :
    w.Abreast depth (Parser.currentToken >>= f) (Parser.currentToken >>= g) p q ok err ↔
      w.Abreast depth (f p.current) (g q.current) p q ok err := Iff.rfl

theorem abreast_next_bind {f : Unit → ParseM α} {g : Unit → ParseM β} :
    w.Abreast depth (Parser.next >>= f) (Parser.next >>= g) p q ok err ↔
      w.Abreast depth (f ()) (g ()) p.advance q.advance ok err := Iff.rfl

theorem abreast_get_bind {f : Parser → ParseM α} {g : Parser → ParseM β} :
    w.Abreast depth (get >>= f) (get >>= g) p q ok err ↔
      w.Abreast depth (f p) (g q) p q ok err := Iff.rfl

theorem abreast_ahead_bind {kind : Kind} {f : Bool → ParseM α} {g : Bool → ParseM β} :
    w.Abreast depth (Parser.ahead kind >>= f) (Parser.ahead kind >>= g) p q ok err ↔
      w.Abreast depth (f (decide (p.lookahead.kind = kind)))
        (g (decide (q.lookahead.kind = kind))) p q ok err := Iff.rfl

theorem abreast_withBudget {x : Nat → ParseM α} {y : Nat → ParseM β} :
    w.Abreast depth (Parser.withBudget x) (Parser.withBudget y) p q ok err ↔
      w.Abreast depth (x p.budget) (y q.budget) p q ok err := Iff.rfl

theorem abreast_ite {c c' : Prop} [Decidable c] [Decidable c'] {x y : ParseM α}
    {x' y' : ParseM β} (hc : c' ↔ c) (hx : c → w.Abreast depth x x' p q ok err)
    (hy : ¬ c → w.Abreast depth y y' p q ok err) :
    w.Abreast depth (if c then x else y) (if c' then x' else y') p q ok err := by
  by_cases h : c
  · rw [if_pos h, if_pos (hc.mpr h)]
    exact hx h
  · rw [if_neg h, if_neg (mt hc.mp h)]
    exact hy h

theorem abreast_during {production : Production} {x : ParseM α} {y : ParseM β}
    (hok : ∀ {a p b q stage entry entry'}, ok a p b q →
      ok a (p.note production stage entry) b (q.note production stage entry'))
    (herr : ∀ {d p d' q stage entry entry'}, err d p d' q →
      err d (p.note production stage entry) d' (q.note production stage entry'))
    (h : w.Abreast depth x y (p.note production .entered p.mark)
      (q.note production .entered q.mark) ok err) :
    w.Abreast depth (Parser.during production x) (Parser.during production y) p q ok err := by
  refine Or.imp (fun h => ?_) (fun h => ⟨h.1, fun b q' hb => ?_⟩) h
  · exact Parser.related_during (h.imp (fun _ _ _ _ h => hok h) fun _ _ _ _ h => herr h)
  · unfold Parser.during at hb
    split at hb
    · next c r hr =>
        cases hb
        exact h.2 _ r hr
    · cases hb

end Rules

end Seam

end Frontend
