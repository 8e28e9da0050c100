import Frontend.Parser.State
import Mathlib.Data.Stream.Init

/-!
# The tokens ahead of a parser

A parser sees two tokens of its stream at a time, but what it will do depends on
all of them. `Parser.upcoming` is the whole tape from the current token on:
comments are gone, and the end token stands behind the last token forever.
Moving the window drops the first token of the tape and does nothing else to it.

`Walk ts ds p q` says that a parse has come from `p` to `q`: it has passed the
tokens `ts` and recorded the diagnostics `ds`, in this order. `Reads` is the same
with the current token of `q` counted among the tokens, which is where a
production that succeeds stops. `Ends n p` says that nothing but end tokens
stands behind the first `n` tokens; it is what fuel is measured by.
-/

namespace Frontend

/-- The tokens that a stream will hand out: no comments, and the end token
forever behind the last one. -/
def TokenStream.tape (stream : TokenStream) : Stream' Token :=
  (stream.pending.filter (·.token.kind ≠ .comment)).map (·.token) ++ₛ Stream'.const stream.last

theorem TokenStream.pullFrom_tape (last : Token) (supplies : List Supply) :
    (supplies.filter (·.token.kind ≠ .comment)).map (·.token) ++ₛ Stream'.const last =
      .cons (pullFrom last supplies).1.token
        (((pullFrom last supplies).2.filter (·.token.kind ≠ .comment)).map (·.token) ++ₛ
          Stream'.const last) := by
  induction supplies with
  | nil => exact Stream'.const_eq last
  | cons s rest ih =>
      rw [pullFrom]
      split
      · next hs => simpa [hs] using ih
      · next hs => simp [hs, Stream'.cons_append_stream]

theorem TokenStream.tape_eq_cons (stream : TokenStream) :
    stream.tape = .cons stream.pull.1.token stream.pull.2.tape :=
  pullFrom_tape stream.last stream.pending

theorem TokenStream.pullFrom_diagnostics (last : Token) (supplies : List Supply) :
    supplies.flatMap (·.diagnostics) =
      (pullFrom last supplies).1.diagnostics ++
        (pullFrom last supplies).2.flatMap (·.diagnostics) := by
  induction supplies with
  | nil => rfl
  | cons s rest ih =>
      rw [pullFrom]
      split
      · simp [ih]
      · simp

namespace Parser

/-- The tokens from the current one on. -/
def upcoming (p : Parser) : Stream' Token :=
  .cons p.current (.cons p.lookahead p.stream.tape)

theorem upcoming_eq_cons (p : Parser) : p.upcoming = .cons p.current p.advance.upcoming := by
  rw [upcoming, TokenStream.tape_eq_cons]
  rfl

/-- A new parser stands on the first token of its stream. -/
theorem upcoming_ofStream (stream : TokenStream) : (ofStream stream).upcoming = stream.tape := by
  rw [TokenStream.tape_eq_cons, TokenStream.tape_eq_cons stream.pull.2]
  rfl

theorem of_upcoming_eq_cons {p : Parser} {t : Token} {rest : Stream' Token}
    (h : p.upcoming = .cons t rest) : p.current = t ∧ p.advance.upcoming = rest := by
  rw [upcoming_eq_cons] at h
  exact ⟨congrArg Stream'.head h, congrArg Stream'.tail h⟩

/-- The diagnostics of failed productions so far. -/
def faults (p : Parser) : List Diagnostic :=
  (p.findings.filter (·.origin = .production)).map (·.diagnostic)

/-- The diagnostics of the stream: those handed over so far and those to come. -/
def delivered (p : Parser) : List Diagnostic :=
  (p.findings.filter (·.origin = .stream)).map (·.diagnostic) ++
    p.stream.pending.flatMap (·.diagnostics)

theorem faults_ofStream (stream : TokenStream) : (ofStream stream).faults = [] := by
  simp [faults, ofStream, handedOver, List.filter_map, Function.comp_def]

theorem filter_handedOver (s : Supply) :
    (handedOver s).filter (·.origin = .stream) = handedOver s := by
  simp [handedOver]

theorem delivered_ofStream (stream : TokenStream) :
    (ofStream stream).delivered = stream.pending.flatMap (·.diagnostics) := by
  have h := TokenStream.pullFrom_diagnostics stream.last stream.pending
  have h' := TokenStream.pullFrom_diagnostics stream.last stream.pull.2.pending
  have hmap : ∀ s : Supply, (handedOver s).map (·.diagnostic) = s.diagnostics := by
    simp [handedOver, Function.comp_def]
  rw [delivered, h, show (TokenStream.pullFrom stream.last stream.pending).2 =
    stream.pull.2.pending from rfl, h', ← List.append_assoc]
  simp only [ofStream, List.filter_append, filter_handedOver, List.map_append, hmap]
  rfl

/-- When no production has failed, all diagnostics so far are from the stream. -/
theorem diagnostics_isPrefix_delivered {p : Parser} (h : p.faults = []) :
    p.diagnostics <+: p.delivered := by
  have hall : p.findings.filter (·.origin = .stream) = p.findings := by
    rw [List.filter_eq_self]
    intro f hf
    rw [faults, List.map_eq_nil_iff, List.filter_eq_nil_iff] at h
    have hne := h f hf
    cases horigin : f.origin with
    | stream => rfl
    | production => simp [horigin] at hne
  rw [diagnostics, delivered, hall]
  exact List.prefix_append _ _

section Lexical

variable {p : Parser} (hd : ∀ d ∈ p.delivered, d.cause.isLexical)
  (hf : ∀ d ∈ p.faults, d.cause.isLexical = false)

include hd hf

/-- When the stream has only lexical complaints and the productions have only
others, the two can be told apart by their causes. -/
theorem isLexical_of_mem_findings {f : Finding} (hmem : f ∈ p.findings) :
    f.diagnostic.cause.isLexical = decide (f.origin = .stream) := by
  cases ho : f.origin with
  | stream =>
      have := hd f.diagnostic (List.mem_append_left _ (List.mem_map.mpr
        ⟨f, List.mem_filter.mpr ⟨hmem, by simp [ho]⟩, rfl⟩))
      simp [this]
  | production =>
      have := hf f.diagnostic (List.mem_map.mpr
        ⟨f, List.mem_filter.mpr ⟨hmem, by simp [ho]⟩, rfl⟩)
      simp [this]

theorem filter_diagnostics : p.diagnostics.filter (!·.cause.isLexical) = p.faults := by
  rw [diagnostics, faults, List.filter_map]
  refine congrArg _ (List.filter_congr fun f hmem => ?_)
  rw [Function.comp_apply, isLexical_of_mem_findings hd hf hmem]
  cases f.origin <;> rfl

theorem filter_lexical : p.diagnostics.filter (·.cause.isLexical) =
    (p.findings.filter (·.origin = .stream)).map (·.diagnostic) := by
  rw [diagnostics, List.filter_map]
  exact congrArg _ (List.filter_congr fun f hmem => isLexical_of_mem_findings hd hf hmem)

end Lexical

@[simp]
theorem faults_advance (p : Parser) : p.advance.faults = p.faults := by
  simp [faults, advance, handedOver, List.filter_map, Function.comp_def]

@[simp]
theorem faults_record (p : Parser) (d : Diagnostic) : (p.record d).faults = p.faults ++ [d] := by
  simp [faults, record]

@[simp]
theorem delivered_advance (p : Parser) : p.advance.delivered = p.delivered := by
  have h := TokenStream.pullFrom_diagnostics p.stream.last p.stream.pending
  simp only [delivered, h]
  simp [advance, handedOver, List.filter_map, Function.comp_def, TokenStream.pull]

@[simp]
theorem delivered_record (p : Parser) (d : Diagnostic) : (p.record d).delivered = p.delivered := by
  simp [delivered, record]

end Parser

/-- The parse has come from `p` to `q` over the tokens `ts`, which are those in
front of the current token of `q`, and has recorded the diagnostics `ds`. -/
structure Walk (ts : List Token) (ds : List Diagnostic) (p q : Parser) : Prop where
  upcoming : p.upcoming = ts ++ₛ q.upcoming
  faults : q.faults = p.faults ++ ds
  syntactic : ∀ d ∈ ds, d.cause.isLexical = false
  delivered : q.delivered = p.delivered
  rules : q.rules = p.rules
  resume : q.resume = p.resume
  index : q.index = p.index + ts.length

namespace Walk

theorem refl (p : Parser) : Walk [] [] p p :=
  ⟨rfl, by simp, by simp, rfl, rfl, rfl, rfl⟩

theorem trans {ts us : List Token} {ds es : List Diagnostic} {p q r : Parser}
    (h : Walk ts ds p q) (h' : Walk us es q r) : Walk (ts ++ us) (ds ++ es) p r where
  upcoming := by rw [h.upcoming, h'.upcoming, Stream'.append_append_stream]
  faults := by rw [h'.faults, h.faults, List.append_assoc]
  syntactic := by
    intro d hd
    rcases List.mem_append.mp hd with hd | hd
    · exact h.syntactic d hd
    · exact h'.syntactic d hd
  delivered := by rw [h'.delivered, h.delivered]
  rules := by rw [h'.rules, h.rules]
  resume := by rw [h'.resume, h.resume]
  index := by rw [h'.index, h.index, List.length_append, Nat.add_assoc]

theorem advance (p : Parser) : Walk [p.current] [] p p.advance where
  upcoming := p.upcoming_eq_cons
  faults := by simp
  syntactic := by simp
  delivered := by simp
  rules := rfl
  resume := rfl
  index := rfl

theorem record (p : Parser) {d : Diagnostic} (hd : d.cause.isLexical = false) :
    Walk [] [d] p (p.record d) where
  upcoming := rfl
  faults := by simp
  syntactic := by simp [hd]
  delivered := by simp
  rules := rfl
  resume := rfl
  index := rfl

/-- The first token that is passed is the current one. -/
theorem mem_head? {ts : List Token} {ds : List Diagnostic} {p q : Parser} (h : Walk ts ds p q) :
    ∀ t ∈ ts.head?, t = p.current := by
  intro t ht
  obtain ⟨us, rfl⟩ := List.head?_eq_some_iff.mp ht
  exact (congrArg Stream'.head h.upcoming).symm

/-- Two states have only one stretch of tokens between them. -/
theorem unique {ts us : List Token} {ds es : List Diagnostic} {p q : Parser}
    (h : Walk ts ds p q) (h' : Walk us es p q) : ts = us := by
  have hlen : ts.length = us.length := by
    have := h.index
    have := h'.index
    omega
  exact Stream'.append_left_injective _ _ _ _ (h.upcoming.symm.trans h'.upcoming) hlen

/-- Notes in the trail do not count. -/
theorem note {ts : List Token} {ds : List Diagnostic} {p q : Parser} {production : Production}
    {stage stage' : Stage} {entry entry' : Mark}
    (h : Walk ts ds (p.note production stage entry) q) :
    Walk ts ds p (q.note production stage' entry') :=
  ⟨h.upcoming, h.faults, h.syntactic, h.delivered, h.rules, h.resume, h.index⟩

end Walk

/-- The parse has come from `p` to `q` over the tokens `ts`, the last of which is
the current token of `q`, and has recorded the diagnostics `ds`. -/
def Reads (ts : List Token) (ds : List Diagnostic) (p q : Parser) : Prop :=
  ∃ front, ts = front ++ [q.current] ∧ Walk front ds p q

namespace Reads

theorem refl (p : Parser) : Reads [p.current] [] p p := ⟨[], rfl, .refl p⟩

theorem trans {ts us : List Token} {ds es : List Diagnostic} {p q r : Parser}
    (h : Reads ts ds p q) (h' : Reads us es q.advance r) : Reads (ts ++ us) (ds ++ es) p r := by
  obtain ⟨front, rfl, hfront⟩ := h
  obtain ⟨front', rfl, hfront'⟩ := h'
  refine ⟨front ++ [q.current] ++ front', by simp, ?_⟩
  have h := (hfront.trans (.advance q)).trans hfront'
  rwa [List.append_nil] at h

/-- Stepping from the last token that was read. -/
theorem advance {ts : List Token} {ds : List Diagnostic} {p q : Parser} (h : Reads ts ds p q) :
    Walk ts ds p q.advance := by
  obtain ⟨front, rfl, hfront⟩ := h
  have h := hfront.trans (.advance q)
  rwa [List.append_nil] at h

theorem walk {ts us : List Token} {ds es : List Diagnostic} {p q r : Parser}
    (h : Reads ts ds p q) (h' : Walk us es q.advance r) : Walk (ts ++ us) (ds ++ es) p r :=
  h.advance.trans h'

theorem note {ts : List Token} {ds : List Diagnostic} {p q : Parser} {production : Production}
    {stage stage' : Stage} {entry entry' : Mark}
    (h : Reads ts ds (p.note production stage entry) q) :
    Reads ts ds p (q.note production stage' entry') := by
  obtain ⟨front, hts, hfront⟩ := h
  exact ⟨front, hts, hfront.note⟩

/-- The lookahead, if it is the next token wanted. -/
theorem step {ts : List Token} {ds : List Diagnostic} {p q : Parser} (h : Reads ts ds p q) :
    Reads (ts ++ [q.lookahead]) ds p q.advance := by
  have h := h.trans (.refl q.advance)
  rwa [List.append_nil] at h

/-- Reading on from the last token that was read. -/
theorem extend {ts us : List Token} {ds es : List Diagnostic} {p q r : Parser}
    (h : Reads ts ds p q) (h' : Reads (q.current :: us) es q r) :
    Reads (ts ++ us) (ds ++ es) p r := by
  obtain ⟨front, rfl, hfront⟩ := h
  obtain ⟨front', heq, hfront'⟩ := h'
  refine ⟨front ++ front', ?_, hfront.trans hfront'⟩
  rw [List.append_assoc, List.append_assoc, List.singleton_append, heq]

theorem rules {ts : List Token} {ds : List Diagnostic} {p q : Parser} (h : Reads ts ds p q) :
    q.rules = p.rules := by
  obtain ⟨front, -, hfront⟩ := h
  exact hfront.rules

theorem ne_nil {ts : List Token} {ds : List Diagnostic} {p q : Parser} (h : Reads ts ds p q) :
    ts ≠ [] := by
  obtain ⟨front, rfl, -⟩ := h
  simp

theorem head {t : Token} {ts : List Token} {ds : List Diagnostic} {p q : Parser}
    (h : Reads (t :: ts) ds p q) : p.current = t := by
  have h := congrArg Stream'.head h.advance.upcoming
  exact h

theorem current_eq_getLast? {ts : List Token} {ds : List Diagnostic} {p q : Parser}
    (h : Reads ts ds p q) : ts.getLast? = some q.current := by
  obtain ⟨front, rfl, -⟩ := h
  simp

/-- Behind the tokens that were read comes the rest of the tape. -/
theorem upcoming_advance {ts : List Token} {ds : List Diagnostic} {p q : Parser}
    {rest : Stream' Token} (h : Reads ts ds p q) (hp : p.upcoming = ts ++ₛ rest) :
    q.advance.upcoming = rest :=
  Stream'.append_right_injective _ _ _ (h.advance.upcoming.symm.trans hp)

theorem lookahead_eq {ts : List Token} {ds : List Diagnostic} {p q : Parser}
    {rest : Stream' Token} (h : Reads ts ds p q) (hp : p.upcoming = ts ++ₛ rest) :
    q.lookahead = rest.head :=
  congrArg Stream'.head (h.upcoming_advance hp)

theorem unique {ts us : List Token} {ds es : List Diagnostic} {p q : Parser}
    (h : Reads ts ds p q) (h' : Reads us es p q) : ts = us :=
  h.advance.unique h'.advance

end Reads

/-! ## The end of the tape -/

/-- Only end tokens stand behind the first `n` tokens. -/
def Parser.Ends (p : Parser) (n : Nat) : Prop :=
  ∀ i, n ≤ i → (p.upcoming.get i).kind = .eof

theorem Parser.ends_pending (p : Parser) : p.Ends (p.stream.pending.length + 2) := by
  intro i hi
  obtain ⟨j, rfl⟩ : ∃ j, i = j + 2 := ⟨i - 2, by omega⟩
  rw [upcoming, Stream'.get_succ_cons, Stream'.get_succ_cons, TokenStream.tape]
  generalize hts : (p.stream.pending.filter (·.token.kind ≠ .comment)).map (·.token) = ts
  have hlen : ts.length ≤ j := by
    rw [← hts, List.length_map]
    have := List.length_filter_le (fun s : Supply => s.token.kind ≠ .comment) p.stream.pending
    omega
  obtain ⟨k, rfl⟩ := Nat.exists_eq_add_of_le hlen
  rw [Stream'.get_append_right]
  exact p.stream.last_kind

theorem Parser.Ends.walk {ts : List Token} {ds : List Diagnostic} {p q : Parser} {n : Nat}
    (h : p.Ends n) (hw : Walk ts ds p q) : q.Ends (n - ts.length) := by
  intro i hi
  have h := h (ts.length + i) (by omega)
  rwa [hw.upcoming, Stream'.get_append_right] at h

theorem Parser.not_ends_zero_of_current {p : Parser} (h : p.current.kind ≠ .eof) :
    ¬ p.Ends 0 :=
  fun hp => h (hp 0 (Nat.le_refl 0))

/-- A budget covers every stretch of tokens in front of the end. -/
theorem Parser.length_le_budget {p : Parser} {ts : List Token} {rest : Stream' Token}
    (hp : p.upcoming = ts ++ₛ rest) (hts : ∀ t ∈ ts, t.kind ≠ .eof) :
    ts.length ≤ p.stream.pending.length + 2 := by
  by_contra hlt
  have hlt : p.stream.pending.length + 2 < ts.length := by omega
  have heof := p.ends_pending _ (Nat.le_refl _)
  rw [hp, Stream'.get_append_left _ _ _ hlt] at heof
  exact hts _ (List.getElem_mem hlt) heof

/-- The fuel does not cover the tokens to come. -/
def Starved (fuel : Nat) (p : Parser) : Prop := ∀ n, p.Ends n → fuel ≤ n

/-- The budget of a loop is never what is missing. -/
theorem Starved.of_min_budget {fuel : Nat} {p : Parser} (h : Starved (min p.budget fuel) p) :
    Starved fuel p := by
  intro n hn
  have hlast := h _ p.ends_pending
  have := h n hn
  rw [Parser.budget] at hlast this
  omega

theorem not_starved_budget (p : Parser) : ¬ Starved p.budget p := by
  intro h
  have := h _ p.ends_pending
  rw [Parser.budget] at this
  omega

theorem Starved.mono {fuel fuel' : Nat} {p : Parser} (h : Starved fuel p) (hle : fuel' ≤ fuel) :
    Starved fuel' p :=
  fun n hn => Nat.le_trans hle (h n hn)

theorem Starved.walk {ts : List Token} {ds : List Diagnostic} {p q : Parser} {fuel : Nat}
    (h : Starved fuel q) (hw : Walk ts ds p q) : Starved fuel p := by
  intro n hn
  have := h _ (hn.walk hw)
  omega

/-- Each token that has been passed was worth one unit of fuel. -/
theorem Starved.succ {ts : List Token} {ds : List Diagnostic} {p q : Parser} {fuel : Nat}
    (h : Starved fuel q) (hw : Walk ts ds p q) (hts : ts ≠ []) (hp : ¬ p.Ends 0) :
    Starved (fuel + 1) p := by
  intro n hn
  have hlen := List.length_pos_iff.mpr hts
  have hpos : n ≠ 0 := by
    rintro rfl
    exact hp hn
  have := h _ (hn.walk hw)
  omega

/-- Two ways to cut a stream that ends in copies of one item. -/
theorem prefix_or_replicate_of_append_eq {α : Type} {last : α} {us ts : List α}
    {rest : Stream' α} (h : us ++ₛ Stream'.const last = ts ++ₛ rest) :
    (∃ vs, us = ts ++ vs ∧ rest = vs ++ₛ Stream'.const last) ∨
      ∃ n, ts = us ++ List.replicate n last := by
  induction us generalizing ts with
  | nil =>
      refine .inr ⟨ts.length, List.eq_replicate_of_mem fun t ht => ?_⟩
      obtain ⟨i, hi, rfl⟩ := List.getElem_of_mem ht
      have hget := congrArg (Stream'.get · i) h
      simp only [Stream'.nil_append_stream, Stream'.get_const,
        Stream'.get_append_left _ _ _ hi] at hget
      exact hget.symm
  | cons u us ih =>
      cases ts with
      | nil => exact .inl ⟨u :: us, rfl, h.symm⟩
      | cons t ts =>
          obtain rfl : u = t := congrArg Stream'.head h
          refine (ih (congrArg Stream'.tail h)).imp ?_ ?_
          · rintro ⟨vs, rfl, hrest⟩
            exact ⟨vs, rfl, hrest⟩
          · rintro ⟨n, rfl⟩
            exact ⟨n, rfl⟩

/-- The tokens in front of the end are the same, wherever the end is found. -/
theorem eq_append_replicate_of_append_eq {last : Token} {us ts : List Token}
    {rest : Stream' Token} (hrest : rest.head.kind = .eof) (hus : ∀ u ∈ us, u.kind ≠ .eof)
    (h : us ++ₛ Stream'.const last = ts ++ₛ rest) : ∃ n, ts = us ++ List.replicate n last := by
  refine (prefix_or_replicate_of_append_eq h).elim ?_ id
  rintro ⟨vs, rfl, hvs⟩
  cases vs with
  | nil => exact ⟨0, by simp⟩
  | cons v vs =>
      have hv : rest.head = v := congrArg Stream'.head hvs
      exact absurd (hv ▸ hrest) (hus v (by simp))

end Frontend
