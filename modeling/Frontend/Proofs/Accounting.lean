import Frontend.Proofs.Scanning
import Frontend.Proofs.StmtReading

/-!
# Every token is accounted for

The tokens of a source and the tokens of the program that is read from it can be
laid side by side: each token of the program has its place among those of the
source, in the same order, and the places that are left over are paid for by
diagnostics. So the program has all the tokens of the source if and only if no
diagnostic was recorded, the lexical ones apart.

The one thing a tree does not tell is whether a semicolon stood behind an
expression. It can be told from the spans, since every token of a source ends
further on than the one before it.
-/

namespace Frontend

open Text

/-- The tokens that are not the end. -/
def tidy (ts : List Token) : List Token := ts.filter (·.kind ≠ .eof)

@[simp]
theorem tidy_append (ts us : List Token) : tidy (ts ++ us) = tidy ts ++ tidy us :=
  List.filter_append ts us

theorem tidy_cons {t : Token} (ht : t.kind ≠ .eof) (ts : List Token) :
    tidy (t :: ts) = t :: tidy ts :=
  List.filter_cons_of_pos (by simpa using ht)

theorem tidy_eq_self {ts : List Token} (h : ∀ t ∈ ts, t.kind ≠ .eof) : tidy ts = ts :=
  List.filter_eq_self.mpr fun t ht => by simpa using h t ht

/-- Each slot has its token among `ts`, in the same order, and tokens are left
over if and only if `n` diagnostics were recorded for them. -/
def Laid (slots : List Slot) (ts : List Token) (n : Nat) : Prop :=
  ∃ us, List.Forall₂ Slot.Matches slots us ∧ us.Sublist (tidy ts) ∧
    (us.length = (tidy ts).length ↔ n = 0)

namespace Laid

theorem of_matches {slots : List Slot} {ts : List Token}
    (h : List.Forall₂ Slot.Matches slots ts) (hs : ∀ slot ∈ slots, slot.kind ≠ .eof) :
    Laid slots ts 0 := by
  have hts := tidy_eq_self (Slot.forall_kind_of_matches (· ≠ .eof) h hs)
  refine ⟨ts, h, ?_, ?_⟩
  · rw [hts]
  · rw [hts]
    simp

theorem fixed {kind : Kind} {t : Token} (h : t.kind = kind) (hk : kind ≠ .eof) :
    Laid [.fixed kind] [t] 0 :=
  of_matches (.cons h .nil) (List.forall_mem_singleton.mpr hk)

theorem append {a b : List Slot} {ts us : List Token} {n m : Nat} (h : Laid a ts n)
    (h' : Laid b us m) : Laid (a ++ b) (ts ++ us) (n + m) := by
  obtain ⟨vs, hvs, hsub, hlen⟩ := h
  obtain ⟨ws, hws, hsub', hlen'⟩ := h'
  refine ⟨vs ++ ws, List.rel_append hvs hws, ?_, ?_⟩
  · rw [tidy_append]
    exact hsub.append hsub'
  · have := hsub.length_le
    have := hsub'.length_le
    rw [tidy_append, List.length_append, List.length_append]
    omega

/-- Tokens that all have their places in front of others. -/
theorem prepend {a b : List Slot} {ts us : List Token} {n : Nat}
    (h : List.Forall₂ Slot.Matches a ts) (ha : ∀ slot ∈ a, slot.kind ≠ .eof)
    (h' : Laid b us n) : Laid (a ++ b) (ts ++ us) n := by
  have h := (of_matches h ha).append h'
  rwa [Nat.zero_add] at h

theorem cons {slot : Slot} {slots : List Slot} {t : Token} {ts : List Token} {n : Nat}
    (h : slot.Matches t) (hs : slot.kind ≠ .eof) (h' : Laid slots ts n) :
    Laid (slot :: slots) (t :: ts) n :=
  prepend (.cons h .nil) (List.forall_mem_singleton.mpr hs) h'

/-- Tokens without places, paid for. -/
theorem drop {slots : List Slot} {t : Token} {ts us : List Token} {n m : Nat}
    (ht : t.kind ≠ .eof) (hn : n ≠ 0) (h : Laid slots us m) :
    Laid slots (t :: (ts ++ us)) (n + m) := by
  obtain ⟨vs, hvs, hsub, -⟩ := h
  have hle := hsub.length_le
  rw [Laid, tidy_cons ht, tidy_append]
  refine ⟨vs, hvs, (hsub.trans (List.sublist_append_right _ _)).cons _, ?_⟩
  rw [List.length_cons, List.length_append]
  omega

/-- All tokens have their places if and only if nothing was recorded. -/
theorem matches_iff {slots : List Slot} {ts : List Token} {n : Nat} (h : Laid slots ts n) :
    List.Forall₂ Slot.Matches slots (tidy ts) ↔ n = 0 := by
  obtain ⟨us, hus, hsub, hlen⟩ := h
  refine ⟨fun hall => hlen.mp ?_, fun hn => ?_⟩
  · rw [← hus.length_eq, hall.length_eq]
  · rwa [← hsub.eq_of_length (hlen.mpr hn)]

theorem sublistForall₂ {slots : List Slot} {ts : List Token} {n : Nat} (h : Laid slots ts n) :
    List.SublistForall₂ Slot.Matches slots (tidy ts) := by
  obtain ⟨us, hus, hsub, -⟩ := h
  exact List.sublistForall₂_iff.mpr ⟨us, hus, hsub⟩

end Laid

/-- Every token but the end ends further on than the one before it. -/
def Ordered (ts : List Token) : Prop :=
  (tidy ts).Pairwise fun a b => a.span.stop.offset < b.span.stop.offset

namespace Ordered

theorem left {ts us : List Token} (h : Ordered (ts ++ us)) : Ordered ts := by
  rw [Ordered, tidy_append] at h
  exact (List.pairwise_append.mp h).1

theorem right {ts us : List Token} (h : Ordered (ts ++ us)) : Ordered us := by
  rw [Ordered, tidy_append] at h
  exact (List.pairwise_append.mp h).2.1

theorem tail {t : Token} {ts : List Token} (h : Ordered (t :: ts)) : Ordered ts :=
  right (show Ordered ([t] ++ ts) from h)

end Ordered

/-! ## Trees -/

theorem Expr.kind_ne_eof_of_mem_flatten {e : Expr} (he : e.WellFormed) :
    ∀ slot ∈ e.flatten, slot.kind ≠ .eof :=
  fun slot hslot => Kind.ne_eof_of_inExpression (Expr.inExpression_of_mem_flatten he slot hslot)

theorem Expr.Spells.laid {e : Expr} {ts : List Token} (h : e.Spells ts)
    (hf : e.Fits .lowest) : Laid e.flatten ts 0 :=
  .of_matches h.fills (kind_ne_eof_of_mem_flatten hf.2)

/-- No semicolon is seen where there was none. -/
theorem not_bySpan {value : Expr} {ts : List Token} {span : Span} (h : value.Spells ts)
    (hs : span.Covers ts) : Closing.bySpan value span = false := by
  obtain ⟨us, last, rfl, hstop⟩ := h.stop_eq
  rw [Closing.bySpan, hstop, hs.stop_eq]
  simp

/-- A semicolon is seen where there was one. -/
theorem bySpan_of_ordered {value : Expr} {ts : List Token} {closing : Token} {span : Span}
    (h : value.Spells ts) (hf : value.Fits .lowest) (hc : closing.kind = .symbol .semicolon)
    (hs : span.Covers (ts ++ [closing])) (ho : Ordered (ts ++ [closing])) :
    Closing.bySpan value span = true := by
  obtain ⟨us, last, rfl, hstop⟩ := h.stop_eq
  have hlast : last.kind ≠ .eof :=
    Kind.ne_eof_of_inExpression (h.inExpression hf.2 last (by simp))
  have hclosing : closing.kind ≠ .eof := by simp [hc]
  rw [Ordered, tidy_append, List.pairwise_append] at ho
  have hlt := ho.2.2 last (by simp [tidy, hlast]) closing (by simp [tidy, hclosing])
  rw [Closing.bySpan, hstop, hs.stop_eq]
  exact decide_eq_true hlt

theorem Stmt.kind_ne_eof_of_mem_binding {token name : Token} {type : PrimitiveType}
    (ht : token.kind ≠ .eof) (hn : name.kind ≠ .eof) :
    ∀ slot ∈ Stmt.binding token name type, slot.kind ≠ .eof := by
  simp [Stmt.binding, Slot.kind, ht, hn]

theorem Parameter.kind_ne_eof_of_mem_flattenAll {parameters : List Parameter}
    (h : ∀ parameter ∈ parameters, parameter.name.kind = .identifier) :
    ∀ slot ∈ Parameter.flattenAll parameters, slot.kind ≠ .eof := by
  fun_induction Parameter.flattenAll parameters with
  | case1 => exact List.forall_mem_nil _
  | case2 parameter =>
      rw [List.forall_mem_singleton] at h
      simp [Parameter.flatten, Slot.kind, h]
  | case3 parameter next rest ih =>
      rw [List.forall_mem_cons] at h
      refine List.forall_mem_append.mpr ⟨?_, List.forall_mem_cons.mpr ⟨by simp [Slot.kind], ih h.2⟩⟩
      simp [Parameter.flatten, Slot.kind, h.1]

theorem Stmt.kind_ne_eof_of_mem_signature {token name : Token} {parameters : List Parameter}
    {result? : Option PrimitiveType} (ht : token.kind = .keyword .fn)
    (hn : name.kind = .identifier)
    (hp : ∀ parameter ∈ parameters, parameter.name.kind = .identifier) :
    ∀ slot ∈ Stmt.signature token name parameters result?, slot.kind ≠ .eof := by
  have hparameters := Parameter.kind_ne_eof_of_mem_flattenAll hp
  have hresult : ∀ slot ∈ (result?.map fun type => Slot.fixed (.type type)).toList,
      slot.kind ≠ .eof := by
    cases result? <;> simp [Slot.kind]
  simp only [Stmt.signature, List.forall_mem_cons, List.forall_mem_append]
  exact ⟨by simp [Slot.kind, ht], by simp [Slot.kind, hn], by simp [Slot.kind], hparameters,
    by simp [Slot.kind], hresult⟩

mutual

theorem Stmt.Spells.laid {s : Stmt} {ts : List Token} {n : Nat} (h : Stmt.Spells s ts n)
    (ho : Ordered ts) : Laid (s.flatten .bySpan) ts n := by
  match h with
  | .expression h hf hs =>
      rw [Stmt.flatten, not_bySpan h hs]
      simpa using h.laid hf
  | .terminated h hf hc hs =>
      rw [Stmt.flatten, bySpan_of_ordered h hf hc hs ho, if_pos rfl]
      exact (h.laid hf).append (.fixed hc (by simp))
  | .block h => exact h.laid ho
  | .declaration ht hn hb h hf hc hs =>
      have hsemicolon := Laid.fixed hc (by simp)
      refine .prepend hb (Stmt.kind_ne_eof_of_mem_binding ?_ (by simp [hn]))
        ((h.laid hf).append hsemicolon)
      intro heof
      rw [heof] at ht
      cases ht
  | .returnNone ht hc hs =>
      exact .cons rfl (by simp [Slot.kind, ht]) (.fixed hc (by simp))
  | .returnSome ht h hf hc hs =>
      exact .cons rfl (by simp [Slot.kind, ht])
        ((h.laid hf).append (.fixed hc (by simp)))
  | .function ht hn hp hb h hs =>
      exact .prepend hb (Stmt.kind_ne_eof_of_mem_signature ht hn hp) (h.laid ho.right)
  | .conditional ht h => exact h.laid ho (by simp [ht])
  | .while_ ht h hf hb hs =>
      have hbody := hb.laid ho.tail.right
      exact .cons rfl (by simp [Slot.kind, ht])
        (.prepend h.fills (Expr.kind_ne_eof_of_mem_flatten hf.2) hbody)
  | .loop ht h hs => exact .cons rfl (by simp [Slot.kind, ht]) (h.laid ho.tail)

theorem Block.Spells.laid {b : Block} {ts : List Token} {n : Nat} (h : Block.Spells b ts n)
    (ho : Ordered ts) : Laid (b.flatten .bySpan) ts n := by
  match h with
  | .mk hopen h hc hs =>
      exact .cons rfl (by simp [Slot.kind, hopen])
        ((h.laid ho.tail.left).append (.fixed hc (by simp)))

theorem Conditional.Spells.laid {branch : Conditional} {ts : List Token} {n : Nat}
    (h : Conditional.Spells branch ts n) (ho : Ordered ts) (ht : branch.token.kind ≠ .eof) :
    Laid (branch.flatten .bySpan) ts n := by
  match h with
  | .mk h hf hb hother hs =>
      have hbody := hb.laid ho.tail.right.left
      have hrest := hother.laid ho.tail.right.right
      exact .cons rfl ht (.prepend h.fills (Expr.kind_ne_eof_of_mem_flatten hf.2)
        (hbody.append hrest))

theorem Otherwise.Spells.laid {otherwise : Otherwise} {ts : List Token} {n : Nat}
    (h : Otherwise.Spells otherwise ts n) (ho : Ordered ts) :
    Laid (otherwise.flatten .bySpan) ts n := by
  match h with
  | .nothing => exact .of_matches .nil (List.forall_mem_nil _)
  | .block ht h => exact .cons ht (by simp [Slot.kind]) (h.laid ho.tail)
  | .elif ht h => exact h.laid ho (by simp [ht])

theorem Stmt.SpellsAll.laid {ss : List Stmt} {ts : List Token} {n : Nat}
    (h : Stmt.SpellsAll ss ts n) (ho : Ordered ts) :
    Laid (Stmt.flattenAll .bySpan ss) ts n := by
  match h with
  | .nil => exact .of_matches .nil (List.forall_mem_nil _)
  | .keep h _ hs => exact (h.laid ho.left).append (hs.laid ho.right)
  | .drop ht hn hs => exact .drop ht hn (hs.laid ho.tail.right)

end

/-! ## Programs -/

theorem tidy_eq_of_append_eq {last : Token} (hlast : last.kind = .eof) {rest : Stream' Token}
    (hrest : rest.head.kind = .eof) {us : List Token} (hus : ∀ u ∈ us, u.kind ≠ .eof)
    {ts : List Token} (h : us ++ₛ Stream'.const last = ts ++ₛ rest) : tidy ts = us := by
  obtain ⟨n, rfl⟩ := eq_append_replicate_of_append_eq hrest hus h
  rw [tidy_append, tidy_eq_self hus, tidy, List.filter_eq_nil_iff.mpr, List.append_nil]
  intro t ht
  simp [List.eq_of_mem_replicate ht, hlast]

/-- No token is lost, read twice or moved without a diagnostic. The tokens of the
program that is read from a source are among those of the source, in the same
order, and they are all of them if and only if every diagnostic is lexical. -/
theorem parse_accounts {source : String} (h : byteSize source.toList < Position.limit)
    (file : String) :
    List.SublistForall₂ Slot.Matches ((parse source file).1.flatten .bySpan)
        (sourceTokens source file) ∧
      (List.Forall₂ Slot.Matches ((parse source file).1.flatten .bySpan)
          (sourceTokens source file) ↔
        ∀ d ∈ (parse source file).2, d.cause.isLexical) := by
  obtain ⟨q, -, ⟨ts, ds, hspells, hwalk⟩, hend, hfaults⟩ :=
    parseStream_reads _ (isLexical_ofSource source file)
  rw [hwalk.faults, Parser.faults_ofStream, List.nil_append] at hfaults
  have htape := hwalk.upcoming
  rw [Parser.upcoming_ofStream, tape_ofSource] at htape
  have htidy : tidy ts = sourceTokens source file :=
    tidy_eq_of_append_eq rfl (show q.upcoming.head.kind = .eof from hend)
      kind_ne_eof_of_mem_sourceTokens htape
  have hordered : Ordered ts := by
    rw [Ordered, htidy]
    exact sourceTokens_stop_lt h file
  have hlaid := hspells.laid hordered
  rw [← htidy]
  refine ⟨hlaid.sublistForall₂, hlaid.matches_iff.trans ?_⟩
  rw [List.length_eq_zero_iff, ← hfaults, List.filter_eq_nil_iff]
  simp [parse]

/-- The second statement of the source has no value; the other two are read. -/
theorem parse_accounts_sample :
    List.SublistForall₂ Slot.Matches
        ((parse "a += 1 let b: i32 = ; return c[0];" "a.x").1.flatten .bySpan)
        (sourceTokens "a += 1 let b: i32 = ; return c[0];" "a.x") ∧
      (List.Forall₂ Slot.Matches
          ((parse "a += 1 let b: i32 = ; return c[0];" "a.x").1.flatten .bySpan)
          (sourceTokens "a += 1 let b: i32 = ; return c[0];" "a.x") ↔
        ∀ d ∈ (parse "a += 1 let b: i32 = ; return c[0];" "a.x").2, d.cause.isLexical) :=
  parse_accounts (by decide) "a.x"

end Frontend
