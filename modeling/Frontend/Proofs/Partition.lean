import Frontend.Proofs.LongestMatch
import Mathlib.Logic.Function.Iterate

/-!
# The tokens partition the source

A source is its tokens with blanks between them. `Tiles` says so from the left to
the right: a gap, the text of a token, and what is behind it. The places that the
spans name, their order and what stands outside of them all follow from the
tiling by induction over it, so that only `run_tiles` is about the scanner.

Behind the last tile the scanner stays where it is: `scan_after` tells what every
scan of a run hands out, the ones after the end included.
-/

namespace Frontend

open Text

/-- The token stands on `text`, which has `before` in front of it. -/
structure Token.StandsOn (t : Token) (file : String) (before text : List Char) : Prop where
  kind : t.kind ≠ .eof
  text_ne_nil : text ≠ []
  span : t.span = ⟨⟨byteSize before, file⟩, ⟨byteSize (before ++ text), file⟩⟩
  lexeme : t.kind ≠ .illegal → t.lexeme = String.ofList text
  illegal : t.kind = .illegal → text.length = 1

/-- A text with `before` in front of it is made of these tokens and of blanks. -/
inductive Tiles (file : String) : List Char → List Char → List Token → Prop
  | last {before gap : List Char} (hgap : ∀ c ∈ gap, isBlank c) : Tiles file before gap []
  | next {before gap text rest : List Char} {t : Token} {ts : List Token}
      (hgap : ∀ c ∈ gap, isBlank c) (ht : t.StandsOn file (before ++ gap) text)
      (hrest : Tiles file (before ++ gap ++ text) rest ts) :
      Tiles file before (gap ++ text ++ rest) (t :: ts)

namespace Tiles

variable {file : String} {before cs : List Char} {ts : List Token}

/-- Every token has a place of its own in the text. -/
theorem exists_standsOn (h : Tiles file before cs ts) :
    ∀ t ∈ ts, ∃ left text right, cs = left ++ text ++ right ∧
      t.StandsOn file (before ++ left) text := by
  induction h with
  | last => simp
  | @next before gap text rest t ts hgap ht hrest ih =>
      refine List.forall_mem_cons.mpr ⟨⟨gap, text, rest, rfl, ht⟩, fun u hu => ?_⟩
      obtain ⟨left, text', right, rfl, hu⟩ := ih u hu
      refine ⟨gap ++ text ++ left, text', right, by simp only [List.append_assoc], ?_⟩
      simpa only [List.append_assoc] using hu

theorem kind_ne_eof (h : Tiles file before cs ts) : ∀ t ∈ ts, t.kind ≠ .eof := by
  intro t ht
  obtain ⟨_, _, _, -, hstands⟩ := h.exists_standsOn t ht
  exact hstands.kind

/-- The tokens stand one behind the other. -/
theorem ordered (h : Tiles file before cs ts) :
    ts.Pairwise (fun a b => a.span.stop.offset ≤ b.span.start.offset) ∧
      ∀ t ∈ ts, byteSize before ≤ t.span.start.offset ∧
        t.span.start.offset < t.span.stop.offset ∧
        t.span.stop.offset ≤ byteSize before + byteSize cs := by
  induction h with
  | last => simp
  | next hgap ht hrest ih =>
      have hpos := byteSize_pos ht.text_ne_nil
      simp only [byteSize_append] at ih
      refine ⟨List.pairwise_cons.mpr ⟨fun u hu => ?_, ih.1⟩,
        List.forall_mem_cons.mpr ⟨?_, fun u hu => ?_⟩⟩
      · simp only [ht.span, byteSize_append]
        exact (ih.2 u hu).1
      · simp only [ht.span, byteSize_append]
        omega
      · have := ih.2 u hu
        simp only [byteSize_append]
        omega

/-- A character of the text is a blank, or a token stands on it. -/
theorem blank_or_covered (h : Tiles file before cs ts) :
    ∀ left c right, cs = left ++ c :: right →
      isBlank c ∨ ∃ t ∈ ts, t.span.start.offset ≤ byteSize (before ++ left) ∧
        byteSize (before ++ left ++ [c]) ≤ t.span.stop.offset := by
  induction h with
  | last hgap =>
      rintro left c right rfl
      exact .inl (hgap c (by simp))
  | @next before gap text rest t ts hgap ht hrest ih =>
      intro left c right heq
      rw [List.append_assoc, List.append_eq_append_iff] at heq
      rcases heq with ⟨left, rfl, heq⟩ | ⟨behind, rfl, heq⟩
      · rw [List.append_eq_append_iff] at heq
        rcases heq with ⟨left, rfl, heq⟩ | ⟨behind, rfl, heq⟩
        · refine (ih left c right heq).imp id ?_
          rintro ⟨u, hu, hplace⟩
          refine ⟨u, List.mem_cons_of_mem _ hu, ?_⟩
          simpa only [List.append_assoc] using hplace
        · -- The token in front stands on `c`, unless `c` is the first one behind it.
          cases behind with
          | nil =>
              refine (ih [] c right heq.symm).imp id ?_
              rintro ⟨u, hu, hplace⟩
              refine ⟨u, List.mem_cons_of_mem _ hu, ?_⟩
              simpa only [List.append_assoc, List.append_nil, List.nil_append] using hplace
          | cons d ds =>
              obtain ⟨rfl, -⟩ := List.cons.inj heq
              refine .inr ⟨t, List.mem_cons_self, ?_⟩
              simp only [ht.span, byteSize_append, byteSize_cons, byteSize_nil]
              omega
      · cases behind with
        | nil =>
            cases text with
            | nil => exact absurd rfl ht.text_ne_nil
            | cons d ds =>
                obtain ⟨rfl, -⟩ := List.cons.inj heq
                refine .inr ⟨t, List.mem_cons_self, ?_⟩
                simp only [ht.span, byteSize_append, byteSize_cons, byteSize_nil]
                omega
        | cons d ds =>
            obtain ⟨rfl, -⟩ := List.cons.inj heq
            exact .inl (hgap c (by simp))

end Tiles

namespace Scanner

/-- The scanner after so many scans. -/
def after (s : Scanner) (n : Nat) : Scanner := (fun s => s.scan.2)^[n] s

/-- What a scanner hands out does not depend on the diagnostics it keeps. -/
theorem run_tokens_congr (s : Scanner) (ds : List Diagnostic) :
    ({ s with diagnostics := ds } : Scanner).run.map (·.token) = s.run.map (·.token) := by
  set u : Scanner := { s with diagnostics := ds } with hu
  have hskip : u.skipBlanks.rest = s.skipBlanks.rest := rfl
  cases h : s.skipBlanks.rest with
  | nil =>
      rw [run_of_rest_eq_nil h, run_of_rest_eq_nil (hskip.trans h)]
      rfl
  | cons c cs =>
      rw [run_of_rest_eq_cons h, run_of_rest_eq_cons (hskip.trans h), behind_eq h,
        behind_eq (hskip.trans h)]
      rfl

theorem scan_of_rest_eq_nil {s : Scanner} (h : s.skipBlanks.rest = []) :
    s.scan = (Token.atEnd (s.offset + byteSize s.rest) s.file, s.skipBlanks) := by
  have hoffset := s.skipBlanks_offset
  rw [h, byteSize_nil, Nat.add_zero] at hoffset
  rw [scan, h, ← hoffset]
  rfl

theorem skipBlanks_of_rest_eq_nil {s : Scanner} (h : s.rest = []) : s.skipBlanks = s := by
  obtain ⟨file, offset, rest, diagnostics⟩ := s
  obtain rfl : rest = [] := h
  rfl

/-- A scan takes the first of the tokens to come. -/
theorem run_tokens_eq_cons {s : Scanner} {c : Char} {cs : List Char}
    (h : s.skipBlanks.rest = c :: cs) :
    s.run.map (·.token) = s.scan.1 :: s.scan.2.run.map (·.token) := by
  have hscan : s.scan.1 = s.skipBlanks.tokenOf (.cut c cs) := by rw [scan, h]
  rw [run_of_rest_eq_cons h, List.map_cons, hscan]
  exact congrArg _ (run_tokens_congr s.scan.2 [])

theorem run_ne_nil (s : Scanner) : s.run ≠ [] := by
  rw [run, supplies]
  exact List.cons_ne_nil _ _

/-- What is in front of a scanner: a gap, the next piece, and what the scanner behind
it will scan. -/
theorem exists_gap {s : Scanner} {c : Char} {cs : List Char} (h : s.skipBlanks.rest = c :: cs)
    {before : List Char} (hbefore : s.offset = byteSize before) :
    ∃ gap, (∀ d ∈ gap, isBlank d) ∧ s.rest = gap ++ (Piece.cut c cs).text ++ s.behind.rest ∧
      s.skipBlanks.offset = byteSize (before ++ gap) ∧
      s.behind.offset = byteSize (before ++ gap ++ (Piece.cut c cs).text) := by
  have hskip : s.skipBlanks.offset = byteSize (before ++ s.rest.takeWhile isBlank) := by
    rw [byteSize_append, ← hbefore]
    rfl
  refine ⟨s.rest.takeWhile isBlank, fun d hd => List.mem_takeWhile_imp hd, ?_, hskip, ?_⟩
  · rw [behind_eq h, List.append_assoc, Piece.cut_text_append_rest, ← h]
    exact List.takeWhile_append_dropWhile.symm
  · rw [behind_eq h, byteSize_append, ← hskip]

/-- What is in front of a scanner is made of the tokens that it will hand out. -/
theorem run_tiles (s : Scanner) (before : List Char) (hbefore : s.offset = byteSize before)
    (hs : byteSize (before ++ s.rest) < Position.limit) :
    ∃ ts, s.run.map (·.token) = ts ++ [Token.atEnd (byteSize (before ++ s.rest)) s.file] ∧
      Tiles s.file before s.rest ts := by
  rw [byteSize_append] at hs ⊢
  induction s using run_induct generalizing before with
  | last s h =>
      refine ⟨[], by rw [run_of_rest_eq_nil h, hbefore]; rfl, .last fun c hc => ?_⟩
      exact List.dropWhile_eq_nil_iff.mp h c hc
  | next s c cs h ih =>
      obtain ⟨gap, hgap, hsplit, hskip, hbehind⟩ := exists_gap h hbefore
      have hend := congrArg byteSize hsplit
      simp only [byteSize_append] at hend
      obtain ⟨ts, hrun, htiles⟩ := ih _ hbehind (by simp only [byteSize_append]; omega)
      rw [show s.behind.file = s.file by rw [behind_eq h]] at hrun htiles
      refine ⟨s.skipBlanks.tokenOf (.cut c cs) :: ts, ?_, ?_⟩
      · rw [run_of_rest_eq_cons h, List.map_cons, hrun, List.cons_append]
        simp only [byteSize_append, hend, Nat.add_assoc]
      · rw [hsplit]
        refine .next hgap ?_ htiles
        constructor
        case kind => exact Piece.cut_kind_ne_eof c cs
        case text_ne_nil => exact Piece.cut_text_ne_nil c cs
        case span =>
          have hle : byteSize (before ++ gap ++ (Piece.cut c cs).text) < Position.limit := by
            simp only [byteSize_append]
            omega
          have hlt := Nat.lt_of_le_of_lt (Nat.le_add_right _ _) (byteSize_append _ _ ▸ hle)
          simp only [tokenOf, Span.mark, Position.mark, hskip, ← byteSize_append]
          rw [Nat.mod_eq_of_lt hle, Nat.mod_eq_of_lt hlt]
          rfl
        case lexeme => exact fun hkind => if_neg hkind
        case illegal =>
          intro hillegal
          rw [(Piece.cut_illegal hillegal).1]
          rfl

/-- What each scan of a run hands out, and that every scan behind the last one
hands out the same token again and leaves the scanner alone. -/
theorem scan_after {s : Scanner} {ts : List Token} {t : Token}
    (h : s.run.map (·.token) = ts ++ [t]) :
    (∀ i (hi : i < ts.length), (s.after i).scan.1 = ts[i]) ∧
      ∀ n, (s.after (ts.length + n)).scan = (t, s.after (ts.length + 1)) := by
  induction ts generalizing s with
  | nil =>
      refine ⟨fun i hi => absurd hi (Nat.not_lt_zero i), ?_⟩
      cases hrest : s.skipBlanks.rest with
      | nil =>
          have hscan := scan_of_rest_eq_nil hrest
          rw [run_of_rest_eq_nil hrest] at h
          obtain rfl := (List.cons.inj h).1
          have hstay : s.skipBlanks.scan = s.scan := by
            have hskip := skipBlanks_of_rest_eq_nil hrest
            have hoffset := s.skipBlanks_offset
            rw [hscan, scan_of_rest_eq_nil (hskip.symm ▸ hrest), hskip, hoffset]
            rfl
          have hafter : ∀ n, (s.after n).scan = s.scan := by
            intro n
            induction n with
            | zero => rfl
            | succ n ih =>
                rw [after, Function.iterate_succ_apply', ← after, ih, hscan, hstay, hscan]
          intro n
          rw [hafter, hscan, after, Function.iterate_succ_apply, hscan]
          rfl
      | cons c cs =>
          rw [run_tokens_eq_cons hrest] at h
          exact absurd (List.map_eq_nil_iff.mp (List.cons.inj h).2) (run_ne_nil _)
  | cons u ts ih =>
      cases hrest : s.skipBlanks.rest with
      | nil =>
          rw [run_of_rest_eq_nil hrest] at h
          exact absurd (List.cons.inj h).2 (by simp)
      | cons c cs =>
          rw [run_tokens_eq_cons hrest] at h
          obtain ⟨hu, hlater⟩ := List.cons.inj h
          obtain ⟨hscans, hend⟩ := ih hlater
          have hafter : ∀ n, s.after (n + 1) = s.scan.2.after n :=
            fun n => Function.iterate_succ_apply _ n s
          refine ⟨fun i hi => ?_, fun n => ?_⟩
          · cases i with
            | zero => exact hu
            | succ i =>
                rw [hafter]
                exact hscans i (Nat.lt_of_succ_lt_succ hi)
          · rw [List.length_cons, Nat.add_right_comm, hafter, hend n, hafter]

end Scanner

/-! ## The tokens of a source -/

/-- How the tokens in front of the end token divide up a source. -/
structure Partition (source file : String) (ts : List Token) : Prop where
  tiles : Tiles file [] source.toList ts
  standsOn : ∀ t ∈ ts, ∃ left text right, source.toList = left ++ text ++ right ∧
    t.StandsOn file left text
  start_lt_stop : ∀ t ∈ ts, t.span.start.offset < t.span.stop.offset
  stop_le_start : ts.Pairwise fun a b => a.span.stop.offset ≤ b.span.start.offset
  stop_le_size : ∀ t ∈ ts, t.span.stop.offset ≤ byteSize source.toList
  blank_or_covered : ∀ left c right, source.toList = left ++ c :: right →
    isBlank c ∨ ∃ t ∈ ts, t.span.start.offset ≤ byteSize left ∧
      byteSize (left ++ [c]) ≤ t.span.stop.offset

theorem Tiles.partition {source file : String} {ts : List Token}
    (h : Tiles file [] source.toList ts) : Partition source file ts := by
  obtain ⟨hordered, hspans⟩ := h.ordered
  simp only [byteSize_nil, Nat.zero_le, true_and, Nat.zero_add] at hspans
  exact ⟨h, h.exists_standsOn, fun t ht => (hspans t ht).1, hordered,
    fun t ht => (hspans t ht).2, h.blank_or_covered⟩

/-- The tokens of a source, the end token apart, divide up the source. The scans
of the source hand out these tokens in turn and the end token from then on,
without moving any more. -/
theorem tokenize_partition {source : String} (h : byteSize source.toList < Position.limit)
    (file : String) :
    ∃ ts last, tokenize source file = ts ++ [last] ∧ Partition source file ts ∧
      last.kind = .eof ∧
      last.span = ⟨⟨byteSize source.toList, file⟩, ⟨byteSize source.toList, file⟩⟩ ∧
      (∀ t ∈ ts, t.kind ≠ .eof) ∧
      (∀ i (hi : i < ts.length), ((Scanner.ofSource source file).after i).scan.1 = ts[i]) ∧
      ∀ n, ((Scanner.ofSource source file).after (ts.length + n)).scan =
        (last, (Scanner.ofSource source file).after (ts.length + 1)) := by
  obtain ⟨ts, hrun, htiles⟩ := (Scanner.ofSource source file).run_tiles [] rfl h
  obtain ⟨hscans, hend⟩ := Scanner.scan_after hrun
  refine ⟨ts, _, hrun, htiles.partition, rfl, ?_, htiles.kind_ne_eof, hscans, hend⟩
  exact congrArg (fun offset => (⟨⟨offset, file⟩, ⟨offset, file⟩⟩ : Span)) (Nat.mod_eq_of_lt h)

/-- A source that ends in a character of three bytes that begins no token. -/
theorem tokenize_partition_sample :
    byteSize "ab\t/**/1.<€".toList < Position.limit ∧
      ∃ ts last, tokenize "ab\t/**/1.<€" "a.x" = ts ++ [last] ∧
        Partition "ab\t/**/1.<€" "a.x" ts ∧ last.kind = .eof ∧
        last.span = ⟨⟨13, "a.x"⟩, ⟨13, "a.x"⟩⟩ := by
  have h : byteSize "ab\t/**/1.<€".toList < Position.limit := by decide
  obtain ⟨ts, last, htokens, hpartition, hlast, hspan, -⟩ := tokenize_partition h "a.x"
  exact ⟨h, ts, last, htokens, hpartition, hlast, hspan⟩

end Frontend
