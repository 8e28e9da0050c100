import Frontend.Proofs.Tape
import Mathlib.Data.List.Nodup

/-!
# What scanning gives

A scanner hands out a token, then goes on behind it. `Scanner.behind` is the
scanner there, and `run_of_rest_eq_cons` is the recursion that the tokens of a
source follow; the fuel of the loop is gone from it, for each token takes at
least one character of the text.

Three facts about the tokens of a source follow from it. The end token comes
last and only there, the spans of the other tokens lie one behind the other, and
whatever is wrong with a token is a lexical matter.
-/

namespace Frontend

open Text

theorem Piece.isLexical_of_cut_cause? {c : Char} {cs : List Char} {cause : Cause}
    (h : (cut c cs).cause? = some cause) : cause.isLexical := by
  revert h
  refine cut_cases (motive := fun _ _ piece => piece.cause? = some cause → cause.isLexical)
    ?_ ?_ ?_ ?_ ?_ ?_ ?_ c cs
  · intro cs h; cases h
  · intro cs h
    unfold blockComment at h
    split at h
    · cases h
    · cases h; rfl
  · intros _ _ _ _ _ _ h; cases h
  · intros _ _ _ _ _ _ h; cases h
  · intros _ _ _ _ h; cases h
  · intros _ _ _ _ h; cases h
  · intros _ _ _ _ _ h; cases h; rfl

namespace Scanner

/-- The scanner behind the next token, once the diagnostics have been taken. -/
def behind (s : Scanner) : Scanner := s.scan.2.takeDiagnostics.2

/-- The loop over the tokens does not depend on its fuel. -/
theorem supplies_eq_run {s : Scanner} {fuel : Nat} (h : s.rest.length < fuel) :
    s.supplies fuel = s.run := by
  have hany : ∀ (n m : Nat) (s : Scanner), s.rest.length < n → s.rest.length < m →
      s.supplies n = s.supplies m := by
    intro n
    induction n with
    | zero => intro m s hn; omega
    | succ n ih =>
        intro m s hn hm
        obtain ⟨m, rfl⟩ : ∃ k, m = k + 1 := ⟨m - 1, by omega⟩
        simp only [supplies]
        split
        · rfl
        · next heof =>
            have hlt := scan_rest_length_lt heof
            rw [ih m _ (by simp only [takeDiagnostics]; omega)
              (by simp only [takeDiagnostics]; omega)]
  exact hany _ _ s h (Nat.lt_succ_self _)

/-- No blank is left where a scanner goes on. -/
theorem isBlank_of_rest_eq_cons {s : Scanner} {c : Char} {cs : List Char}
    (h : s.skipBlanks.rest = c :: cs) : isBlank c = false := by
  have hhead := List.head?_dropWhile_not isBlank s.rest
  rw [show s.rest.dropWhile isBlank = c :: cs from h] at hhead
  exact hhead

theorem run_of_rest_eq_nil {s : Scanner} (h : s.skipBlanks.rest = []) :
    s.run = [⟨Token.atEnd (s.offset + byteSize s.rest) s.file, s.diagnostics⟩] := by
  have hoffset := s.skipBlanks_offset
  rw [h, byteSize_nil, Nat.add_zero] at hoffset
  have hscan : s.scan = (Token.atEnd (s.offset + byteSize s.rest) s.file, s.skipBlanks) := by
    rw [scan, h, ← hoffset]
    rfl
  rw [run, supplies, hscan]
  rfl

theorem run_of_rest_eq_cons {s : Scanner} {c : Char} {cs : List Char}
    (h : s.skipBlanks.rest = c :: cs) :
    s.run = ⟨s.skipBlanks.tokenOf (.cut c cs), (s.skipBlanks.skipPiece (.cut c cs)).diagnostics⟩ ::
      s.behind.run := by
  have hscan : s.scan = (s.skipBlanks.tokenOf (.cut c cs), s.skipBlanks.skipPiece (.cut c cs)) := by
    rw [scan, h]
  have heof : s.scan.1.kind ≠ .eof := by
    rw [ne_eq, scan_kind_eq_eof_iff, h]
    simp
  have hlt := scan_rest_length_lt heof
  have hrun : s.behind.supplies s.rest.length = s.behind.run := supplies_eq_run hlt
  rw [behind, hscan] at hrun
  rw [hscan] at heof
  rw [run, supplies, behind, hscan, ← hrun]
  exact congrArg (_ :: ·) (if_neg heof)

/-- Induction over the tokens that a scanner will hand out. -/
@[elab_as_elim]
theorem run_induct {motive : Scanner → Prop}
    (last : ∀ s : Scanner, s.skipBlanks.rest = [] → motive s)
    (next : ∀ (s : Scanner) (c : Char) (cs : List Char), s.skipBlanks.rest = c :: cs →
      motive s.behind → motive s)
    (s : Scanner) : motive s := by
  induction hn : s.rest.length using Nat.strongRecOn generalizing s with
  | _ n ih =>
      cases h : s.skipBlanks.rest with
      | nil => exact last s h
      | cons c cs =>
          refine next s c cs h (ih s.behind.rest.length ?_ s.behind rfl)
          rw [← hn]
          refine scan_rest_length_lt ?_
          rw [ne_eq, scan_kind_eq_eof_iff, h]
          simp

theorem behind_eq {s : Scanner} {c : Char} {cs : List Char} (h : s.skipBlanks.rest = c :: cs) :
    s.behind = ⟨s.file, s.skipBlanks.offset + byteSize (Piece.cut c cs).text,
      (Piece.cut c cs).rest, []⟩ := by
  rw [behind, scan, h]
  rfl

/-- Going on behind a token keeps the end of the source where it is. -/
theorem behind_offset (s : Scanner) :
    s.behind.offset + byteSize s.behind.rest = s.offset + byteSize s.rest :=
  s.scan_offset

/-- The tokens that a scanner will hand out, comments and the end left out. -/
def tokens (s : Scanner) : List Token :=
  (s.run.map (·.token)).filter fun t => t.kind ≠ .comment ∧ t.kind ≠ .eof

theorem kind_of_mem_tokens {s : Scanner} {t : Token} (h : t ∈ s.tokens) :
    t.kind ≠ .comment ∧ t.kind ≠ .eof :=
  of_decide_eq_true (List.mem_filter.mp h).2

theorem tokens_of_rest_eq_nil {s : Scanner} (h : s.skipBlanks.rest = []) : s.tokens = [] := by
  rw [tokens, run_of_rest_eq_nil h]
  rfl

theorem tokens_of_rest_eq_cons {s : Scanner} {c : Char} {cs : List Char}
    (h : s.skipBlanks.rest = c :: cs) :
    s.tokens = [s.skipBlanks.tokenOf (.cut c cs)].filter (·.kind ≠ .comment) ++
      s.behind.tokens := by
  have hkind : (s.skipBlanks.tokenOf (.cut c cs)).kind ≠ .eof := Piece.cut_kind_ne_eof c cs
  rw [tokens, run_of_rest_eq_cons h, List.map_cons, List.filter_cons, tokens]
  by_cases hc : (s.skipBlanks.tokenOf (.cut c cs)).kind = .comment
  · simp [hc]
  · simp [hc, hkind]

/-- The end token comes last, and only there. -/
theorem run_tokens (s : Scanner) :
    (s.run.filter (·.token.kind ≠ .comment)).map (·.token) =
      s.tokens ++ [Token.atEnd (s.offset + byteSize s.rest) s.file] := by
  induction s using run_induct with
  | last s h =>
      rw [run_of_rest_eq_nil h, tokens_of_rest_eq_nil h]
      rfl
  | next s c cs h ih =>
      have hfile : s.behind.file = s.file := by rw [behind_eq h]
      rw [behind_offset, hfile] at ih
      rw [run_of_rest_eq_cons h, tokens_of_rest_eq_cons h, List.append_assoc, ← ih]
      by_cases hc : (s.skipBlanks.tokenOf (.cut c cs)).kind = .comment
      · simp [hc]
      · simp [hc]

/-- The tokens have spans of their own, one behind the other, within what the
scanner has not passed yet. -/
theorem tokens_ordered (s : Scanner) (hs : s.offset + byteSize s.rest < Position.limit) :
    s.tokens.Pairwise (fun a b => a.span.stop.offset ≤ b.span.start.offset) ∧
      ∀ t ∈ s.tokens, s.offset ≤ t.span.start.offset ∧
        t.span.start.offset < t.span.stop.offset ∧
        t.span.stop.offset ≤ s.offset + byteSize s.rest := by
  induction s using run_induct with
  | last s h => simp [tokens_of_rest_eq_nil h]
  | next s c cs h ih =>
      have hend := s.behind_offset
      obtain ⟨hpairwise, hlater⟩ := ih (hend ▸ hs)
      rw [hend] at hlater
      have hpos := byteSize_pos (Piece.cut_text_ne_nil c cs)
      have hbehind : s.behind.offset =
          s.skipBlanks.offset + byteSize (Piece.cut c cs).text := by rw [behind_eq h]
      have hstart : (s.skipBlanks.tokenOf (.cut c cs)).span.start.offset = s.skipBlanks.offset :=
        Position.mark_offset (by omega) _
      have hstop : (s.skipBlanks.tokenOf (.cut c cs)).span.stop.offset = s.behind.offset := by
        rw [hbehind]
        exact Position.mark_offset (by omega) _
      have hle : s.offset ≤ s.skipBlanks.offset := Nat.le_add_right _ _
      rw [tokens_of_rest_eq_cons h]
      refine ⟨List.pairwise_append.mpr ⟨?_, hpairwise, ?_⟩, List.forall_mem_append.mpr ⟨?_, ?_⟩⟩
      · exact (List.pairwise_singleton _ _).sublist List.filter_sublist
      · intro a ha b hb
        rw [List.mem_singleton.mp (List.mem_of_mem_filter ha), hstop]
        exact (hlater b hb).1
      · intro a ha
        rw [List.mem_singleton.mp (List.mem_of_mem_filter ha), hstart, hstop]
        omega
      · intro t ht
        have := hlater t ht
        omega

/-- What a scanner finds wrong is a lexical matter. -/
theorem run_lexical (s : Scanner) (hs : ∀ d ∈ s.diagnostics, d.cause.isLexical) :
    ∀ d ∈ s.run.flatMap (·.diagnostics), d.cause.isLexical := by
  induction s using run_induct with
  | last s h =>
      rw [run_of_rest_eq_nil h]
      simpa using hs
  | next s c cs h ih =>
      rw [run_of_rest_eq_cons h, List.flatMap_cons]
      refine List.forall_mem_append.mpr ⟨?_, ih (by simp [behind_eq h])⟩
      refine List.forall_mem_append.mpr ⟨hs, ?_⟩
      intro d hd
      obtain ⟨cause, hcause, rfl⟩ := List.mem_map.mp hd
      exact Piece.isLexical_of_cut_cause? (Option.mem_toList.mp hcause)

end Scanner

/-! ## The tokens of a source -/

/-- The tokens of a source that a parser gets to see, without the end token. -/
def sourceTokens (source file : String) : List Token :=
  (tokenize source file).filter fun t => t.kind ≠ .comment ∧ t.kind ≠ .eof

theorem tape_ofSource (source file : String) :
    (TokenStream.ofSource source file).tape =
      sourceTokens source file ++ₛ
        Stream'.const (Token.atEnd (byteSize source.toList) file) := by
  have h := (Scanner.ofSource source file).run_tokens
  rw [show (Scanner.ofSource source file).offset = 0 from rfl, Nat.zero_add] at h
  rw [TokenStream.tape]
  simp only [TokenStream.ofSource]
  rw [h, Stream'.append_append_stream]
  exact congrArg _ (Stream'.const_eq _).symm

theorem kind_sourceEnd (source file : String) :
    (Token.atEnd (byteSize source.toList) file).kind = .eof :=
  rfl

theorem kind_ne_eof_of_mem_sourceTokens {source file : String} :
    ∀ t ∈ sourceTokens source file, t.kind ≠ .eof :=
  fun _ ht => (Scanner.kind_of_mem_tokens (s := .ofSource source file) ht).2

theorem sourceTokens_ordered {source : String} (h : byteSize source.toList < Position.limit)
    (file : String) :
    (sourceTokens source file).Pairwise (fun a b => a.span.stop.offset ≤ b.span.start.offset) ∧
      ∀ t ∈ sourceTokens source file, t.span.start.offset < t.span.stop.offset ∧
        t.span.stop.offset ≤ byteSize source.toList := by
  have hordered := (Scanner.ofSource source file).tokens_ordered (by
    rw [show (Scanner.ofSource source file).offset = 0 from rfl, Nat.zero_add]
    exact h)
  refine ⟨hordered.1, fun t ht => ?_⟩
  have ht := (hordered.2 t ht).2
  rwa [show (Scanner.ofSource source file).offset = 0 from rfl, Nat.zero_add] at ht

/-- Every token ends further on than the one before it. -/
theorem sourceTokens_stop_lt {source : String} (h : byteSize source.toList < Position.limit)
    (file : String) :
    (sourceTokens source file).Pairwise
      fun a b => a.span.stop.offset < b.span.stop.offset := by
  obtain ⟨hpairwise, hspan⟩ := sourceTokens_ordered h file
  refine hpairwise.imp_of_mem fun _ hb hle => ?_
  exact Nat.lt_of_le_of_lt hle (hspan _ hb).1

/-- No two tokens start in the same place. -/
theorem sourceTokens_starts_nodup {source : String}
    (h : byteSize source.toList < Position.limit) (file : String) :
    ((sourceTokens source file).map (·.span.start)).Nodup := by
  obtain ⟨hpairwise, hspan⟩ := sourceTokens_ordered h file
  refine List.pairwise_map.mpr (hpairwise.imp_of_mem fun ha _ hle heq => ?_)
  have := (hspan _ ha).1
  rw [heq] at this
  omega

/-- Tokens are told apart by where they start. -/
theorem sourceTokens_start_injective {source : String}
    (h : byteSize source.toList < Position.limit) (file : String) :
    ∀ t ∈ sourceTokens source file, ∀ u ∈ sourceTokens source file,
      t.span.start = u.span.start → t = u :=
  fun _ ht _ hu heq => List.inj_on_of_nodup_map (sourceTokens_starts_nodup h file) ht hu heq

theorem isLexical_ofSource (source file : String) :
    ∀ d ∈ (TokenStream.ofSource source file).pending.flatMap (·.diagnostics),
      d.cause.isLexical :=
  (Scanner.ofSource source file).run_lexical (by simp [Scanner.ofSource])

end Frontend
