import Frontend.Proofs.LongestMatch
import Frontend.Proofs.ScanJoin
import Mathlib.Data.List.DropRight

/-!
# Scanning a stretch of a text

A stretch of a source from the first byte of one token to the last byte of another
has the tokens that the source has there. In front of the stretch it is enough to
start on a token. Behind it, each piece must end where it does in the source: a
piece is as long as it can be, so it does not end further on when there is less to
read, and if it ends in front of what is cut off, it does not end earlier either
(`Piece.cut_append`).

`Scans` says that a scanner comes from one place to another over a list of tokens.
-/

namespace Frontend

open Text

/-! ## Cutting -/

section Span

variable {p : Char → Bool} {cs tail more : List Char}

/-- A run of characters that ends in front of `tail` does so without it. -/
theorem dropWhile_of_append (h : (cs ++ tail).dropWhile p = more ++ tail) :
    (cs ++ tail).takeWhile p = cs.takeWhile p ∧ cs.dropWhile p = more := by
  induction cs with
  | nil =>
      rw [List.nil_append] at h ⊢
      have hsplit := List.takeWhile_append_dropWhile (p := p) (l := tail)
      have hlength := congrArg List.length hsplit
      rw [h, List.length_append, List.length_append] at hlength
      obtain rfl : more = [] := List.length_eq_zero_iff.mp (by omega)
      exact ⟨List.length_eq_zero_iff.mp (by omega), rfl⟩
  | cons c cs ih =>
      rw [List.cons_append, List.dropWhile_cons] at h
      rw [List.cons_append, List.takeWhile_cons, List.takeWhile_cons, List.dropWhile_cons]
      split at h
      · next hc =>
          rw [if_pos hc, if_pos hc, if_pos hc, (ih h).1]
          exact ⟨rfl, (ih h).2⟩
      · next hc =>
          rw [if_neg hc, if_neg hc, if_neg hc]
          exact ⟨rfl, List.append_cancel_right h⟩

end Span

theorem splitComment?_body_ne_nil {cs body rest : List Char}
    (h : splitComment? cs = some (body, rest)) : body ≠ [] := by
  cases cs with
  | nil => cases h
  | cons c cs =>
      rw [splitComment?] at h
      split at h
      · cases h
        exact List.cons_ne_nil _ _
      · obtain ⟨⟨b, r⟩, -, hbr⟩ := Option.map_eq_some_iff.mp h
        cases hbr
        exact List.cons_ne_nil _ _

/-- A comment that is closed in front of `tail` is closed without it. -/
theorem splitComment?_of_append {cs tail body more : List Char}
    (h : splitComment? (cs ++ tail) = some (body, more ++ tail)) :
    splitComment? cs = some (body, more) := by
  induction cs generalizing body with
  | nil =>
      have hlength := congrArg List.length (append_of_splitComment?_eq_some h)
      have hpos := List.length_pos_iff.mpr (splitComment?_body_ne_nil h)
      simp only [List.nil_append, List.length_append] at hlength
      omega
  | cons c cs ih =>
      rw [List.cons_append, splitComment?] at h
      rw [splitComment?]
      split at h
      · next hc =>
          cases cs with
          | nil =>
              obtain ⟨ds, hds⟩ := List.head?_eq_some_iff.mp hc.2
              rw [List.nil_append] at hds
              have hlength := congrArg (fun r => (r.map Prod.snd).map List.length) h
              simp only [List.nil_append, hds, List.tail_cons, Option.map_some,
                List.length_append, List.length_cons, Option.some.injEq] at hlength
              omega
          | cons d ds =>
              rw [if_pos ⟨hc.1, hc.2⟩]
              simp only [List.cons_append, List.tail_cons, Option.some.injEq, Prod.mk.injEq] at h
              rw [← h.1, ← List.append_cancel_right h.2, List.tail_cons]
      · next hc =>
          obtain ⟨⟨b, r⟩, hb, hbr⟩ := Option.map_eq_some_iff.mp h
          cases hbr
          rw [if_neg, ih hb]
          · rfl
          · rintro ⟨rfl, hd⟩
            obtain ⟨ds, rfl⟩ := List.head?_eq_some_iff.mp hd
            exact hc ⟨rfl, rfl⟩

namespace Piece

section Append

variable {c : Char} {cs tail more : List Char}

theorem lineComment_append (h : (lineComment (cs ++ tail)).rest = more ++ tail) :
    lineComment (cs ++ tail) = (lineComment cs).extend tail := by
  obtain ⟨htext, hrest⟩ := dropWhile_of_append h
  simp only [lineComment, extend, htext, hrest] at h ⊢
  rw [h]

theorem number_append (h : (number (cs ++ tail)).rest = more ++ tail) :
    number (cs ++ tail) = (number cs).extend tail := by
  obtain ⟨htext, hrest⟩ := dropWhile_of_append h
  simp only [number, extend, htext, hrest] at h ⊢
  rw [h]

theorem word_append (h : (word (cs ++ tail)).rest = more ++ tail) :
    word (cs ++ tail) = (word cs).extend tail := by
  obtain ⟨htext, hrest⟩ := dropWhile_of_append h
  simp only [word, extend, htext, hrest] at h ⊢
  rw [h]

theorem blockComment_of_append (h : (blockComment (cs ++ tail)).rest = more ++ tail) :
    blockComment (cs ++ tail) = (blockComment cs).extend tail := by
  cases hsplit : splitComment? (cs ++ tail) with
  | some split =>
      obtain ⟨body, rest⟩ := split
      simp only [blockComment, hsplit] at h ⊢
      rw [h] at hsplit
      rw [splitComment?_of_append hsplit, h]
      rfl
  | none =>
      simp only [blockComment, hsplit] at h ⊢
      obtain ⟨rfl, rfl⟩ := List.append_eq_nil_iff.mp h.symm
      rw [List.append_nil] at hsplit ⊢
      rw [hsplit]
      rfl

/-- A symbol or an illegal character does not depend on what is behind it. -/
theorem cut_singleton (hdigit : ¬ c.isDigit) (hword : ¬ isWordStart c)
    (h : (cut c tail).text.length = 1) : cut c tail = (cut c []).extend tail := by
  revert hdigit hword h
  refine cut_cases (motive := fun c tail piece => ¬ c.isDigit → ¬ isWordStart c →
    piece.text.length = 1 → piece = (cut c []).extend tail) ?_ ?_ ?_ ?_ ?_ ?_ ?_ c tail
  · intro cs _ _ h
    simp [lineComment] at h
  · intro cs _ _ h
    unfold blockComment at h
    split at h <;> simp at h
  · intro c d cs s _ _ _ _ h
    simp at h
  · intro c cs s _ _ hs _ _ _
    simp [cut, pair?, single?, hs, extend]
  · exact fun _ _ _ hc hdigit => absurd hc hdigit
  · exact fun _ _ _ hc _ hword => absurd hc hword
  · intro c cs hc hdigit hword _ _ _
    simp [cut, pair?, single?, hc, hdigit, hword, illegal, extend]

/-- What is behind the first piece does not change it. -/
theorem cut_append (h : (cut c (cs ++ tail)).rest = more ++ tail) :
    cut c (cs ++ tail) = (cut c cs).extend tail := by
  by_cases hdigit : c.isDigit
  · rw [cut_of_isDigit hdigit] at h ⊢
    rw [cut_of_isDigit hdigit]
    exact @number_append (c :: cs) tail more h
  by_cases hword : isWordStart c
  · rw [cut_of_isWordStart hword] at h ⊢
    rw [cut_of_isWordStart hword]
    exact @word_append (c :: cs) tail more h
  cases cs with
  | nil =>
      rw [List.nil_append] at h ⊢
      have hlength := congrArg List.length (cut_text_append_rest c tail)
      have hpos := List.length_pos_iff.mpr (cut_text_ne_nil c tail)
      rw [List.length_append, h, List.length_append, List.length_cons] at hlength
      exact cut_singleton hdigit hword (by omega)
  | cons d ds =>
      by_cases hline : c = '/' ∧ (d :: ds).head? = some '/'
      · have hlong : cut c (d :: ds ++ tail) = lineComment (c :: d :: ds ++ tail) := if_pos hline
        rw [hlong] at h ⊢
        rw [lineComment_append h, show cut c (d :: ds) = _ from if_pos hline]
      by_cases hblock : c = '/' ∧ (d :: ds).head? = some '*'
      · have hlong : cut c (d :: ds ++ tail) = blockComment (ds ++ tail) :=
          (if_neg hline).trans (if_pos hblock)
        rw [hlong] at h ⊢
        rw [blockComment_of_append h,
          show cut c (d :: ds) = _ from (if_neg hline).trans (if_pos hblock)]
        rfl
      have hpair : pair? c (d :: ds ++ tail) = (pair? c (d :: ds)).map (·.extend tail) := by
        simp only [List.cons_append, pair?, Option.map_map]
        rfl
      rw [show cut c (d :: ds ++ tail) = _ from (if_neg hline).trans (if_neg hblock),
        show cut c (d :: ds) = _ from (if_neg hline).trans (if_neg hblock), hpair, single?_append]
      cases pair? c (d :: ds) with
      | some piece => rfl
      | none =>
          cases single? c (d :: ds) with
          | some piece => rfl
          | none =>
              simp only [Option.map_none, if_neg hdigit, if_neg hword]
              rfl

end Append

end Piece

/-! ## Scanning -/

namespace Scanner

/-- The scanner `s` comes to stand like `s'` over these tokens, comments left out. -/
inductive Scans : Scanner → List Token → Scanner → Prop
  | refl (s : Scanner) : Scans s [] s
  | step {s s' : Scanner} {c : Char} {cs : List Char} {ts : List Token}
      (h : s.skipBlanks.rest = c :: cs) (hs : Scans s.behind ts s') :
      Scans s ([s.skipBlanks.tokenOf (.cut c cs)].filter (·.kind ≠ .comment) ++ ts) s'

namespace Scans

variable {s s' : Scanner} {ts : List Token}

theorem tokens (h : Scans s ts s') : s.tokens = ts ++ s'.tokens := by
  induction h with
  | refl s => rfl
  | step h _ ih => rw [tokens_of_rest_eq_cons h, ih, List.append_assoc]

theorem file (h : Scans s ts s') : s'.file = s.file := by
  induction h with
  | refl s => rfl
  | step h _ ih => rw [ih, behind_eq h]

/-- The text between the two places. -/
theorem exists_text (h : Scans s ts s') :
    ∃ text, s.rest = text ++ s'.rest ∧ s'.offset = s.offset + byteSize text := by
  induction h with
  | refl s => exact ⟨[], rfl, rfl⟩
  | @step s s' c cs ts h _ ih =>
      obtain ⟨text, hrest, hoffset⟩ := ih
      refine ⟨s.rest.takeWhile isBlank ++ (Piece.cut c cs).text ++ text, ?_, ?_⟩
      · rw [List.append_assoc, ← hrest, behind_eq h, List.append_assoc,
          Piece.cut_text_append_rest, ← h]
        exact List.takeWhile_append_dropWhile.symm
      · rw [hoffset, behind_eq h, byteSize_append, byteSize_append, skipBlanks]
        simp only
        omega

/-- The same tokens are there when the text ends behind them. -/
theorem truncate (h : Scans s ts s') {text : List Char} (htext : s.rest = text ++ s'.rest) :
    ({ s with rest := text } : Scanner).tokens = ts := by
  induction h generalizing text with
  | refl s =>
      have hnil : text = [] := by simpa using htext
      rw [hnil]
      exact tokens_of_rest_eq_nil rfl
  | @step s s' c cs ts h hs ih =>
      obtain ⟨more, hmore, -⟩ := hs.exists_text
      have hbehind : (Piece.cut c cs).rest = more ++ s'.rest := by rwa [behind_eq h] at hmore
      -- The piece lies in front of what is cut off.
      obtain ⟨d, ds, hpiece⟩ := List.exists_cons_of_ne_nil (Piece.cut_text_ne_nil c cs)
      have hcs := Piece.cut_text_append_rest c cs
      rw [hpiece, hbehind, ← List.append_assoc, List.cons_append, List.cons_append] at hcs
      obtain ⟨rfl, rfl⟩ := List.cons.inj hcs
      have hcut := Piece.cut_append hbehind
      have hshort : (Piece.cut d (ds ++ more)).rest = more := by
        rw [hcut] at hbehind
        exact List.append_cancel_right hbehind
      have hblank : (text ++ s'.rest).dropWhile isBlank = d :: (ds ++ more) ++ s'.rest := by
        rw [← htext]
        exact h
      obtain ⟨htake, hdrop⟩ := dropWhile_of_append hblank
      set u : Scanner := { s with rest := text } with hu
      have hrest : u.skipBlanks.rest = d :: (ds ++ more) := hdrop
      have hoffset : u.skipBlanks.offset = s.skipBlanks.offset := by
        simp only [skipBlanks, hu, htext, htake]
      have hnext : u.behind = { s.behind with rest := more } := by
        rw [behind_eq hrest, behind_eq h, hshort, hoffset, hcut]
        rfl
      rw [tokens_of_rest_eq_cons hrest, hnext, ih hmore, hcut, tokenOf, tokenOf, hoffset]
      rfl

theorem append {s'' : Scanner} {us : List Token} (h : Scans s ts s') (h' : Scans s' us s'') :
    Scans s (ts ++ us) s'' := by
  induction h with
  | refl s => exact h'
  | step hrest _ ih =>
      rw [List.append_assoc]
      exact .step hrest (ih h')

theorem comment {c : Char} {cs : List Char} (h : s.skipBlanks.rest = c :: cs)
    (hkind : (s.skipBlanks.tokenOf (.cut c cs)).kind = .comment) (hs : Scans s.behind ts s') :
    Scans s ts s' := by
  have hstep := Scans.step h hs
  rwa [List.filter_cons_of_neg (by simpa using hkind), List.filter_nil, List.nil_append] at hstep

theorem token {c : Char} {cs : List Char} (h : s.skipBlanks.rest = c :: cs)
    (hkind : (s.skipBlanks.tokenOf (.cut c cs)).kind ≠ .comment) (hs : Scans s.behind ts s') :
    Scans s (s.skipBlanks.tokenOf (.cut c cs) :: ts) s' := by
  have hstep := Scans.step h hs
  rwa [List.filter_cons_of_pos (by simpa using hkind)] at hstep

end Scans

/-- Where the scanner is in front of its first token. -/
theorem exists_scans_front {s : Scanner} {t : Token} {us : List Token}
    (h : s.tokens = t :: us) :
    ∃ s' c cs, Scans s [] s' ∧ s'.skipBlanks.rest = c :: cs ∧
      s'.skipBlanks.tokenOf (.cut c cs) = t ∧ s'.behind.tokens = us := by
  induction s using run_induct with
  | last s hnil => simp [tokens_of_rest_eq_nil hnil] at h
  | next s c cs hrest ih =>
      rw [tokens_of_rest_eq_cons hrest] at h
      by_cases hcomment : (s.skipBlanks.tokenOf (.cut c cs)).kind = .comment
      · rw [List.filter_cons_of_neg (by simpa using hcomment)] at h
        obtain ⟨s', d, ds, hs, hbehind⟩ := ih h
        exact ⟨s', d, ds, .comment hrest hcomment hs, hbehind⟩
      · rw [List.filter_cons_of_pos (by simpa using hcomment)] at h
        obtain ⟨ht, hus⟩ := List.cons.inj h
        exact ⟨s, c, cs, .refl s, hrest, ht, hus⟩

/-- Where the scanner is behind the first of its tokens. -/
theorem exists_scans {s : Scanner} {ts us : List Token} (h : s.tokens = ts ++ us) :
    ∃ s', Scans s ts s' ∧ ∀ t, ts.getLast? = some t → t.span.stop = .mark s'.offset s.file := by
  induction ts generalizing s with
  | nil => exact ⟨s, .refl s, fun _ ht => by cases ht⟩
  | cons t ts ih =>
      have hkind : t.kind ≠ .comment := (kind_of_mem_tokens (s := s) (by simp [h])).1
      obtain ⟨s₁, c, cs, hfront, hrest, rfl, hbehind⟩ := exists_scans_front h
      have hfile : s₁.file = s.file := hfront.file
      cases ts with
      | nil =>
          refine ⟨s₁.behind, hfront.append (.token hrest hkind (.refl _)), fun u hu => ?_⟩
          cases hu
          rw [behind_eq hrest, ← hfile]
          rfl
      | cons v vs =>
          obtain ⟨s', hs, hlast⟩ := ih hbehind
          refine ⟨s', hfront.append (.token hrest hkind hs), fun u hu => ?_⟩
          rw [List.getLast?_cons_cons] at hu
          rw [hlast u hu, behind_eq hrest, ← hfile]

/-- The rest of the text from one of the tokens on. -/
theorem exists_rest {s : Scanner} {pre us : List Token} {t : Token}
    (h : s.tokens = pre ++ t :: us) :
    ∃ left rest : List Char, s.rest = left ++ rest ∧
      (⟨s.file, s.offset + byteSize left, rest, []⟩ : Scanner).tokens = t :: us ∧
      t.span.start = .mark (s.offset + byteSize left) s.file := by
  obtain ⟨s₁, hpre, -⟩ := exists_scans h
  obtain ⟨s₂, c, cs, hfront, hrest, rfl, -⟩ :=
    exists_scans_front (List.append_cancel_left (hpre.tokens.symm.trans h))
  have hbefore := hpre.append hfront
  rw [List.append_nil] at hbefore
  have hfile : s₂.file = s.file := hbefore.file
  obtain ⟨before, hrest₂, hoffset₂⟩ := hbefore.exists_text
  set left := before ++ s₂.rest.takeWhile isBlank with hleft
  have hstart : s₂.skipBlanks.offset = s.offset + byteSize left := by
    rw [hleft, byteSize_append, skipBlanks]
    simp only
    omega
  -- The blanks in front of the token make no difference.
  set u : Scanner := ⟨s.file, s.offset + byteSize left, s₂.skipBlanks.rest, []⟩ with hu
  have hblanks : u.skipBlanks = u := by
    have hdrop : u.rest.dropWhile isBlank = u.rest := List.dropWhile_idempotent isBlank s₂.rest
    have htake := List.takeWhile_append_dropWhile (p := isBlank) (l := u.rest)
    rw [hdrop, List.append_left_eq_self] at htake
    rw [skipBlanks, hdrop, htake]
    rfl
  have htokens : u.tokens = s₂.tokens :=
    tokens_congr hfile.symm (by rw [hblanks, hstart]) (by rw [hblanks])
  rw [List.append_cancel_left (hbefore.tokens.symm.trans h)] at htokens
  refine ⟨left, s₂.skipBlanks.rest, ?_, htokens, ?_⟩
  · rw [hrest₂, hleft, List.append_assoc]
    exact congrArg _ List.takeWhile_append_dropWhile.symm
  · rw [← hstart, ← hfile]
    rfl

/-- What the tokens of a stretch are, scanned again by themselves. -/
theorem tokens_slice {s : Scanner} {pre ts vs : List Token} {first last : Token}
    (h : s.tokens = pre ++ (ts ++ vs)) (hfirst : ts.head? = some first)
    (hlast : ts.getLast? = some last) :
    ∃ left text right : List Char, s.rest = left ++ text ++ right ∧
      (⟨s.file, s.offset + byteSize left, text, []⟩ : Scanner).tokens = ts ∧
      first.span.start = .mark (s.offset + byteSize left) s.file ∧
      last.span.stop = .mark (s.offset + byteSize (left ++ text)) s.file := by
  obtain ⟨us, rfl⟩ := List.head?_eq_some_iff.mp hfirst
  obtain ⟨left, rest, hrest, htokens, hstart⟩ := exists_rest h
  obtain ⟨s', hslice, hend⟩ := exists_scans (show _ = first :: us ++ vs from htokens)
  obtain ⟨text, htext, hstop⟩ := hslice.exists_text
  refine ⟨left, text, s'.rest, ?_, hslice.truncate htext, hstart, ?_⟩
  · rw [hrest, List.append_assoc]
    exact congrArg _ htext
  · rw [hend last hlast, hstop, byteSize_append, ← Nat.add_assoc]

end Scanner

/-- A stretch of a source, from the start of one token to the end of another, has the
tokens that the source has there. -/
theorem sourceTokens_slice {source file : String}
    (hsize : byteSize source.toList < Position.limit) {pre ts vs : List Token}
    {first last : Token} (h : sourceTokens source file = pre ++ (ts ++ vs))
    (hfirst : ts.head? = some first) (hlast : ts.getLast? = some last) :
    ∃ left text right : List Char, source.toList = left ++ text ++ right ∧
      byteSize left = first.span.start.offset ∧
      byteSize (left ++ text) = last.span.stop.offset ∧
      (sourceTokens (String.ofList text) file).map
        (Relabelling.moved (.shift (byteSize left))).token = ts := by
  obtain ⟨left, text, right, hsource, htokens, hstart, hstop⟩ :=
    Scanner.tokens_slice (s := .ofSource source file) h hfirst hlast
  have hlist : source.toList = left ++ text ++ right := hsource
  rw [hlist, byteSize_append, byteSize_append] at hsize
  simp only [Scanner.ofSource, Nat.zero_add] at htokens hstart hstop
  have hslice : sourceTokens (String.ofList text) file = Scanner.tokens ⟨file, 0, text, []⟩ := by
    rw [sourceTokens, tokenize, Scanner.ofSource, String.toList_ofList]
    rfl
  have hshift := Scanner.tokens_shift (byteSize left) ⟨file, 0, text, []⟩ (by
    simp only
    omega) rfl
  simp only [Scanner.shift, Nat.zero_add] at hshift
  refine ⟨left, text, right, hlist, ?_, ?_, ?_⟩
  · rw [hstart, Position.mark_offset (by omega)]
  · rw [hstop, Position.mark_offset (by rw [byteSize_append]; omega)]
  · rw [hslice, ← hshift, htokens]

end Frontend
