import Frontend.Proofs.Relabel
import Frontend.Proofs.Scanning
import Mathlib.Data.List.TakeWhile

/-!
# Scanning joined texts

No token but a comment goes over the end of a line, and a block comment that is
closed has nothing to do with what comes behind it. So the tokens of two texts
with a newline between them are those of the first and those of the second,
moved by the size of the first and of the newline, provided that the first does
not end within a comment.
-/

namespace Frontend

open Text

/-! ## Cutting -/

namespace Piece

/-- The piece with more text behind it. -/
def extend (piece : Piece) (more : List Char) : Piece :=
  { piece with rest := piece.rest ++ more }

end Piece

section Span

variable {p : Char → Bool} {c : Char} (hc : p c = false)

include hc

theorem takeWhile_append_stop (cs more : List Char) :
    (cs ++ c :: more).takeWhile p = cs.takeWhile p := by
  induction cs with
  | nil => simp [hc]
  | cons d ds ih =>
      rw [List.cons_append, List.takeWhile_cons, List.takeWhile_cons, ih]

theorem dropWhile_append_stop (cs more : List Char) :
    (cs ++ c :: more).dropWhile p = cs.dropWhile p ++ c :: more := by
  induction cs with
  | nil => simp [hc]
  | cons d ds ih =>
      rw [List.cons_append, List.dropWhile_cons, List.dropWhile_cons, ih]
      split <;> rfl

end Span

theorem splitComment?_append {cs body rest : List Char} (h : splitComment? cs = some (body, rest))
    (more : List Char) : splitComment? (cs ++ more) = some (body, rest ++ more) := by
  induction cs generalizing body rest with
  | nil => cases h
  | cons c cs ih =>
      rw [splitComment?] at h
      rw [List.cons_append, splitComment?]
      split at h
      · next hc =>
          obtain ⟨rfl, hd⟩ := hc
          obtain ⟨ds, rfl⟩ := List.head?_eq_some_iff.mp hd
          rw [if_pos ⟨rfl, rfl⟩]
          cases h
          rfl
      · next hc =>
          obtain ⟨⟨b, r⟩, hb, hbr⟩ := Option.map_eq_some_iff.mp h
          cases hbr
          rw [if_neg, ih hb]
          · rfl
          · rintro ⟨rfl, hd⟩
            refine hc ⟨rfl, ?_⟩
            cases cs with
            | nil => cases hb
            | cons d ds => exact hd

theorem Symbol.ofPair?_newline (c : Char) : Symbol.ofPair? c '\n' = none := by
  rw [Option.eq_none_iff_forall_ne_some]
  intro s hs
  rw [Symbol.ofPair?_eq_some_iff] at hs
  cases s <;> simp [Symbol.spelling] at hs

namespace Piece

theorem lineComment_newline (cs more : List Char) :
    lineComment (cs ++ '\n' :: more) = (lineComment cs).extend ('\n' :: more) := by
  rw [lineComment, takeWhile_append_stop (by simp), dropWhile_append_stop (by simp)]
  rfl

theorem blockComment_append {cs : List Char}
    (h : (blockComment cs).cause? ≠ some .unterminatedComment) (more : List Char) :
    blockComment (cs ++ more) = (blockComment cs).extend more := by
  unfold blockComment at h ⊢
  split at h
  · next body rest hsplit =>
      rw [splitComment?_append hsplit]
      rfl
  · exact absurd rfl h

theorem pair?_newline (c : Char) (cs more : List Char) :
    pair? c (cs ++ '\n' :: more) = (pair? c cs).map (·.extend ('\n' :: more)) := by
  cases cs with
  | nil => simp [pair?, Symbol.ofPair?_newline]
  | cons d ds =>
      simp only [List.cons_append, pair?, Option.map_map]
      rfl

theorem single?_append (c : Char) (cs more : List Char) :
    single? c (cs ++ more) = (single? c cs).map (·.extend more) := by
  rw [single?, single?, Option.map_map]
  rfl

theorem number_newline (cs more : List Char) :
    number (cs ++ '\n' :: more) = (number cs).extend ('\n' :: more) := by
  rw [number, takeWhile_append_stop (by decide), dropWhile_append_stop (by decide)]
  rfl

theorem word_newline (cs more : List Char) :
    word (cs ++ '\n' :: more) = (word cs).extend ('\n' :: more) := by
  rw [word, takeWhile_append_stop (by decide), dropWhile_append_stop (by decide)]
  rfl

/-- A newline behind a text does not change its first piece. -/
theorem cut_newline {c : Char} {cs : List Char}
    (h : (cut c cs).cause? ≠ some .unterminatedComment) (more : List Char) :
    cut c (cs ++ '\n' :: more) = (cut c cs).extend ('\n' :: more) := by
  have hhead : ∀ d, d ≠ '\n' → ((cs ++ '\n' :: more).head? = some d ↔ cs.head? = some d) := by
    intro d hd
    cases cs with
    | nil => simp [hd.symm]
    | cons e es => rfl
  unfold cut at h ⊢
  simp only [hhead '/' (by decide), hhead '*' (by decide)]
  split
  · exact lineComment_newline (c :: cs) more
  next hline =>
  rw [if_neg hline] at h
  split
  · next hblock =>
      rw [if_pos hblock] at h
      obtain ⟨es, rfl⟩ := List.head?_eq_some_iff.mp hblock.2
      exact blockComment_append h _
  · rw [pair?_newline, single?_append]
    cases pair? c cs with
    | some piece => rfl
    | none =>
        cases single? c cs with
        | some piece => rfl
        | none =>
            simp only [Option.map_none]
            split
            · exact number_newline (c :: cs) more
            split
            · exact word_newline (c :: cs) more
            · rfl

end Piece

/-! ## The tokens of a scanner -/

/-- The position so many bytes further on. -/
def Position.shift (size : Nat) (position : Position) : Position :=
  { position with offset := position.offset + size }

theorem Position.shift_injective (size : Nat) : (Position.shift size).Injective := by
  rintro ⟨a, f⟩ ⟨b, g⟩ h
  simpa [Position.shift] using h

theorem Position.mark_shift {offset size : Nat} (h : offset + size < Position.limit)
    (file : String) :
    Position.mark (offset + size) file = (Position.mark offset file).shift size := by
  rw [Position.shift, Position.mark_offset (by omega), Position.mark, Nat.mod_eq_of_lt h]
  rfl

theorem Token.atEnd_shift {offset size : Nat} (h : offset + size < Position.limit)
    (file : String) :
    Token.atEnd (offset + size) file =
      (Relabelling.moved (.shift size)).token (.atEnd offset file) := by
  rw [atEnd, Span.mark, Position.mark_shift h]
  rfl

/-- The diagnostic, so many bytes further on. -/
def Diagnostic.shift (size : Nat) (d : Diagnostic) : Diagnostic :=
  ⟨d.cause, d.position.shift size⟩

/-- The token with its diagnostics, so many bytes further on. -/
def Supply.shift (size : Nat) (s : Supply) : Supply :=
  ⟨(Relabelling.moved (.shift size)).token s.token, s.diagnostics.map (.shift size)⟩

namespace Scanner

/-- The tokens depend on where the scanner will stand behind the blanks. -/
theorem tokens_congr {s t : Scanner} (hf : s.file = t.file)
    (ho : s.skipBlanks.offset = t.skipBlanks.offset) (hr : s.skipBlanks.rest = t.skipBlanks.rest) :
    s.tokens = t.tokens := by
  cases h : t.skipBlanks.rest with
  | nil => rw [tokens_of_rest_eq_nil h, tokens_of_rest_eq_nil (hr.trans h)]
  | cons c cs =>
      rw [tokens_of_rest_eq_cons h, tokens_of_rest_eq_cons (hr.trans h), behind_eq h,
        behind_eq (hr.trans h), tokenOf, tokenOf, ho, show s.skipBlanks.file = t.skipBlanks.file
        from hf, hf]

/-- What is handed out depends on the scanner behind the blanks. -/
theorem run_congr {s t : Scanner} (h : s.skipBlanks = t.skipBlanks) : s.run = t.run := by
  have hfile : s.skipBlanks.file = t.skipBlanks.file := congrArg _ h
  have hkept : s.skipBlanks.diagnostics = t.skipBlanks.diagnostics := congrArg _ h
  change s.file = t.file at hfile
  change s.diagnostics = t.diagnostics at hkept
  have hend := s.skipBlanks_offset
  rw [h, t.skipBlanks_offset] at hend
  cases hrest : t.skipBlanks.rest with
  | nil =>
      rw [run_of_rest_eq_nil hrest, run_of_rest_eq_nil (h ▸ hrest), hfile, hkept, hend]
  | cons c cs =>
      have hrest' : s.skipBlanks.rest = c :: cs := h ▸ hrest
      rw [run_of_rest_eq_cons hrest, run_of_rest_eq_cons hrest', behind_eq hrest,
        behind_eq hrest', h, hfile]

/-! ## Moving the text -/

/-- A scanner over the same text, so many bytes further on. -/
def shift (size : Nat) (s : Scanner) : Scanner := { s with offset := s.offset + size }

theorem skipBlanks_shift (size : Nat) (s : Scanner) :
    (s.shift size).skipBlanks = s.skipBlanks.shift size := by
  simp only [shift, skipBlanks, Scanner.mk.injEq, true_and, and_true]
  omega

theorem tokenOf_shift {size : Nat} {s : Scanner} {piece : Piece}
    (h : s.offset + byteSize piece.text + size < Position.limit) :
    (s.shift size).tokenOf piece =
      (Relabelling.moved (.shift size)).token (s.tokenOf piece) := by
  have hstop : s.offset + size + byteSize piece.text = s.offset + byteSize piece.text + size := by
    omega
  simp only [tokenOf, shift, Span.mark, Relabelling.moved]
  rw [hstop, Position.mark_shift h, Position.mark_shift (by omega)]

theorem skipPiece_shift {size : Nat} {s : Scanner} (h : s.offset + size < Position.limit)
    (hnone : s.diagnostics = []) (piece : Piece) :
    ((s.shift size).skipPiece piece).diagnostics =
      (s.skipPiece piece).diagnostics.map (.shift size) := by
  simp only [skipPiece, shift, hnone, List.nil_append, List.map_map, Position.mark_shift h]
  rfl

theorem run_shift (size : Nat) (s : Scanner)
    (hs : s.offset + byteSize s.rest + size < Position.limit) (hnone : s.diagnostics = []) :
    (s.shift size).run = s.run.map (.shift size) := by
  induction s using run_induct with
  | last s h =>
      have hend : (s.shift size).offset + byteSize (s.shift size).rest =
          s.offset + byteSize s.rest + size := Nat.add_right_comm _ _ _
      rw [run_of_rest_eq_nil h, run_of_rest_eq_nil (s := s.shift size) h, hend,
        Token.atEnd_shift hs, show (s.shift size).diagnostics = [] from hnone, hnone]
      rfl
  | next s c cs h ih =>
      have h' : (s.shift size).skipBlanks.rest = c :: cs := h
      have hbehind : (s.shift size).behind = s.behind.shift size := by
        rw [behind_eq h, behind_eq h', skipBlanks_shift]
        simp only [shift, Scanner.mk.injEq, true_and, and_true]
        omega
      have hsize : s.skipBlanks.offset + byteSize (Piece.cut c cs).text + size <
          Position.limit := by
        have hend := s.behind_offset
        rw [behind_eq h] at hend
        simp only at hend
        omega
      have hlater := ih (by rw [behind_offset]; exact hs) (by rw [behind_eq h])
      have hkept := skipPiece_shift
        (show s.skipBlanks.offset + size < Position.limit by omega) hnone (.cut c cs)
      rw [run_of_rest_eq_cons h, run_of_rest_eq_cons h', hbehind, hlater, skipBlanks_shift,
        tokenOf_shift hsize, hkept]
      rfl

theorem tokens_shift (size : Nat) (s : Scanner)
    (hs : s.offset + byteSize s.rest + size < Position.limit) (hnone : s.diagnostics = []) :
    (s.shift size).tokens = s.tokens.map (Relabelling.moved (.shift size)).token := by
  rw [tokens, tokens, run_shift size s hs hnone, List.map_map, List.filter_map, List.filter_map,
    List.map_map]
  rfl

/-! ## Joining texts -/

/-- The same scanner with a newline and more text behind what it has. -/
def extend (s : Scanner) (more : List Char) : Scanner := { s with rest := s.rest ++ '\n' :: more }

/-- The scanner behind the newline. -/
def beyond (s : Scanner) (more : List Char) : Scanner :=
  ⟨s.file, s.offset + byteSize s.rest + 1, more, []⟩

/-- Behind the last token the scanner comes to the newline. -/
theorem skipBlanks_extend_of_rest_eq_nil {s : Scanner} (h : s.skipBlanks.rest = [])
    (hnone : s.diagnostics = []) (more : List Char) :
    (s.extend more).skipBlanks = (s.beyond more).skipBlanks := by
  have hblank : ∀ c ∈ s.rest ++ ['\n'], isBlank c := by
    intro c hc
    rcases List.mem_append.mp hc with hc | hc
    · exact List.dropWhile_eq_nil_iff.mp h c hc
    · rw [List.mem_singleton.mp hc]
      decide
  have hrest : s.rest ++ '\n' :: more = (s.rest ++ ['\n']) ++ more := by simp
  simp only [extend, beyond, skipBlanks, Scanner.mk.injEq, true_and]
  refine ⟨?_, ?_, hnone⟩
  · rw [hrest, List.takeWhile_append_of_pos hblank, byteSize_append, byteSize_append,
      show byteSize ['\n'] = 1 from rfl]
    omega
  · rw [hrest, List.dropWhile_append_of_pos hblank]

/-- In front of its last token the scanner does not see the newline. -/
theorem skipBlanks_extend {s : Scanner} {c : Char} {cs : List Char}
    (h : s.skipBlanks.rest = c :: cs) (more : List Char) :
    (s.extend more).skipBlanks = s.skipBlanks.extend more := by
  have hdrop : s.rest.dropWhile isBlank = c :: cs := h
  have hlength := congrArg List.length
    (List.takeWhile_append_dropWhile (p := isBlank) (l := s.rest))
  rw [hdrop, List.length_append, List.length_cons] at hlength
  simp only [extend, skipBlanks]
  rw [List.takeWhile_append, if_neg (by omega), List.dropWhile_append, hdrop]
  rfl

/-- What a scanner hands out over the joined texts. The end token of the first text
is not among it. -/
theorem run_extend (s : Scanner) (more : List Char)
    (hs : ∀ d ∈ s.run.flatMap (·.diagnostics), d.cause ≠ .unterminatedComment)
    (hnone : s.diagnostics = []) :
    ∃ supplies, s.run = supplies ++ [⟨.atEnd (s.offset + byteSize s.rest) s.file, []⟩] ∧
      (s.extend more).run = supplies ++ (s.beyond more).run := by
  induction s using run_induct with
  | last s h =>
      refine ⟨[], by rw [run_of_rest_eq_nil h, hnone]; rfl, ?_⟩
      exact run_congr (skipBlanks_extend_of_rest_eq_nil h hnone more)
  | next s c cs h ih =>
      rw [run_of_rest_eq_cons h, List.flatMap_cons, List.forall_mem_append] at hs
      have hcause : (Piece.cut c cs).cause? ≠ some .unterminatedComment := by
        intro hcause
        refine hs.1 ⟨.unterminatedComment, .mark s.skipBlanks.offset s.file⟩ ?_ rfl
        simp [skipPiece, hcause, skipBlanks]
      have hskip := skipBlanks_extend h more
      have hrest : (s.extend more).skipBlanks.rest = c :: (cs ++ '\n' :: more) := by
        rw [hskip, extend, h]
        rfl
      have hcut := Piece.cut_newline hcause more
      have hbehind : (s.extend more).behind = s.behind.extend more := by
        rw [behind_eq h, behind_eq hrest, hcut, hskip]
        rfl
      have hfile : s.behind.file = s.file := by rw [behind_eq h]
      have hbeyond : s.behind.beyond more = s.beyond more := by
        rw [beyond, beyond, behind_offset, hfile]
      obtain ⟨supplies, hrun, hextend⟩ := ih hs.2 (by rw [behind_eq h])
      rw [behind_offset, hfile] at hrun
      refine ⟨⟨s.skipBlanks.tokenOf (.cut c cs),
        (s.skipBlanks.skipPiece (.cut c cs)).diagnostics⟩ :: supplies,
        by rw [run_of_rest_eq_cons h, hrun, List.cons_append], ?_⟩
      · rw [run_of_rest_eq_cons hrest, hbehind, hextend, hbeyond, hcut, hskip]
        rfl

end Scanner

/-! ## Sources -/

/-- A scan of the joined texts hands out what a scan of the first one does, the end
token apart, and then what a scan of the second one does, so many bytes further on. -/
theorem run_join {first second : String}
    (hsize : byteSize (first ++ "\n" ++ second).toList < Position.limit) (file : String)
    (hcomment : ∀ d ∈ (Scanner.ofSource first file).run.flatMap (·.diagnostics),
      d.cause ≠ .unterminatedComment) :
    ∃ supplies, (Scanner.ofSource first file).run =
        supplies ++ [⟨.atEnd (byteSize first.toList) file, []⟩] ∧
      (Scanner.ofSource (first ++ "\n" ++ second) file).run = supplies ++
        (Scanner.ofSource second file).run.map (.shift (byteSize first.toList + 1)) := by
  have hlist : (first ++ "\n" ++ second).toList = first.toList ++ '\n' :: second.toList := by
    simp
  have hshift := (Scanner.ofSource second file).run_shift (byteSize first.toList + 1) (by
    rw [hlist, byteSize_append, byteSize_cons, show '\n'.utf8Size = 1 from rfl] at hsize
    simp only [Scanner.ofSource]
    omega) rfl
  have hextend : (Scanner.ofSource first file).extend second.toList =
      Scanner.ofSource (first ++ "\n" ++ second) file := by
    rw [Scanner.ofSource, Scanner.ofSource, hlist]
    rfl
  have hbeyond : (Scanner.ofSource first file).beyond second.toList =
      (Scanner.ofSource second file).shift (byteSize first.toList + 1) := by
    simp [Scanner.beyond, Scanner.shift, Scanner.ofSource]
  obtain ⟨supplies, hrun, hjoin⟩ :=
    (Scanner.ofSource first file).run_extend second.toList hcomment rfl
  rw [hextend, hbeyond, hshift] at hjoin
  refine ⟨supplies, ?_, hjoin⟩
  rw [hrun, show (Scanner.ofSource first file).offset = 0 from rfl, Nat.zero_add]
  rfl

theorem sourceTokens_join {first second : String}
    (hsize : byteSize (first ++ "\n" ++ second).toList < Position.limit) (file : String)
    (hcomment : ∀ d ∈ (Scanner.ofSource first file).run.flatMap (·.diagnostics),
      d.cause ≠ .unterminatedComment) :
    sourceTokens (first ++ "\n" ++ second) file =
      sourceTokens first file ++ (sourceTokens second file).map
        (Relabelling.moved (.shift (byteSize first.toList + 1))).token := by
  obtain ⟨supplies, hrun, hjoin⟩ := run_join hsize file hcomment
  simp only [sourceTokens, tokenize, hrun, hjoin, List.map_append, List.filter_append,
    List.map_map, List.filter_map]
  exact congrArg (· ++ _) (List.append_nil _).symm

end Frontend
