import Frontend.Proofs.Along
import Frontend.Proofs.Partition

/-!
# What is reported about the text

The diagnostics of a source about its characters are settled by its tokens: one
for each illegal token, and one for a comment that is never closed, which can
only be the last token. `Reported` says so without the scanner; `run_reported`
shows it of what a scan gives, by induction over the tokens.

A parser takes these diagnostics over with the tokens they came with, the one
behind the next included, and a few steps before it needs them. None is left
behind when it has reached the end: once an end token is in the window, the
stream is empty. `Exhausted` keeps track of this, and every step of a parse
keeps it.
-/

namespace Frontend

open Text

/-! ## Pieces with something wrong -/

/-- Whether a text opens a comment that it does not close. -/
def isUnclosed : List Char → Bool
  | '/' :: '*' :: body => ¬ ['*', '/'] <:+: body
  | _ => false

/-- Whether the token is a block comment without a closing mark. -/
def Token.isOpenComment (t : Token) : Bool := t.kind = .comment && isUnclosed t.lexeme.toList

theorem Kind.ofWord_ne_comment (word : String) : ofWord word ≠ .comment := by
  intro h
  have hword := isWord_ofWord word
  rw [h] at hword
  cases hword

/-- A piece is an illegal character, a comment that is never closed, or as it should
be. -/
theorem Piece.cut_cause (c : Char) (cs : List Char) :
    ((cut c cs).kind = .illegal ∧
        (cut c cs).cause? = some (.unrecognisedToken (String.ofList [c]))) ∨
      ((cut c cs).kind = .comment ∧ isUnclosed (cut c cs).text ∧ (cut c cs).rest = [] ∧
        (cut c cs).cause? = some .unterminatedComment) ∨
      ((cut c cs).kind ≠ .illegal ∧
        ((cut c cs).kind = .comment → isUnclosed (cut c cs).text = false) ∧
        (cut c cs).cause? = none) := by
  refine cut_cases (motive := fun c cs piece =>
    (piece.kind = .illegal ∧ piece.cause? = some (.unrecognisedToken (String.ofList [c]))) ∨
      (piece.kind = .comment ∧ isUnclosed piece.text ∧ piece.rest = [] ∧
        piece.cause? = some .unterminatedComment) ∨
      (piece.kind ≠ .illegal ∧ (piece.kind = .comment → isUnclosed piece.text = false) ∧
        piece.cause? = none)) ?_ ?_ ?_ ?_ ?_ ?_ ?_ c cs
  · intro cs
    exact .inr (.inr ⟨by simp [lineComment], fun _ => by simp [lineComment, isUnclosed], rfl⟩)
  · intro cs
    cases hsplit : splitComment? cs with
    | none =>
        rw [blockComment, hsplit]
        refine .inr (.inl ⟨rfl, ?_, rfl, rfl⟩)
        simpa [isUnclosed] using splitComment?_eq_none_iff.mp hsplit
    | some pair =>
        obtain ⟨body, rest⟩ := pair
        rw [blockComment, hsplit]
        obtain ⟨inner, rfl, -⟩ := exists_inner_of_splitComment? hsplit
        refine .inr (.inr ⟨by simp, fun _ => ?_, rfl⟩)
        have hclosed : ['*', '/'] <:+: inner ++ ['*', '/'] := (List.suffix_append _ _).isInfix
        simpa [isUnclosed] using hclosed
  · exact fun c d cs s _ _ => .inr (.inr ⟨by simp, by simp, rfl⟩)
  · exact fun c cs s _ _ _ => .inr (.inr ⟨by simp, by simp, rfl⟩)
  · exact fun c cs _ _ => .inr (.inr ⟨by simp [number], by simp [number], rfl⟩)
  · intro c cs _ _
    exact .inr (.inr ⟨Kind.ofWord_ne_illegal _, fun h => absurd h (Kind.ofWord_ne_comment _), rfl⟩)
  · exact fun c cs _ _ _ => .inl ⟨rfl, rfl⟩

/-! ## The report -/

/-- The diagnostic names the character of the text on which an illegal token
stands. -/
def Diagnostic.Names (cs : List Char) (t : Token) (d : Diagnostic) : Prop :=
  ∃ left c right, cs = left ++ c :: right ∧ byteSize left = t.span.start.offset ∧
    d = ⟨.unrecognisedToken (String.ofList [c]), t.span.start⟩

/-- The diagnostic of the last token, if it is a comment that is never closed. -/
def unclosedReport (ts : List Token) : List Diagnostic :=
  (ts.getLast?.filter Token.isOpenComment).toList.map fun t => ⟨.unterminatedComment, t.span.start⟩

/-- The diagnostics are those of the tokens of a text: one for each illegal token,
and one for a comment that is never closed. -/
def Reported (cs : List Char) (ts : List Token) (ds : List Diagnostic) : Prop :=
  ∃ unrecognised,
    List.Forall₂ (Diagnostic.Names cs) (ts.filter (·.kind = .illegal)) unrecognised ∧
      ds = unrecognised ++ unclosedReport ts

theorem unclosedReport_cons {t : Token} (ht : t.isOpenComment = false) (ts : List Token) :
    unclosedReport (t :: ts) = unclosedReport ts := by
  cases ts with
  | nil => simp [unclosedReport, ht, Option.filter]
  | cons u us => simp [unclosedReport]

namespace Reported

variable {cs : List Char} {t : Token} {ts : List Token} {ds : List Diagnostic}

theorem nil (cs : List Char) : Reported cs [] [] := ⟨[], .nil, rfl⟩

/-- A token that nothing is wrong with. -/
theorem sound (h : Reported cs ts ds) (hkind : t.kind ≠ .illegal)
    (hopen : t.isOpenComment = false) : Reported cs (t :: ts) ds := by
  obtain ⟨us, hus, rfl⟩ := h
  refine ⟨us, ?_, by rw [unclosedReport_cons hopen]⟩
  rwa [List.filter_cons_of_neg (by simpa using hkind)]

theorem illegal (h : Reported cs ts ds) (hkind : t.kind = .illegal) {d : Diagnostic}
    (hd : d.Names cs t) : Reported cs (t :: ts) (d :: ds) := by
  obtain ⟨us, hus, rfl⟩ := h
  have hopen : t.isOpenComment = false := by simp [Token.isOpenComment, hkind]
  refine ⟨d :: us, ?_, by rw [unclosedReport_cons hopen, List.cons_append]⟩
  rw [List.filter_cons_of_pos (by simpa using hkind)]
  exact .cons hd hus

theorem unclosed (hopen : t.isOpenComment) :
    Reported cs [t] [⟨.unterminatedComment, t.span.start⟩] := by
  have hkind : t.kind ≠ .illegal := by
    intro hkind
    simp [Token.isOpenComment, hkind] at hopen
  refine ⟨[], ?_, by simp [unclosedReport, hopen, Option.filter]⟩
  rw [List.filter_cons_of_neg (by simpa using hkind)]
  exact .nil

end Reported

namespace Scanner

/-- A scan reports what is wrong with the tokens it hands out. -/
theorem run_reported (s : Scanner) (before : List Char) (hbefore : s.offset = byteSize before)
    (hs : byteSize (before ++ s.rest) < Position.limit) (hnone : s.diagnostics = []) :
    ∃ ts last, s.run.map (·.token) = ts ++ [last] ∧
      Reported (before ++ s.rest) ts (s.run.flatMap (·.diagnostics)) := by
  induction s using run_induct generalizing before with
  | last s h =>
      refine ⟨[], _, by rw [run_of_rest_eq_nil h]; rfl, ?_⟩
      simpa [run_of_rest_eq_nil h, hnone] using Reported.nil _
  | next s c cs h ih =>
      obtain ⟨gap, -, hsplit, hskip, hbehind⟩ := exists_gap h hbefore
      have hrest : s.behind.rest = (Piece.cut c cs).rest := by rw [behind_eq h]
      have hsplit' : before ++ gap ++ (Piece.cut c cs).text ++ s.behind.rest = before ++ s.rest := by
        simp only [hsplit, List.append_assoc]
      obtain ⟨ts, last, htokens, hreport⟩ := ih _ hbehind (hsplit' ▸ hs) (by rw [behind_eq h])
      rw [hsplit'] at hreport
      obtain ⟨t, ht⟩ : ∃ t, t = s.skipBlanks.tokenOf (.cut c cs) := ⟨_, rfl⟩
      have hkind : t.kind = (Piece.cut c cs).kind := congrArg Token.kind ht
      have hlexeme : t.kind ≠ .illegal → t.lexeme.toList = (Piece.cut c cs).text := by
        intro hne
        rw [ht, tokenOf, if_neg (hkind ▸ hne), String.toList_ofList]
      have hdiagnostics : s.run.flatMap (·.diagnostics) =
          (Piece.cut c cs).cause?.toList.map (⟨·, t.span.start⟩) ++
            s.behind.run.flatMap (·.diagnostics) := by
        rw [run_of_rest_eq_cons h, List.flatMap_cons, ht]
        simp only [skipPiece, show s.skipBlanks.diagnostics = [] from hnone, List.nil_append]
        rfl
      refine ⟨t :: ts, last, by rw [run_of_rest_eq_cons h, List.map_cons, htokens, ht]; rfl, ?_⟩
      rw [hdiagnostics]
      rcases Piece.cut_cause c cs with ⟨hillegal, hcause⟩ | ⟨hcomment, hopen, hlast, hcause⟩ |
        ⟨hlegal, hclosed, hcause⟩
      · rw [hcause]
        have hplace : before ++ gap ++ c :: cs = before ++ s.rest := by
          rw [← hsplit', List.append_assoc _ _ s.behind.rest, hrest, Piece.cut_text_append_rest]
        refine hreport.illegal (hkind.trans hillegal) ⟨before ++ gap, c, cs, hplace.symm, ?_, rfl⟩
        rw [← hplace, byteSize_append, ← hskip] at hs
        rw [← hskip, ht]
        exact (Position.mark_offset (by omega) _).symm
      · -- Nothing comes behind a comment that is never closed.
        have hnil : s.behind.skipBlanks.rest = [] := by rw [skipBlanks, hrest, hlast]; rfl
        have hnone' : s.behind.diagnostics = [] := by rw [behind_eq h]
        rw [run_of_rest_eq_nil hnil] at htokens
        obtain rfl : ts = [] := by simpa using congrArg List.length htokens
        rw [hcause, run_of_rest_eq_nil hnil, hnone']
        refine Reported.unclosed ?_
        rw [Token.isOpenComment, hlexeme (by rw [hkind, hcomment]; simp), hkind, hcomment, hopen]
        rfl
      · rw [hcause]
        refine hreport.sound (hkind ▸ hlegal) ?_
        rw [Token.isOpenComment, Bool.and_eq_false_iff, hlexeme (hkind ▸ hlegal), hkind]
        rw [decide_eq_false_iff_not, or_iff_not_imp_left, not_not]
        exact hclosed

/-- A scan reports in the order of the text. -/
theorem run_diagnostics_ordered (s : Scanner)
    (hs : s.offset + byteSize s.rest < Position.limit) (hnone : s.diagnostics = []) :
    (s.run.flatMap (·.diagnostics)).Pairwise (·.position.offset < ·.position.offset) ∧
      ∀ d ∈ s.run.flatMap (·.diagnostics), s.offset ≤ d.position.offset := by
  induction s using run_induct with
  | last s h => simp [run_of_rest_eq_nil h, hnone]
  | next s c cs h ih =>
      have hend := s.behind_offset
      obtain ⟨hpairwise, hlater⟩ := ih (hend ▸ hs) (by rw [behind_eq h])
      have hpos := byteSize_pos (Piece.cut_text_ne_nil c cs)
      have hbehind : s.behind.offset =
          s.skipBlanks.offset + byteSize (Piece.cut c cs).text := by rw [behind_eq h]
      have hle : s.offset ≤ s.skipBlanks.offset := Nat.le_add_right _ _
      have hmark : (Position.mark s.skipBlanks.offset s.file).offset = s.skipBlanks.offset :=
        Position.mark_offset (by omega) _
      have hown : ∀ d ∈ (s.skipBlanks.skipPiece (.cut c cs)).diagnostics,
          d.position.offset = s.skipBlanks.offset := by
        intro d hd
        rw [skipPiece, show s.skipBlanks.diagnostics = [] from hnone, List.nil_append] at hd
        obtain ⟨cause, -, rfl⟩ := List.mem_map.mp hd
        exact hmark
      rw [run_of_rest_eq_cons h, List.flatMap_cons, List.pairwise_append]
      refine ⟨⟨?_, hpairwise, fun d hd e he => ?_⟩, List.forall_mem_append.mpr ⟨?_, ?_⟩⟩
      · simp only [skipPiece, show s.skipBlanks.diagnostics = [] from hnone, List.nil_append]
        cases (Piece.cut c cs).cause? <;> simp
      · have := hlater e he
        rw [hown d hd]
        omega
      · intro d hd
        rw [hown d hd]
        exact hle
      · intro d hd
        have := hlater d hd
        omega

/-! ## Scanning without taking the diagnostics -/

/-- The scanner with diagnostics that it has kept from earlier on. -/
def keeping (s : Scanner) (ds : List Diagnostic) : Scanner :=
  { s with diagnostics := ds ++ s.diagnostics }

theorem scan_keeping (s : Scanner) (ds : List Diagnostic) :
    (s.keeping ds).scan = (s.scan.1, s.scan.2.keeping ds) := by
  unfold scan
  rw [show (s.keeping ds).skipBlanks = s.skipBlanks.keeping ds from rfl]
  simp only [show (s.skipBlanks.keeping ds).rest = s.skipBlanks.rest from rfl]
  split
  · rfl
  · simp [keeping, skipPiece, tokenOf]

theorem after_keeping (s : Scanner) (ds : List Diagnostic) (n : Nat) :
    (s.keeping ds).after n = (s.after n).keeping ds := by
  induction n generalizing s with
  | zero => rfl
  | succ n ih =>
      have hafter : ∀ s : Scanner, s.after (n + 1) = s.scan.2.after n :=
        fun s => Function.iterate_succ_apply _ n s
      rw [hafter, hafter, scan_keeping, ih]

/-- A scanner that is scanned to the end holds all that a run hands out. -/
theorem after_run_diagnostics (s : Scanner) :
    (s.after s.run.length).diagnostics = s.run.flatMap (·.diagnostics) := by
  induction s using run_induct with
  | last s h =>
      rw [run_of_rest_eq_nil h, after, List.length_singleton, Function.iterate_one,
        scan_of_rest_eq_nil h]
      simp [skipBlanks]
  | next s c cs h ih =>
      have hscan : s.scan.2 = s.behind.keeping (s.skipBlanks.skipPiece (.cut c cs)).diagnostics := by
        rw [behind, scan, h]
        simp [keeping, takeDiagnostics]
      rw [run_of_rest_eq_cons h, List.length_cons, after, Function.iterate_succ_apply, ← after,
        hscan, after_keeping, List.flatMap_cons, ← ih]
      rfl

end Scanner

/-! ## The end of a stream -/

/-- Nothing comes behind an end token. -/
def EndsOnce (supplies : List Supply) : Prop := supplies.Pairwise fun s _ => s.token.kind ≠ .eof

namespace EndsOnce

theorem pullFrom {supplies : List Supply} (h : EndsOnce supplies) (last : Token) :
    EndsOnce (TokenStream.pullFrom last supplies).2 ∧
      ((TokenStream.pullFrom last supplies).1.token.kind = .eof →
        (TokenStream.pullFrom last supplies).2 = []) := by
  induction supplies with
  | nil => exact ⟨h, fun _ => rfl⟩
  | cons s rest ih =>
      obtain ⟨hs, hrest⟩ := List.pairwise_cons.mp h
      rw [TokenStream.pullFrom]
      split
      · exact ih hrest
      · refine ⟨hrest, fun heof => List.eq_nil_iff_forall_not_mem.mpr fun u hu => ?_⟩
        exact hs u hu heof

theorem run (s : Scanner) : EndsOnce s.run := by
  induction s using Scanner.run_induct with
  | last s h =>
      rw [Scanner.run_of_rest_eq_nil h]
      exact List.pairwise_singleton _ _
  | next s c cs h ih =>
      rw [Scanner.run_of_rest_eq_cons h]
      exact List.pairwise_cons.mpr ⟨fun _ _ => Piece.cut_kind_ne_eof c cs, ih⟩

end EndsOnce

namespace Parser

/-- Once an end token is in the window, nothing is left to come. -/
structure Exhausted (p : Parser) : Prop where
  pending : EndsOnce p.stream.pending
  current : p.current.kind = .eof → p.stream.pending = []
  lookahead : p.lookahead.kind = .eof → p.stream.pending = []

namespace Exhausted

theorem ofStream {stream : TokenStream} (h : EndsOnce stream.pending) :
    (Parser.ofStream stream).Exhausted := by
  obtain ⟨hfirst, hnil⟩ := h.pullFrom stream.last
  obtain ⟨hsecond, hlast⟩ := hfirst.pullFrom stream.last
  refine ⟨hsecond, fun heof => ?_, hlast⟩
  have hnone := hnil heof
  show (TokenStream.pullFrom stream.last (TokenStream.pullFrom stream.last stream.pending).2).2 = []
  rw [hnone]
  rfl

theorem advance {p : Parser} (h : p.Exhausted) : p.advance.Exhausted := by
  obtain ⟨hrest, hlast⟩ := h.pending.pullFrom p.stream.last
  refine ⟨hrest, fun heof => ?_, hlast⟩
  have hnone := h.lookahead heof
  show (TokenStream.pullFrom p.stream.last p.stream.pending).2 = []
  rw [hnone]
  rfl

/-- Every step of a parse keeps it. -/
instance : Throughout fun p q => p.Exhausted → q.Exhausted where
  refl _ := id
  trans h h' := h' ∘ h
  advance _ := advance
  note _ _ _ _ _ h := ⟨h.pending, h.current, h.lookahead⟩
  settle _ h := ⟨h.pending, h.current, h.lookahead⟩
  statement _ _ _ h := ⟨h.pending, h.current, h.lookahead⟩
  record _ _ h := ⟨h.pending, h.current, h.lookahead⟩
  stop _ h := ⟨h.pending, h.current, h.lookahead⟩

end Exhausted

end Parser

/-! ## Sources -/

/-- The diagnostics about the text that a parse gives are those of its stream. -/
theorem parse_isLexical (source file : String) :
    (parse source file).2.filter (·.cause.isLexical) =
      (Scanner.ofSource source file).run.flatMap (·.diagnostics) := by
  obtain ⟨ss, q, -, hprogram, ⟨ts, ds, -, hwalk⟩, hend⟩ :=
    Parser.parseProgram_reads (p := .ofStream (.ofSource source file)) ⟨rfl, rfl⟩
  have hkept : Along (fun p q => p.Exhausted → q.Exhausted) Parser.parseProgram :=
    Parser.parseProgram_along Parser.stmtOrRecover_along
  have hexhausted : q.Exhausted := (hkept _).of_ok hprogram (.ofStream (EndsOnce.run _))
  have hdelivered : q.delivered = (Scanner.ofSource source file).run.flatMap (·.diagnostics) := by
    rw [hwalk.delivered, Parser.delivered_ofStream]
    rfl
  have hlexical : ∀ d ∈ q.delivered, d.cause.isLexical := by
    rw [hdelivered]
    exact isLexical_ofSource source file
  have hfaults : ∀ d ∈ q.faults, d.cause.isLexical = false := by
    rw [hwalk.faults, Parser.faults_ofStream, List.nil_append]
    exact hwalk.syntactic
  rw [parse, parseStream, hprogram, Parser.filter_lexical hlexical hfaults, ← hdelivered,
    Parser.delivered, hexhausted.current hend, List.flatMap_nil, List.append_nil]

/-- The diagnostics of a source about its text are those of its tokens, in the order
of the text: an illegal token is reported with the character that it stands on, and
a comment that is never closed, which is the last token then, is reported at the
end. A parse gives them all and gives them once, and so does a scanner that is
scanned to the end, however often it is scanned then. -/
theorem parse_reports {source : String} (h : byteSize source.toList < Position.limit)
    (file : String) :
    ∃ ts last, tokenize source file = ts ++ [last] ∧ last.kind = .eof ∧
      (∀ t ∈ ts, t.kind ≠ .eof) ∧ ∃ ds, (parse source file).2.filter (·.cause.isLexical) = ds ∧
        (∀ n, ((Scanner.ofSource source file).after (ts.length + 1 + n)).diagnostics = ds) ∧
        Reported source.toList ts ds ∧ ds.Pairwise (·.position.offset < ·.position.offset) := by
  obtain ⟨ts, last, htokens, -, hlast, -, hkinds, -, hscan⟩ := tokenize_partition h file
  obtain ⟨ts', last', htokens', hreported⟩ :=
    (Scanner.ofSource source file).run_reported [] rfl h rfl
  obtain ⟨rfl, -⟩ := List.append_inj' (htokens.symm.trans htokens') rfl
  refine ⟨ts, last, htokens, hlast, hkinds, _, parse_isLexical source file, fun n => ?_,
    hreported, ?_⟩
  · have hlength : (Scanner.ofSource source file).run.length = ts.length + 1 := by
      simpa using congrArg List.length htokens'
    have hstays : (Scanner.ofSource source file).after (ts.length + 1 + n) =
        (Scanner.ofSource source file).after (ts.length + 1) := by
      rw [Nat.add_right_comm, Scanner.after, Function.iterate_succ_apply', ← Scanner.after, hscan]
    rw [hstays, ← hlength, Scanner.after_run_diagnostics]
  · refine ((Scanner.ofSource source file).run_diagnostics_ordered ?_ rfl).1
    rw [show (Scanner.ofSource source file).offset = 0 from rfl, Nat.zero_add]
    exact h

/-- An illegal character of three bytes in a statement that fails, and a comment that
is never closed. -/
theorem parse_reports_sample :
    byteSize "if € /* */ + /*/".toList < Position.limit ∧
      ∃ ts last, tokenize "if € /* */ + /*/" "a.x" = ts ++ [last] ∧
        Reported "if € /* */ + /*/".toList ts
          ((parse "if € /* */ + /*/" "a.x").2.filter (·.cause.isLexical)) := by
  have h : byteSize "if € /* */ + /*/".toList < Position.limit := by decide
  obtain ⟨ts, last, htokens, -, -, ds, hparse, -, hreported, -⟩ := parse_reports h "a.x"
  exact ⟨h, ts, last, htokens, hparse ▸ hreported⟩

example : (parse "if € /* */ + /*/" "a.x").2.filter (·.cause.isLexical) =
    [⟨.unrecognisedToken "€", ⟨3, "a.x"⟩⟩, ⟨.unterminatedComment, ⟨15, "a.x"⟩⟩] := by
  decide

end Frontend
