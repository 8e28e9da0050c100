import Frontend.Proofs.LineBreaks
import Frontend.Proofs.ScanSlice

/-!
# Tokens written one below the other

The texts of the tokens of a source, each on a line of its own, have these tokens again,
comments included. A piece that is cut from a text is cut from its own characters alone
(`Piece.exists_cut_text`), and a newline behind them does not change it, unless it is a
comment that is never closed. There can only be one of these, and it comes last, where no
newline is put behind it.

`Supply.reading` is what is left of a token when its place does not count. The readings of
a scanner depend on the text behind the blanks only, `readings_congr`, so that the blanks
of the source and the newlines put in their place make no difference.
-/

namespace Frontend

open Text

/-- The text of a piece alone is cut into that piece. -/
theorem Piece.exists_cut_text (c : Char) (cs : List Char) :
    ∃ ds, (cut c cs).text = c :: ds ∧ cut c ds = { cut c cs with rest := [] } := by
  obtain ⟨d, ds, htext⟩ := List.exists_cons_of_ne_nil (cut_text_ne_nil c cs)
  have hsplit := cut_text_append_rest c cs
  rw [htext, List.cons_append] at hsplit
  obtain ⟨rfl, hcs⟩ := List.cons.inj hsplit
  obtain ⟨rest, hrest⟩ : ∃ rest, rest = (cut d cs).rest := ⟨_, rfl⟩
  rw [← hrest] at hcs
  have hbehind : (cut d (ds ++ rest)).rest = [] ++ rest := by
    rw [hcs, hrest]
    rfl
  have happend : cut d (ds ++ rest) = (cut d ds).extend rest := cut_append hbehind
  rw [hcs] at happend
  have hnone : (cut d ds).rest = [] := by
    have hlater := congrArg Piece.rest happend
    rw [← hrest] at hlater
    exact List.append_left_eq_self.mp hlater.symm
  refine ⟨ds, htext, ?_⟩
  rw [happend, extend, ← hnone]

/-- A comment that is never closed takes all of the text. -/
theorem Piece.rest_eq_nil_of_unterminated {c : Char} {cs : List Char}
    (h : (cut c cs).cause? = some .unterminatedComment) : (cut c cs).rest = [] := by
  rcases cut_cause c cs with ⟨-, hcause⟩ | ⟨-, -, hrest, -⟩ | ⟨-, -, hcause⟩
  · rw [hcause] at h
    cases h
  · exact hrest
  · rw [hcause] at h
    cases h

/-- A token without its place, and what is wrong with it. -/
def Supply.reading (s : Supply) : Kind × String × List Cause :=
  (s.token.kind, s.token.lexeme, s.diagnostics.map (·.cause))

/-- What is read from a piece. -/
def Piece.reading (piece : Piece) : Kind × String × List Cause :=
  (piece.kind, if piece.kind = .illegal then Token.illegalLexeme else String.ofList piece.text,
    piece.cause?.toList)

namespace Scanner

/-- What a scanner will hand out, without the places. -/
def readings (s : Scanner) : List (Kind × String × List Cause) := s.run.map Supply.reading

variable {s t : Scanner}

theorem readings_of_rest_eq_nil (h : s.skipBlanks.rest = []) (hnone : s.diagnostics = []) :
    s.readings = [(.eof, Token.endLexeme, [])] := by
  rw [readings, run_of_rest_eq_nil h, hnone]
  rfl

theorem readings_of_rest_eq_cons {c : Char} {cs : List Char} (h : s.skipBlanks.rest = c :: cs)
    (hnone : s.diagnostics = []) :
    s.readings = (Piece.cut c cs).reading :: s.behind.readings := by
  have hcauses : (s.skipBlanks.skipPiece (.cut c cs)).diagnostics.map (·.cause) =
      (Piece.cut c cs).cause?.toList := by
    rw [skipPiece, show s.skipBlanks.diagnostics = [] from hnone, List.nil_append, List.map_map]
    exact List.map_id _
  rw [readings, run_of_rest_eq_cons h, List.map_cons, Supply.reading, hcauses]
  rfl

/-- What is read depends on the text behind the blanks. -/
theorem readings_congr (hs : s.diagnostics = []) (ht : t.diagnostics = [])
    (h : s.skipBlanks.rest = t.skipBlanks.rest) : s.readings = t.readings := by
  induction s using run_induct generalizing t with
  | last s hrest =>
      rw [readings_of_rest_eq_nil hrest hs, readings_of_rest_eq_nil (h ▸ hrest) ht]
  | next s c cs hrest ih =>
      have hrest' : t.skipBlanks.rest = c :: cs := h ▸ hrest
      have hbehind : s.behind.skipBlanks.rest = t.behind.skipBlanks.rest := by
        rw [behind_eq hrest, behind_eq hrest']
        rfl
      have hnone : s.behind.diagnostics = [] ∧ t.behind.diagnostics = [] := by
        rw [behind_eq hrest, behind_eq hrest']
        exact ⟨rfl, rfl⟩
      rw [readings_of_rest_eq_cons hrest hs, readings_of_rest_eq_cons hrest' ht,
        ih hnone.1 hnone.2 hbehind]

/-- The texts of the tokens that a scanner will hand out, the end token left out. -/
def lexemes (s : Scanner) : List (List Char) :=
  ((s.run.map (·.token)).filter (·.kind ≠ .eof)).map (·.lexeme.toList)

theorem lexemes_of_rest_eq_nil (h : s.skipBlanks.rest = []) : s.lexemes = [] := by
  rw [lexemes, run_of_rest_eq_nil h]
  rfl

theorem lexemes_of_rest_eq_cons {c : Char} {cs : List Char} (h : s.skipBlanks.rest = c :: cs)
    (hlegal : (Piece.cut c cs).kind ≠ .illegal) :
    s.lexemes = (Piece.cut c cs).text :: s.behind.lexemes := by
  have hkind : (s.skipBlanks.tokenOf (.cut c cs)).kind ≠ .eof := Piece.cut_kind_ne_eof c cs
  have hlexeme : (s.skipBlanks.tokenOf (.cut c cs)).lexeme.toList = (Piece.cut c cs).text := by
    rw [tokenOf, if_neg hlegal, String.toList_ofList]
  rw [lexemes, run_of_rest_eq_cons h, List.map_cons,
    List.filter_cons_of_pos (by simpa using hkind), List.map_cons, hlexeme]
  rfl

/-- The texts of the tokens of a scanner, each on a line of its own, are read as that
scanner reads them. -/
theorem readings_lexemes (hs : s.diagnostics = []) (ht : t.diagnostics = [])
    (hlegal : ∀ u ∈ s.run, u.token.kind ≠ .illegal)
    (h : t.rest = ['\n'].intercalate s.lexemes) : t.readings = s.readings := by
  induction s using run_induct generalizing t with
  | last s hrest =>
      rw [lexemes_of_rest_eq_nil hrest] at h
      rw [readings_of_rest_eq_nil hrest hs, readings_of_rest_eq_nil _ ht]
      rw [skipBlanks, h]
      rfl
  | next s c cs hrest ih =>
      rw [run_of_rest_eq_cons hrest, List.forall_mem_cons] at hlegal
      have hblank := isBlank_of_rest_eq_cons hrest
      obtain ⟨ds, htext, hcut⟩ := Piece.exists_cut_text c cs
      rw [lexemes_of_rest_eq_cons hrest hlegal.1, htext] at h
      rw [readings_of_rest_eq_cons hrest hs]
      have hstay : ∀ es, t.rest = c :: es → t.skipBlanks.rest = c :: es := by
        intro es hes
        rw [skipBlanks, hes, List.dropWhile_cons_of_neg (by simp [hblank])]
      have hnone : s.behind.diagnostics = [] := by rw [behind_eq hrest]
      by_cases hlast : s.behind.lexemes = []
      · -- Nothing is written behind the last text.
        rw [hlast, List.intercalate_singleton] at h
        have hrest' := hstay ds h
        rw [readings_of_rest_eq_cons hrest' ht, hcut]
        refine congrArg (_ :: ·) (ih hnone (by rw [behind_eq hrest']) hlegal.2 ?_)
        rw [hlast, behind_eq hrest', hcut]
        rfl
      · rw [List.intercalate_cons_of_ne_nil hlast] at h
        have hclosed : (Piece.cut c ds).cause? ≠ some .unterminatedComment := by
          intro hcause
          rw [hcut] at hcause
          refine hlast (lexemes_of_rest_eq_nil ?_)
          rw [behind_eq hrest, skipBlanks, Piece.rest_eq_nil_of_unterminated hcause]
          rfl
        have hnewline := Piece.cut_newline hclosed (['\n'].intercalate s.behind.lexemes)
        have hrest' := hstay (ds ++ '\n' :: ['\n'].intercalate s.behind.lexemes) (by simpa using h)
        rw [readings_of_rest_eq_cons hrest' ht, hnewline, hcut]
        -- The newline is a blank in front of the next text.
        set u : Scanner := { t.behind with rest := ['\n'].intercalate s.behind.lexemes } with hu
        have hu' : u.diagnostics = [] := by rw [hu, behind_eq hrest']
        refine congrArg (_ :: ·) ((readings_congr (by rw [behind_eq hrest']) hu' ?_).trans
          (ih hnone hu' hlegal.2 rfl))
        rw [behind_eq hrest', hnewline, hcut]
        rfl

end Scanner

/-- The texts of the tokens, the end token left out, each on a line of its own. -/
def joinLexemes (ts : List Token) : String :=
  "\n".intercalate ((ts.filter (·.kind ≠ .eof)).map (·.lexeme))

/-- The tokens of a source without illegal characters are the tokens of their own texts
written one below the other, and a comment is left open there if one is in the source. -/
theorem tokenize_joinLexemes {source file : String}
    (h : ∀ t ∈ tokenize source file, t.kind ≠ .illegal) (name : String) :
    (tokenize (joinLexemes (tokenize source file)) name).map (fun t => (t.kind, t.lexeme)) =
        (tokenize source file).map (fun t => (t.kind, t.lexeme)) ∧
      ((∃ d ∈ scanReports (joinLexemes (tokenize source file)) name,
          d.cause = .unterminatedComment) ↔
        ∃ d ∈ scanReports source file, d.cause = .unterminatedComment) := by
  set printed := joinLexemes (tokenize source file) with hprinted
  have hrest : (Scanner.ofSource printed name).rest =
      ['\n'].intercalate (Scanner.ofSource source file).lexemes := by
    rw [Scanner.ofSource, hprinted, joinLexemes, String.toList_intercalate, List.map_map]
    rfl
  have hreadings : (Scanner.ofSource printed name).readings =
      (Scanner.ofSource source file).readings :=
    Scanner.readings_lexemes rfl rfl (fun u hu => h _ (List.mem_map_of_mem hu)) hrest
  have htokens : ∀ source file, (tokenize source file).map (fun t => (t.kind, t.lexeme)) =
      (Scanner.ofSource source file).readings.map fun r => (r.1, r.2.1) := by
    intro source file
    rw [tokenize, Scanner.readings, List.map_map, List.map_map]
    rfl
  have hreports : ∀ source file, (∃ d ∈ scanReports source file, d.cause = .unterminatedComment) ↔
      ∃ r ∈ (Scanner.ofSource source file).readings, Cause.unterminatedComment ∈ r.2.2 := by
    intro source file
    rw [scanReports_eq, Scanner.readings]
    simp only [Supply.reading, List.mem_flatMap, List.mem_map, exists_exists_and_eq_and]
    constructor
    · rintro ⟨d, ⟨u, hu, hd⟩, hcause⟩
      exact ⟨u, hu, d, hd, hcause⟩
    · rintro ⟨u, hu, d, hd, hcause⟩
      exact ⟨d, ⟨u, hu, hd⟩, hcause⟩
  refine ⟨?_, ?_⟩
  · rw [htokens, htokens, hreadings]
  · rw [hreports, hreports, hreadings]

/-- A comment of two lines, a comment at the end of a line, a number with two dots and a
comment that is never closed, nearly all without blanks between them. -/
def lexemesSample : String := "fn/*\n*/ if1<<=1..2// a\r\n./*/"

theorem tokenize_joinLexemes_sample :
    (∀ t ∈ tokenize lexemesSample "a.x", t.kind ≠ .illegal) ∧
      (tokenize (joinLexemes (tokenize lexemesSample "a.x")) "b.x").map
          (fun t => (t.kind, t.lexeme)) =
        (tokenize lexemesSample "a.x").map (fun t => (t.kind, t.lexeme)) ∧
      ∃ d ∈ scanReports (joinLexemes (tokenize lexemesSample "a.x")) "b.x",
        d.cause = .unterminatedComment := by
  have h : ∀ t ∈ tokenize lexemesSample "a.x", t.kind ≠ .illegal := by decide
  obtain ⟨htokens, hreports⟩ := tokenize_joinLexemes h "b.x"
  have hopen : ⟨.unterminatedComment, ⟨25, "a.x"⟩⟩ ∈ scanReports lexemesSample "a.x" := by decide
  exact ⟨h, htokens, hreports.mpr ⟨_, hopen, rfl⟩⟩

end Frontend
