import Frontend.Proofs.BlockNesting
import Frontend.Proofs.ScanSlice
import Frontend.Proofs.StmtExact

/-!
# Statements by themselves

The text of a statement, cut out of its source and read by itself, gives the same
statement, and the same is recorded on the way. So nothing in front of a statement
has a part in how it is read, and what stands behind it has none either, although
the parse may have looked at it.

The end of the statement is a seam: the text ends there and the source goes on. On a
semicolon no production looks across, and on a closing brace only a conditional
does, which would have gone on behind it if there had been a use for what it saw.
What is left are expressions without a semicolon; they are read exactly, whatever
stands behind them.
-/

namespace Frontend

open Text

/-! ## Braces -/

/-- How many braces are left open is a matter of how many were open before. -/
theorem length_unmatched_append (ts us : List Token) :
    (nesting (ts ++ us)).unmatched.length = openBraces (nesting ts).unmatched.length us := by
  induction us generalizing ts with
  | nil => rw [List.append_nil, openBraces]
  | cons u us ih =>
      rw [List.append_cons, ih, nesting_concat, openBraces]
      by_cases hopen : u.kind = .symbol .openCurly
      · rw [Nesting.step_of_openCurly _ hopen, if_pos hopen, List.length_cons]
      by_cases hclose : u.kind = .symbol .closeCurly
      · rw [Nesting.step_of_closeCurly _ hclose, if_neg hopen, if_pos hclose]
        split
        · next hnone => rw [hnone, List.length_nil]
        · next hsome => rw [hsome, List.length_cons, Nat.add_sub_cancel]
      · rw [Nesting.step_of_isBrace_eq_false _ (Kind.isBrace_eq_false_iff.mpr ⟨hopen, hclose⟩),
          if_neg hopen, if_neg hclose]

theorem openBraces_map {f : Token → Token} (hf : ∀ t, (f t).kind = t.kind) (depth : Nat)
    (ts : List Token) : openBraces depth (ts.map f) = openBraces depth ts := by
  induction ts generalizing depth with
  | nil => rfl
  | cons t ts ih => simp only [List.map_cons, openBraces, hf, ih]

/-! ## The statements of a program -/

namespace Parser

/-- The turns of the loop over the statements of a program, from one state to another,
with the statements that were read. -/
inductive Turns : Parser → List Call → Parser → Prop
  | done {p : Parser} (hp : p.current.kind = .eof) : Turns p [] p
  | read {p q r : Parser} {s : Stmt} {calls : List Call} (hp : p.current.kind ≠ .eof)
      (h : parseStmt p = .ok s q) (hs : Turns q.advancePastStatement calls r) :
      Turns p (⟨p, s, q⟩ :: calls) r
  | recover {p q r : Parser} {d : Diagnostic} {calls : List Call} (hp : p.current.kind ≠ .eof)
      (h : parseStmt p = .error (.rejected d) q)
      (hs : Turns ((q.record d).recover p.current.span.start).advancePastStatement calls r) :
      Turns p calls r

/-- The loop over the statements of a program takes its turns. -/
theorem exists_turns {n : Nat} {p q : Parser} {ss : List Stmt}
    (h : statements parseStmtOrRecover n p = .ok ss q) :
    ∃ calls, Turns p calls q ∧ ss = calls.map (·.statement) := by
  induction n generalizing p ss with
  | zero => cases h
  | succ n ih =>
      rcases (statements_turns _ _ p).of_ok h with
        ⟨heof, rfl, rfl⟩ | ⟨hgoes, k, s?, r, rest, hk, hitem, hrest, rfl⟩
      · exact ⟨[], .done heof, rfl⟩
      · obtain rfl : n = k := by omega
        obtain ⟨calls, hturns, rfl⟩ := ih hrest
        rw [parseStmtOrRecover, stmtOrRecover] at hitem
        split at hitem
        · next hstmt =>
            cases hitem
            exact ⟨_, .read hgoes hstmt hturns, rfl⟩
        · next hstmt =>
            cases hitem
            exact ⟨calls, .recover hgoes hstmt hturns, rfl⟩
        · cases hitem

section Turns

variable {o p q : Parser} (ho : o.Fresh)

include ho

/-- Each statement of a program is read outside of all blocks. -/
theorem Turns.nested {calls : List Call} (h : Turns p calls q) (hp : Nested o [] p) :
    ∀ call ∈ calls, Nested o [] call.start ∧ call.start.current.kind ≠ .eof ∧
      parseStmt call.start = .ok call.statement call.stop := by
  induction h with
  | done => exact List.forall_mem_nil _
  | read hgoes hstmt _ ih =>
      have hclosed := (stmt_nests ho (parseBlock_nests ho) .parseBlock hp).of_ok hstmt
      refine List.forall_mem_cons.mpr ⟨⟨hp, hgoes, hstmt⟩, ?_⟩
      exact ih (advancePastStatement_nests ho hclosed)
  | @recover p q r d calls hgoes hstmt _ ih =>
      have hitem : parseStmtOrRecover p = .ok none ((q.record d).recover p.current.span.start) := by
        rw [parseStmtOrRecover, stmtOrRecover, show stmt parseBlock p = _ from hstmt]
      have hhandled :=
        (stmtOrRecover_nests ho (parseBlock_nests ho) .parseBlock hp hgoes).of_ok hitem
      exact ih (Recovered.past ho hhandled.1)

end Turns

/-- Reading a statement gives one or is rejected. -/
theorem parseStmt_reads {p : Parser} (hp : p.Plain) :
    Ensures parseStmt p (StmtRead p) fun f _ => ∃ d, f = .rejected d := by
  refine (stmt_reads (parseBlock_reads p.budget) hp).imp (fun _ _ h => h) fun f q hf => ?_
  cases f with
  | rejected d => exact ⟨d, rfl⟩
  | outOfFuel => exact absurd hf (not_starved_budget p)

/-- Braces are balanced in a statement that is read outside of all blocks. -/
theorem openBraces_of_nested {o p q : Parser} {s : Stmt} {ts : List Token}
    {ds : List Diagnostic} (ho : o.Fresh) (hp : Nested o [] p) (hgoes : p.current.kind ≠ .eof)
    (hrun : parseStmt p = .ok s q) (hreads : Reads ts ds p q) : openBraces 0 ts = 0 := by
  have hclosed := (stmt_nests ho (parseBlock_nests ho) .parseBlock hp).of_ok hrun
  obtain ⟨pre, _, hpre, htally⟩ := hp
  obtain ⟨us, _, hus, htally'⟩ := hclosed.nested
  obtain rfl : us = pre ++ ts := hus.unique (hpre.trans hreads.advance)
  have hbefore := htally.abandoned
  rw [htally.ended hgoes] at hbefore
  have hbehind := htally'.abandoned
  rw [blockEvents_advance, hclosed.whole] at hbehind
  have hlength := length_unmatched_append pre ts
  rw [← hbefore, ← hbehind] at hlength
  exact hlength.symm

/-- An expression in front of the end of the input is a statement. -/
theorem parseStmt_finds {p : Parser} (hp : p.Plain) {e : Expr} {ts : List Token}
    {rest : Stream' Token} (he : e.Spells ts) (hfits : e.Fits .lowest)
    (hu : p.upcoming = ts ++ₛ rest) (hrest : rest.head.kind = .eof) :
    Ensures parseStmt p
      (fun s q => s = .expression p.current e ⟨p.current.span.start, q.current.span.stop⟩ ∧
        Reads ts [] p q) fun _ _ => False := by
  obtain ⟨t, us, rule, rfl, hrule⟩ := he.exists_prefixRule hfits.2
  obtain ⟨rfl, -⟩ := of_upcoming_eq_cons hu
  set p₀ := p.note .statement .entered p.mark with hp₀
  have hnone : p₀.rules.stmtRule? p₀.current.kind = none := by
    rw [show p₀.rules = .standard from hp.rules]
    exact Kind.stmtRule?_eq_none_of_prefixRule? hrule
  rw [parseStmt, stmt, ensures_during, ensures_bind, ensures_get, ← hp₀, hnone]
  simp only [expressionStmt, ensures_bind, ensures_currentToken, ensures_ahead, ensures_ite,
    ensures_next, ensures_spanFrom, ensures_pure, decide_eq_true_eq]
  have hle : Rules.standard.power rest.head.kind ≤ .lowest := by
    rw [hrest]
    decide
  refine (expression_finds (p := p₀) hp.rules (by decide) hfits he hu hle).imp ?_ fun _ _ h => h
  rintro _ q ⟨rfl, hreads⟩
  have hlook : q.lookahead.kind = .eof := by rw [hreads.lookahead_eq hu, hrest]
  refine ⟨fun hsemicolon => ?_, fun _ => ⟨rfl, hreads.note⟩⟩
  rw [hlook] at hsemicolon
  cases hsemicolon

/-! ## The text of a statement -/

section Text

variable {source file : String} {p q : Parser} {s : Stmt} {ts : List Token}
  {ds : List Diagnostic}

/-- A statement ends on a token that is not the end. -/
theorem kind_ne_eof_of_spells {n : Nat} (h : s.Spells ts n) (hreads : Reads ts ds p q) :
    q.current.kind ≠ .eof := by
  have hcurrent := hreads.current_eq_getLast?
  rcases h.ends with ⟨t, ht, hk⟩ | ⟨-, token, value, -, -, hvalue, hfits⟩
  · obtain rfl : q.current = t := Option.some.inj (hcurrent.symm.trans ht)
    rcases hk with hk | hk <;> simp [hk]
  · have hmem := List.mem_of_getLast? hcurrent
    exact Kind.ne_eof_of_inExpression (hvalue.inExpression hfits.2 _ hmem)

/-- The tokens of a statement stand in the source, one behind the other, in front of the
lookahead. -/
theorem exists_sourceTokens_eq {n : Nat} {base : List Nat}
    (hp : Nested (.ofStream (.ofSource source file)) base p)
    (hspells : s.Spells ts n) (hreads : Reads ts ds p q) :
    ∃ pre vs, sourceTokens source file = pre ++ (ts ++ vs) ∧ ∀ t ∈ vs.head?, t = q.lookahead := by
  obtain ⟨pre, _, hpre, -⟩ := hp
  have htape := (hpre.trans hreads.advance).upcoming
  rw [upcoming_ofSource] at htape
  rcases prefix_or_replicate_of_append_eq htape with ⟨vs, hvs, hrest⟩ | ⟨n, hn⟩
  · refine ⟨pre, vs, by rw [hvs, List.append_assoc], fun t ht => ?_⟩
    obtain ⟨us, rfl⟩ := List.head?_eq_some_iff.mp ht
    exact (congrArg Stream'.head hrest).symm
  · cases n with
    | zero =>
        refine ⟨pre, [], ?_, fun t ht => by cases ht⟩
        rw [List.append_nil, hn, List.replicate_zero, List.append_nil]
    | succ n =>
        have hlast := congrArg List.getLast? hn
        rw [List.replicate_succ', ← List.append_assoc, List.getLast?_concat,
          List.getLast?_append, hreads.current_eq_getLast?] at hlast
        refine absurd ?_ (kind_ne_eof_of_spells hspells hreads)
        rw [show q.current = _ from Option.some.inj hlast]
        rfl

/-- The span of a statement cuts a text out of the source that has its tokens. -/
theorem exists_text (hsize : byteSize source.toList < Position.limit) {n : Nat}
    (hp : Nested (.ofStream (.ofSource source file)) [] p) (hspells : s.Spells ts n)
    (hreads : Reads ts ds p q) :
    ∃ left text right : List Char, source.toList = left ++ text ++ right ∧
      byteSize left = s.span.start.offset ∧ byteSize (left ++ text) = s.span.stop.offset ∧
      (sourceTokens (String.ofList text) file).map
        (Relabelling.moved (.shift (byteSize left))).token = ts := by
  obtain ⟨pre, vs, hvs, -⟩ := exists_sourceTokens_eq hp hspells hreads
  obtain ⟨first, last, hfirst, hlast, hspan⟩ := hspells.covers
  obtain ⟨left, text, right, hsource, hstart, hstop, hmap⟩ :=
    sourceTokens_slice hsize hvs hfirst hlast
  rw [hspan]
  exact ⟨left, text, right, hsource, hstart, hstop, hmap⟩

end Text

/-- What is read from a text that is a statement as a whole. -/
theorem parse_of_parseStmt {text file : String} {s : Stmt} {p : Parser}
    (hgoes : (ofStream (.ofSource text file)).current.kind ≠ .eof)
    (hrun : parseStmt (.ofStream (.ofSource text file)) = .ok s p)
    (hend : p.advance.current.kind = .eof) :
    (parse text file).1.statements = [s] ∧
      (parse text file).2.filter (!·.cause.isLexical) = p.faults := by
  obtain ⟨q, hq, -, -, hfaults⟩ := parseStream_reads _ (isLexical_ofSource text file)
  have hplain : (ofStream (.ofSource text file)).Plain := ⟨rfl, rfl⟩
  obtain ⟨ts, ds, -, hreads, -⟩ := (parseStmt_reads hplain).of_ok hrun
  obtain ⟨calls, hturns, hstatements⟩ := exists_turns hq
  cases hturns with
  | done heof => exact absurd heof hgoes
  | recover _ hrun' _ =>
      rw [hrun] at hrun'
      cases hrun'
  | read _ hrun' hrest =>
      rw [hrun] at hrun'
      cases hrun'
      rw [(hreads.plain hplain).advancePastStatement] at hrest
      cases hrest with
      | done _ =>
          rw [faults_advance] at hfaults
          exact ⟨hstatements, hfaults⟩
      | read hgoes' _ _ => exact absurd hend hgoes'
      | recover hgoes' _ _ => exact absurd hend hgoes'

end Parser

/-! ## The seam behind a statement -/

namespace Seam

/-- The end of a statement, as a seam for the parser of its text. In the source the
statement is `size` bytes further on, and is read from `p` to `q`. -/
def behindStmt {text : String} (htext : byteSize text.toList < Position.limit) (file : String)
    (size : Nat) (p q : Parser) : Seam where
  start := .shift size
  stop := .shift size
  shared := sourceTokens text file
  last := Token.atEnd (byteSize text.toList) file
  rest := q.advance.upcoming
  edge := q.advance.index
  surplus := p.faults
  quiet := False
  last_kind := kind_sourceEnd text file
  kind_ne_eof := kind_ne_eof_of_mem_sourceTokens
  start_injective := fun t ht u hu heq =>
    sourceTokens_start_injective htext file t ht u hu (Position.shift_injective _ heq)
  start_ne := False.elim
  quiet_cases := False.elim

section Behind

variable {text file : String} (htext : byteSize text.toList < Position.limit) {size : Nat}
  {p q : Parser} {s : Stmt} {ts : List Token} {ds : List Diagnostic}

/-- The parsers of the text and of the source start in lockstep. -/
theorem linked_behindStmt (hp : p.Plain) (hreads : Reads ts ds p q)
    (hmap : (sourceTokens text file).map (Relabelling.moved (.shift size)).token = ts)
    (hlast : Delimited ts) (hbraces : openBraces 0 ts = 0) :
    (behindStmt htext file size p q).Linked 0 (.ofStream (.ofSource text file)) p := by
  subst hmap
  refine ⟨sourceTokens text file, ?_, .inr ?_, .inr ?_⟩
  · refine ⟨⟨rfl, rfl⟩, hp, upcoming_ofSource text file, hreads.advance.upcoming,
      List.suffix_rfl, fun _ => ?_, [], (List.append_nil _).symm, ?_⟩
    · rw [← List.length_map]
      exact hreads.advance.index.symm
    · rw [Parser.faults_ofStream]
      exact .nil
  · obtain ⟨t, ht, hk⟩ := hlast
    rw [List.getLast?_map, Option.map_eq_some_iff] at ht
    obtain ⟨u, hu, rfl⟩ := ht
    exact ⟨u, hu, hk⟩
  · rwa [openBraces_map (f := (Relabelling.moved (.shift size)).token) fun _ => rfl] at hbraces

/-- The parser of the source has no reason to go on behind the statement. -/
theorem not_crosses_behindStmt (hrun : Parser.parseStmt p = .ok s q) :
    ¬ (behindStmt htext file size p q).Crosses Parser.parseStmt p := by
  intro hcross
  have hle : q.index + 1 ≤ q.index := hcross s q hrun
  omega

/-- Complaints of the text are those of the source. -/
theorem map_shift_of_forall₂ {es es' : List Diagnostic}
    (h : List.Forall₂ (behindStmt htext file size p q).Fault es es') :
    es' = es.map (Diagnostic.shift size) := by
  have hshift : List.Forall₂ (fun d d' => Diagnostic.shift size d = d') es es' :=
    h.imp fun _ _ hfault => (hfault False.elim).2.symm
  rwa [← List.forall₂_map_left_iff, List.forall₂_eq_eq_eq, eq_comm] at hshift

end Behind

end Seam

namespace Parser

section Alone

variable {text file : String} {size : Nat} {p q : Parser} {s : Stmt} {ts : List Token}
  {ds : List Diagnostic}

/-- From the start of the text the statement is read, but for its place, up to the end
of the text. -/
def ReadsAlone (text file : String) (size : Nat) (p : Parser) (s : Stmt) (q : Parser) : Prop :=
  ∃ s' p', parseStmt (.ofStream (.ofSource text file)) = .ok s' p' ∧
    p'.advance.current.kind = .eof ∧ s = s'.relabel (.moved (.shift size)) ∧
    q.faults = p.faults ++ p'.faults.map (Diagnostic.shift size)

theorem current_ofSource {t : Token} (h : (sourceTokens text file).head? = some t) :
    (ofStream (.ofSource text file)).current = t := by
  obtain ⟨us, hus⟩ := List.head?_eq_some_iff.mp h
  have hupcoming := upcoming_ofSource text file
  rw [hus] at hupcoming
  exact (of_upcoming_eq_cons hupcoming).1

/-- A text with tokens in it is not at its end. -/
theorem current_ne_eof_of_map {f : Token → Token} (hmap : (sourceTokens text file).map f = ts)
    (hts : ts ≠ []) : (ofStream (.ofSource text file)).current.kind ≠ .eof := by
  cases hsource : sourceTokens text file with
  | nil =>
      rw [hsource, List.map_nil] at hmap
      exact absurd hmap.symm hts
  | cons t us =>
      have hhead : (sourceTokens text file).head? = some t := by rw [hsource, List.head?_cons]
      rw [current_ofSource hhead]
      exact kind_ne_eof_of_mem_sourceTokens t (List.mem_of_head? hhead)

theorem readsAlone_of_seam (htext : byteSize text.toList < Position.limit) (hp : p.Plain)
    (hrun : parseStmt p = .ok s q) (hreads : Reads ts ds p q)
    (hmap : (sourceTokens text file).map (Relabelling.moved (.shift size)).token = ts)
    (hlast : Delimited ts) (hbraces : openBraces 0 ts = 0) : ReadsAlone text file size p s q := by
  have hlinked := Seam.linked_behindStmt htext hp hreads hmap hlast hbraces
  have hgoes : (ofStream (.ofSource text file)).current.kind ≠ .eof :=
    current_ne_eof_of_map hmap hreads.ne_nil
  have hrelated := (stmt_same parseBlock_same hlinked hgoes).resolve_right fun hcross =>
    Seam.not_crosses_behindStmt htext hrun hcross.2
  have hfuel : ∀ p', parseStmt (ofStream (.ofSource text file)) ≠ .error .outOfFuel p' := by
    intro p' hfuel
    have hreads := parseStmt_reads (p := ofStream (.ofSource text file)) ⟨rfl, rfl⟩
    rw [Ensures, hfuel] at hreads
    obtain ⟨d, hd⟩ := hreads
    cases hd
  obtain ⟨s', p', hrun', rfl, hended⟩ := hrelated.exists_ok hfuel hrun
  obtain ⟨us, hus, -⟩ := hended.advance
  obtain rfl : us = [] := by
    have hindex : q.advance.index + us.length = q.advance.index := hus.index id
    exact List.length_eq_zero_iff.mp (by omega)
  obtain ⟨es, hes, hfaults⟩ := hus.faults
  rw [faults_advance] at hes hfaults
  refine ⟨s', p', hrun', hus.eof, rfl, ?_⟩
  rw [hes, Seam.map_shift_of_forall₂ htext hfaults]
  rfl

/-- An expression without a semicolon is read up to where it ends. -/
theorem readsAlone_of_expression {token : Token} {value : Expr} {span : Span}
    (hreads : Reads ts [] p q)
    (hmap : (sourceTokens text file).map (Relabelling.moved (.shift size)).token = ts)
    (hhead : ts.head? = some token) (hvalue : value.Spells ts) (hfits : value.Fits .lowest)
    (hspan : span.Covers ts) : ReadsAlone text file size p (.expression token value span) q := by
  obtain ⟨e, rfl, he⟩ := hvalue.exists_of_map hmap
  obtain ⟨first, last, hfirst, hlast, rfl⟩ := hspan
  obtain rfl : first = token := Option.some.inj (hfirst.symm.trans hhead)
  rw [← hmap, List.head?_map, Option.map_eq_some_iff] at hhead
  rw [← hmap, List.getLast?_map, Option.map_eq_some_iff] at hlast
  obtain ⟨t, ht, rfl⟩ := hhead
  obtain ⟨u, hu, rfl⟩ := hlast
  set o : Parser := ofStream (.ofSource text file) with ho
  have hupcoming : o.upcoming = sourceTokens text file ++ₛ
    Stream'.const (Token.atEnd (byteSize text.toList) file) := upcoming_ofSource text file
  have hfits' : e.Fits .lowest := (Expr.fits_relabel (Relabelling.placed_faithful _ _) e).mp hfits
  have hstmt : Ensures parseStmt o
      (fun s p' => s = .expression t e ⟨t.span.start, p'.current.span.stop⟩ ∧
        Reads (sourceTokens text file) [] o p') fun _ _ => False := by
    have hfound := parseStmt_finds (p := o) ⟨rfl, rfl⟩ he hfits' hupcoming rfl
    rwa [current_ofSource ht] at hfound
  obtain ⟨s', p', hrun, rfl, hreads'⟩ := hstmt.exists_ok
  have hcurrent : p'.current = u := Option.some.inj (hreads'.current_eq_getLast?.symm.trans hu)
  refine ⟨_, p', hrun, ?_, ?_, ?_⟩
  · have := hreads'.lookahead_eq hupcoming
    rw [advance_current, this]
    rfl
  · rw [hcurrent]
    rfl
  · rw [← faults_advance, hreads.advance.faults, ← faults_advance p', hreads'.advance.faults,
      faults_ofStream]
    rfl

/-- A statement that has been read is read from its text alone. -/
theorem exists_readsAlone {source : String} (hsize : byteSize source.toList < Position.limit)
    (hp : Nested (.ofStream (.ofSource source file)) [] p) (hgoes : p.current.kind ≠ .eof)
    (hrun : parseStmt p = .ok s q) :
    ∃ left text right : List Char, source.toList = left ++ text ++ right ∧
      byteSize left = s.span.start.offset ∧ byteSize (left ++ text) = s.span.stop.offset ∧
      ReadsAlone (String.ofList text) file (byteSize left) p s q ∧
      (ofStream (.ofSource (String.ofList text) file)).current.kind ≠ .eof := by
  have ho := fresh_ofSource hsize file
  have hplain := hp.plain ho
  obtain ⟨ts, ds, hspells, hreads, -⟩ := (parseStmt_reads hplain).of_ok hrun
  obtain ⟨left, text, right, hsource, hstart, hstop, hmap⟩ := exists_text hsize hp hspells hreads
  refine ⟨left, text, right, hsource, hstart, hstop, ?_, current_ne_eof_of_map hmap hreads.ne_nil⟩
  have htext : byteSize (String.ofList text).toList < Position.limit := by
    rw [hsource, byteSize_append, byteSize_append] at hsize
    rw [String.toList_ofList]
    omega
  rcases hspells.ends with hlast | ⟨hnone, token, value, hs, hhead, hvalue, hfits⟩
  · exact readsAlone_of_seam htext hplain hrun hreads hmap hlast
      (openBraces_of_nested ho hp hgoes hrun hreads)
  · obtain rfl := List.length_eq_zero_iff.mp hnone
    rw [hs]
    exact readsAlone_of_expression hreads hmap hhead hvalue hfits hspells.covers

end Alone

end Parser

/-! ## Sources -/

/-- The text of the span of the statement, read by itself, gives the statement and
nothing else, with the positions reduced by where the span starts. The syntactic
diagnostics of the text are those recorded in the call, reduced likewise. -/
def Call.StandsAlone (source file : String) (call : Call) : Prop :=
  ∃ left text right : List Char, source.toList = left ++ text ++ right ∧
    byteSize left = call.statement.span.start.offset ∧
    byteSize (left ++ text) = call.statement.span.stop.offset ∧
    ∃ s, (parse (String.ofList text) file).1.statements = [s] ∧
      call.statement = s.relabel (.moved (.shift (byteSize left))) ∧
      call.stop.faults = call.start.faults ++
        ((parse (String.ofList text) file).2.filter (!·.cause.isLexical)).map
          (Diagnostic.shift (byteSize left))

/-- Spans cut out statements. Whatever else is wrong with a source, each of its
statements stands alone, with the diagnostics that were recorded while it was read. -/
theorem parse_slices {source : String} (hsize : byteSize source.toList < Position.limit)
    (file : String) :
    ∃ q calls, Parser.parseProgram (.ofStream (.ofSource source file)) =
        .ok (parse source file).1 q ∧
      Parser.Turns (.ofStream (.ofSource source file)) calls q ∧
      (parse source file).1.statements = calls.map (·.statement) ∧
      ∀ call ∈ calls, call.StandsAlone source file := by
  set o : Parser := .ofStream (.ofSource source file) with ho
  have hfresh : o.Fresh := Parser.fresh_ofSource hsize file
  obtain ⟨ss, q, hrun, hprogram, -, -⟩ := Parser.parseProgram_reads hfresh.plain
  have hparse : (parse source file).1 = ⟨ss⟩ := by rw [parse, parseStream, ← ho, hprogram]
  obtain ⟨calls, hturns, hss⟩ := Parser.exists_turns hrun
  refine ⟨q, calls, by rw [hparse, hprogram], hturns, by rw [hparse, hss], fun call hcall => ?_⟩
  obtain ⟨hnested, hgoes, hstmt⟩ := hturns.nested hfresh (.refl hfresh) call hcall
  obtain ⟨left, text, right, hsource, hstart, hstop, halone, htext⟩ :=
    Parser.exists_readsAlone hsize hnested hgoes hstmt
  obtain ⟨s, p, hrun', hend, hs, hfaults⟩ := halone
  obtain ⟨hstatements, hdiagnostics⟩ := Parser.parse_of_parseStmt htext hrun' hend
  refine ⟨left, text, right, hsource, hstart, hstop, s, hstatements, hs, ?_⟩
  rw [hdiagnostics, hfaults]

/-- A statement with an error in it between one that was given up and an expression
without a semicolon. -/
def slicedSample : String := "var x; é; while a { b + ; c } d e"

theorem parse_slices_sample :
    byteSize slicedSample.toList < Position.limit ∧
      ∃ q calls, Parser.parseProgram (.ofStream (.ofSource slicedSample "a.x")) =
          .ok (parse slicedSample "a.x").1 q ∧
        Parser.Turns (.ofStream (.ofSource slicedSample "a.x")) calls q ∧
        (parse slicedSample "a.x").1.statements = calls.map (·.statement) ∧
        ∀ call ∈ calls, call.StandsAlone slicedSample "a.x" :=
  ⟨by decide, parse_slices (by decide) "a.x"⟩

example : (parse slicedSample "a.x").1.statements.map
    (fun s => (s.span.start.offset, s.span.stop.offset)) = [(11, 30), (31, 32), (33, 34)] := by
  decide +kernel

end Frontend
