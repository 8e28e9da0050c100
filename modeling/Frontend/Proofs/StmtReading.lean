import Frontend.Proofs.ExprReading
import Frontend.Proofs.StmtSpelling

/-!
# What reading a statement gives

A production of statements either gives a tree over the tokens it has passed and
leaves the window on the last of them, or it is rejected somewhere behind the
token it started on. A statement that could have taken a semicolon has taken it if
there was one. Diagnostics are recorded only by the loops over the
statements of a block or a program, one for each statement that is given up.

The loops go on behind a statement that is given up, and each turn of a loop
passes at least the token that it starts on. This is what makes the fuel of the
loops suffice, and it is also why no statement can be given up for free: a token
that is not the end goes with it.
-/

namespace Frontend

/-- The parser reads the language and is not about to resume. -/
structure Parser.Plain (p : Parser) : Prop where
  rules : p.rules = .standard
  resume : p.resume = false

theorem Parser.Plain.advance {p : Parser} (h : p.Plain) : p.advance.Plain := ⟨h.rules, h.resume⟩

theorem Parser.Plain.note {p : Parser} (h : p.Plain) {production : Production} {stage : Stage}
    {entry : Mark} : (p.note production stage entry).Plain :=
  ⟨h.rules, h.resume⟩

theorem Parser.Plain.advancePastStatement {p : Parser} (h : p.Plain) :
    p.advancePastStatement = p.advance := by
  rw [Parser.advancePastStatement, h.resume]
  rfl

theorem Walk.plain {ts : List Token} {ds : List Diagnostic} {p q : Parser} (h : Walk ts ds p q)
    (hp : p.Plain) : q.Plain :=
  ⟨h.rules.trans hp.rules, h.resume.trans hp.resume⟩

theorem Reads.plain {ts : List Token} {ds : List Diagnostic} {p q : Parser} (h : Reads ts ds p q)
    (hp : p.Plain) : q.Plain := by
  obtain ⟨front, -, hfront⟩ := h
  exact hfront.plain hp

/-- The span between the ends of what was read. -/
theorem Reads.covers {ts : List Token} {ds : List Diagnostic} {p q : Parser}
    (h : Reads ts ds p q) : Span.Covers ⟨p.current.span.start, q.current.span.stop⟩ ts := by
  refine ⟨p.current, q.current, ?_, h.current_eq_getLast?, rfl⟩
  obtain ⟨t, us, rfl⟩ := List.exists_cons_of_ne_nil h.ne_nil
  rw [h.head]
  rfl

/-- The reading of a statement from `p` on has failed in `q`. -/
def StmtFailed (fuel : Nat) (p : Parser) : Failure → Parser → Prop
  | .rejected d, q => d.cause.isLexical = false ∧ ∃ ts ds, Walk ts ds p q
  | .outOfFuel, _ => Starved fuel p

namespace StmtFailed

theorem rejected {fuel : Nat} {p q : Parser} {d : Diagnostic} {ts : List Token}
    {ds : List Diagnostic} (hd : d.cause.isLexical = false) (h : Walk ts ds p q) :
    StmtFailed fuel p (.rejected d) q :=
  ⟨hd, ts, ds, h⟩

/-- A rejection on the last token of what was read. -/
theorem of_reads {fuel : Nat} {p q : Parser} {d : Diagnostic} {ts : List Token}
    {ds : List Diagnostic} (hd : d.cause.isLexical = false) (h : Reads ts ds p q) :
    StmtFailed fuel p (.rejected d) q := by
  obtain ⟨front, -, hfront⟩ := h
  exact rejected hd hfront

theorem walk {fuel : Nat} {p q r : Parser} {f : Failure} {ts : List Token}
    {ds : List Diagnostic} (h : StmtFailed fuel q f r) (hw : Walk ts ds p q) :
    StmtFailed fuel p f r := by
  cases f with
  | rejected d =>
      obtain ⟨hd, us, es, hus⟩ := h
      exact rejected hd (hw.trans hus)
  | outOfFuel => exact Starved.walk h hw

theorem mono {fuel fuel' : Nat} {p q : Parser} {f : Failure} (h : StmtFailed fuel p f q)
    (hle : fuel' ≤ fuel) : StmtFailed fuel' p f q := by
  cases f with
  | rejected d => exact h
  | outOfFuel => exact Starved.mono h hle

theorem of_min_budget {fuel : Nat} {p q : Parser} {f : Failure}
    (h : StmtFailed (min p.budget fuel) p f q) : StmtFailed fuel p f q := by
  cases f with
  | rejected d => exact h
  | outOfFuel => exact Starved.of_min_budget h

/-- A failure further on leaves one more unit of fuel. -/
theorem behind {fuel : Nat} {p q r : Parser} {f : Failure} {ts : List Token}
    {ds : List Diagnostic} (h : StmtFailed fuel q f r) (hw : Walk ts ds p q) (hts : ts ≠ [])
    (hp : p.current.kind ≠ .eof) : StmtFailed (fuel + 1) p f r := by
  cases f with
  | rejected d =>
      obtain ⟨hd, us, es, hus⟩ := h
      exact rejected hd (hw.trans hus)
  | outOfFuel => exact Starved.succ h hw hts (Parser.not_ends_zero_of_current hp)

theorem note {fuel : Nat} {p q : Parser} {f : Failure} {production : Production}
    {stage stage' : Stage} {entry entry' : Mark}
    (h : StmtFailed fuel (p.note production stage entry) f q) :
    StmtFailed fuel p f (q.note production stage' entry') := by
  cases f with
  | rejected d =>
      obtain ⟨hd, ts, ds, hts⟩ := h
      exact rejected hd hts.note
  | outOfFuel => exact h

end StmtFailed

/-- A statement has been read from `p` to `q`, to its end. -/
def StmtRead (p : Parser) (s : Stmt) (q : Parser) : Prop :=
  ∃ ts ds, s.Spells ts ds.length ∧ Reads ts ds p q ∧ Complete ts [q.lookahead]

/-- A statement that is no expression is delimited. -/
theorem StmtRead.of_spells {p q : Parser} {s : Stmt} {ts : List Token} {ds : List Diagnostic}
    (h : s.Spells ts ds.length) (hreads : Reads ts ds p q) (hs : s.isExpression = false) :
    StmtRead p s q := by
  rcases h.ends with hend | ⟨-, token, value, heq, -⟩
  · exact ⟨ts, ds, h, hreads, .inl hend⟩
  · rw [heq] at hs
    cases hs

theorem StmtRead.note {p q : Parser} {s : Stmt} {production : Production}
    {stage stage' : Stage} {entry entry' : Mark}
    (h : StmtRead (p.note production stage entry) s q) :
    StmtRead p s (q.note production stage' entry') := by
  obtain ⟨ts, ds, hspells, hreads, hend⟩ := h
  exact ⟨ts, ds, hspells, hreads.note, hend⟩

/-- A block has been read from `p` to `q`. -/
def BlockRead (p : Parser) (b : Block) (q : Parser) : Prop :=
  ∃ ts ds, b.Spells ts ds.length ∧ Reads ts ds p q

/-- A way to read blocks does what reading a block does. -/
def ReadsBlocks (fuel : Nat) (block : ParseM Block) : Prop :=
  ∀ p : Parser, p.Plain → p.current.kind = .symbol .openCurly →
    Ensures block p (BlockRead p) (StmtFailed fuel p)

namespace Parser

/-! ## Parts of statements -/

section Plain

variable {p : Parser} (hp : p.Plain) (fuel : Nat)

include hp

/-- Reading an expression as part of a statement. -/
theorem expression_part :
    Ensures (expression .lowest) p
      (fun e q => ∃ ts, e.Spells ts ∧ e.Fits .lowest ∧ Reads ts [] p q) (StmtFailed fuel p) := by
  refine (expression_reads hp.rules .lowest).imp ?_ ?_
  · intro e q hresult
    obtain ⟨ts, hfits, hspells, hreads, -⟩ := hresult
    exact ⟨ts, hspells, hfits, hreads⟩
  · intro f q hresult
    obtain ⟨d, rfl, hd, ts, hts, -⟩ := hresult
    exact .rejected hd hts

theorem condition_reads :
    Ensures condition p
      (fun e q => ∃ ts, e.Spells ts ∧ e.Fits .lowest ∧ Reads (p.current :: ts) [] p q)
      (StmtFailed fuel p) := by
  rw [condition, ensures_bind, ensures_next]
  refine (expression_part hp.advance fuel).imp ?_ ?_
  · intro e q hresult
    obtain ⟨ts, hspells, hfits, hreads⟩ := hresult
    exact ⟨ts, hspells, hfits, (Reads.refl p).trans hreads⟩
  · intro f q hf
    exact hf.walk (.advance p)

theorem declaration_reads (hk : p.current.kind.stmtRule? = some .declaration) :
    Ensures declaration p (StmtRead p) (StmtFailed fuel p) := by
  simp only [declaration, ensures_bind, ensures_currentToken, ensures_expect,
    ensures_primitiveType, ensures_next, ensures_spanFrom, ensures_pure]
  have hfirst := Reads.refl p
  refine ⟨fun hname => ?_, fun _ => .of_reads rfl hfirst⟩
  refine ⟨fun hcolon => ?_, fun _ => .of_reads rfl hfirst.step⟩
  refine ⟨fun type htype => ?_, fun _ => .of_reads rfl hfirst.step.step⟩
  refine ⟨fun hequals => ?_, fun _ => .of_reads rfl hfirst.step.step.step⟩
  have hbinding := hfirst.step.step.step.step
  refine (expression_part (p := p.advance.advance.advance.advance.advance)
    ⟨hp.rules, hp.resume⟩ fuel).imp ?_ ?_
  · intro value q hresult
    obtain ⟨ts, hspells, hfits, hreads⟩ := hresult
    have hreads := hbinding.trans hreads
    refine ⟨fun hclose => ?_, fun _ => .of_reads rfl hreads⟩
    have hreads := hreads.step
    have hcovers := hreads.covers
    rw [List.append_assoc] at hreads hcovers
    refine .of_spells (.declaration hk hname ?_ hspells hfits hclose hcovers) hreads rfl
    exact .cons rfl (.cons rfl (.cons hcolon (.cons htype (.cons hequals .nil))))
  · intro f q hf
    exact hf.walk hbinding.advance

theorem returnStmt_reads (hk : p.current.kind = .keyword .return_) :
    Ensures returnStmt p (StmtRead p) (StmtFailed fuel p) := by
  simp only [returnStmt, ensures_bind, ensures_currentToken, ensures_ahead, ensures_ite,
    ensures_expect, ensures_next, ensures_spanFrom, ensures_pure, decide_eq_true_eq]
  have hfirst := Reads.refl p
  refine ⟨fun hahead => ⟨fun hclose => ?_, fun hne => absurd hahead hne⟩, fun _ => ?_⟩
  · exact .of_spells (.returnNone hk hclose hfirst.step.covers) hfirst.step rfl
  · refine (expression_part hp.advance fuel).imp ?_ ?_
    · intro value q hresult
      obtain ⟨ts, hspells, hfits, hreads⟩ := hresult
      have hreads := hfirst.trans hreads
      refine ⟨fun hclose => ?_, fun _ => .of_reads rfl hreads⟩
      exact .of_spells (.returnSome hk hspells hfits hclose hreads.step.covers) hreads.step rfl
    · intro f q hf
      exact hf.walk (.advance p)

theorem expressionStmt_reads : Ensures expressionStmt p (StmtRead p) (StmtFailed fuel p) := by
  simp only [expressionStmt, ensures_bind, ensures_currentToken, ensures_ahead, ensures_ite,
    ensures_next, ensures_spanFrom, ensures_pure, decide_eq_true_eq]
  refine (expression_part hp fuel).imp ?_ fun f q hf => hf
  intro value q hresult
  obtain ⟨ts, hspells, hfits, hreads⟩ := hresult
  obtain ⟨t, us, rfl⟩ := List.exists_cons_of_ne_nil hreads.ne_nil
  obtain rfl := hreads.head
  refine ⟨fun hclose => ?_, fun hopen => ?_⟩
  · exact ⟨_, [], .terminated hspells hfits hclose hreads.step.covers, hreads.step,
      .inl (delimited_concat (_ :: _) hclose)⟩
  · exact ⟨_, [], .expression hspells hfits hreads.covers, hreads, .inr (by simpa using hopen)⟩

end Plain

/-- Parameters have been read behind `p`, up to the closing parenthesis. -/
def ParametersRead (p : Parser) (parameters : List Parameter) (q : Parser) : Prop :=
  ∃ ts, (∀ parameter ∈ parameters, parameter.name.kind = .identifier) ∧
    List.Forall₂ Slot.Matches
      (Parameter.flattenAll parameters ++ [.fixed (.symbol .closeParen)]) ts ∧
    Reads (p.current :: ts) [] p q

theorem parameters_reads : ∀ (n : Nat) (p : Parser), p.current.kind ≠ .eof →
    Ensures (parameters n) p (fun ps q => ps ≠ [] ∧ ParametersRead p ps q) (StmtFailed n p) := by
  intro n
  induction n with
  | zero =>
      intro p _ k _
      exact Nat.zero_le k
  | succ n ih =>
      intro p hne
      simp only [parameters, ensures_bind, ensures_expect, ensures_primitiveType, ensures_ahead,
        ensures_ite, ensures_next, ensures_pure, decide_eq_true_eq]
      have hfirst := Reads.refl p
      refine ⟨fun hname => ?_, fun _ => .of_reads rfl hfirst⟩
      refine ⟨fun hcolon => ?_, fun _ => .of_reads rfl hfirst.step⟩
      refine ⟨fun type htype => ?_, fun _ => .of_reads rfl hfirst.step.step⟩
      have hthird := hfirst.step.step.step
      refine ⟨fun hcomma => ?_, fun _ => ⟨fun hclose => ?_, fun _ => .of_reads rfl hthird⟩⟩
      · refine (ih _ (show Token.kind _ ≠ _ by rw [advance_current, hcomma]; simp)).imp ?_ ?_
        · intro ps q hresult
          obtain ⟨hps, us, hnames, hmatches, hreads⟩ := hresult
          obtain ⟨next, rest, rfl⟩ := List.exists_cons_of_ne_nil hps
          refine ⟨List.cons_ne_nil _ _, _, List.forall_mem_cons.mpr ⟨hname, hnames⟩, ?_,
            hthird.trans hreads⟩
          exact .cons rfl (.cons hcolon (.cons htype (.cons hcomma hmatches)))
        · intro f q hf
          exact hf.behind hthird.advance (by simp) hne
      · refine ⟨List.cons_ne_nil _ _, _, List.forall_mem_singleton.mpr hname, ?_, hthird.step⟩
        exact .cons rfl (.cons hcolon (.cons htype (.cons hclose .nil)))

theorem parameterList_reads {p : Parser} (hne : p.current.kind ≠ .eof) (fuel : Nat) :
    Ensures parameterList p (ParametersRead p) (StmtFailed fuel p) := by
  simp only [parameterList, ensures_bind, ensures_ahead, ensures_ite, ensures_next, ensures_pure,
    ensures_withBudget, decide_eq_true_eq]
  refine ⟨fun hclose => ?_, fun _ => ?_⟩
  · exact ⟨[p.lookahead], List.forall_mem_nil _, .cons hclose .nil, (Reads.refl p).step⟩
  · refine (parameters_reads p.budget p hne).imp (fun _ _ h => h.2) ?_
    intro f q hf
    refine StmtFailed.of_min_budget (hf.mono (Nat.min_le_left _ _))

theorem resultType?_reads {p : Parser} (fuel : Nat) :
    Ensures resultType? p
      (fun result? q => ∃ ts, List.Forall₂ Slot.Matches
          (result?.map fun type => Slot.fixed (.type type)).toList ts ∧
        Reads (p.current :: ts) [] p q) (StmtFailed fuel p) := by
  rw [resultType?, ensures_bind, ensures_get]
  split
  · next type htype =>
      rw [Kind.primitiveType?_eq_some_iff] at htype
      rw [ensures_bind, ensures_next, ensures_pure]
      exact ⟨[p.lookahead], .cons htype .nil, (Reads.refl p).step⟩
  · rw [ensures_pure]
    exact ⟨[], .nil, .refl p⟩

/-! ## Statements with blocks -/

section Blocks

variable {block : ParseM Block} {fuel : Nat} (hb : ReadsBlocks fuel block) {p : Parser}
  (hp : p.Plain)

include hb hp

theorem body_reads :
    Ensures (body block) p
      (fun b q => ∃ ts ds, b.Spells ts ds.length ∧ Reads (p.current :: ts) ds p q)
      (StmtFailed fuel p) := by
  simp only [body, ensures_bind, ensures_expect]
  refine ⟨fun hopen => ?_, fun _ => .rejected rfl (.refl p)⟩
  refine (hb p.advance hp.advance hopen).imp ?_ ?_
  · intro b q hresult
    obtain ⟨ts, ds, hspells, hreads⟩ := hresult
    exact ⟨ts, ds, hspells, (Reads.refl p).trans hreads⟩
  · intro f q hf
    exact hf.walk (.advance p)

theorem function_reads (hk : p.current.kind = .keyword .fn) :
    Ensures (function block) p (StmtRead p) (StmtFailed fuel p) := by
  simp only [function, ensures_bind, ensures_currentToken, ensures_expect, ensures_spanFrom,
    ensures_pure]
  have hfirst := Reads.refl p
  refine ⟨fun hname => ?_, fun _ => .of_reads rfl hfirst⟩
  refine ⟨fun hopen => ?_, fun _ => .of_reads rfl hfirst.step⟩
  have hthird := hfirst.step.step
  have hne : p.advance.advance.current.kind ≠ .eof := by
    rw [advance_current, hopen]
    simp
  refine (parameterList_reads hne fuel).imp ?_ fun f q hf => hf.walk (hfirst.step.advance)
  intro ps q hresult
  obtain ⟨ts, hnames, hparameters, hreads⟩ := hresult
  have hlist := hthird.extend hreads
  refine (resultType?_reads fuel).imp ?_ ?_
  · intro result? r hresult
    obtain ⟨us, hresult, hreads'⟩ := hresult
    have hsignature := hlist.extend hreads'
    have hr := hsignature.plain hp
    refine (body_reads hb hr).imp ?_ ?_
    · intro b s hresult
      obtain ⟨vs, ds, hspells, hreads''⟩ := hresult
      have hall := hsignature.extend hreads''
      refine .of_spells (.function hk hname hnames ?_ hspells hall.covers) hall rfl
      refine .cons rfl (.cons rfl (.cons hopen ?_))
      rw [List.append_cons]
      exact List.rel_append hparameters hresult
    · intro f s hf
      obtain ⟨front, -, hfront⟩ := hsignature
      exact hf.walk hfront
  · intro f r hf
    obtain ⟨front, -, hfront⟩ := hlist
    exact hf.walk hfront

theorem whileStmt_reads (hk : p.current.kind = .keyword .while_) :
    Ensures (whileStmt block) p (StmtRead p) (StmtFailed fuel p) := by
  simp only [whileStmt, ensures_bind, ensures_currentToken, ensures_spanFrom, ensures_pure]
  refine (condition_reads hp fuel).imp ?_ fun f q hf => hf
  intro e q hresult
  obtain ⟨ts, hspells, hfits, hreads⟩ := hresult
  refine (body_reads hb (hreads.plain hp)).imp ?_ ?_
  · intro b r hresult
    obtain ⟨us, ds, hblock, hreads'⟩ := hresult
    have hall := hreads.extend hreads'
    exact .of_spells (.while_ hk hspells hfits hblock hall.covers) hall rfl
  · intro f r hf
    obtain ⟨front, -, hfront⟩ := hreads
    exact hf.walk hfront

theorem loopStmt_reads (hk : p.current.kind = .keyword .loop) :
    Ensures (loopStmt block) p (StmtRead p) (StmtFailed fuel p) := by
  simp only [loopStmt, ensures_bind, ensures_currentToken, ensures_spanFrom, ensures_pure]
  refine (body_reads hb hp).imp ?_ fun f q hf => hf
  intro b q hresult
  obtain ⟨ts, ds, hblock, hreads⟩ := hresult
  exact .of_spells (.loop hk hblock hreads.covers) hreads rfl

end Blocks

/-- A conditional has been read from `p` to `q`. -/
def ConditionalRead (p : Parser) (branch : Conditional) (q : Parser) : Prop :=
  ∃ ts ds, branch.token = p.current ∧ branch.Spells ts ds.length ∧ Reads ts ds p q

theorem conditional_reads {block : ParseM Block} {fuel : Nat} (hb : ReadsBlocks fuel block) :
    ∀ (n : Nat) (p : Parser), p.Plain → p.current.kind ≠ .eof →
      Ensures (conditional block n) p (ConditionalRead p) (StmtFailed (min n fuel) p) := by
  intro n
  induction n with
  | zero =>
      intro p _ _ k _
      rw [Nat.zero_min]
      exact Nat.zero_le k
  | succ n ih =>
      intro p hp hne
      rw [conditional]
      refine ensures_of_during ?_ (fun h => h.note) fun p' hp' => ?_
      · intro p branch q _ _ _ _ hread
        obtain ⟨ts, ds, htoken, hspells, hreads⟩ := hread
        exact ⟨ts, ds, htoken, hspells, hreads.note⟩
      have hplain : p'.Plain := by rw [hp']; exact hp.note
      have hne' : p'.current.kind ≠ .eof := by rw [hp']; exact hne
      simp only [ensures_bind, ensures_currentToken, ensures_ahead, ensures_ite, ensures_next,
        ensures_spanFrom, ensures_pure, decide_eq_true_eq]
      refine (condition_reads hplain _).imp ?_ fun f q hf => hf
      intro e q hresult
      obtain ⟨ts, hspells, hfits, hreads⟩ := hresult
      refine (body_reads hb (hreads.plain hplain)).imp ?_ ?_
      · intro b r hresult
        obtain ⟨us, ds, hblock, hreads'⟩ := hresult
        have hhead := hreads.extend hreads'
        have hr := hhead.plain hplain
        refine ⟨fun helif => ?_, fun _ => ⟨fun helse => ?_, fun _ => ?_⟩⟩
        · refine (ih r.advance hr.advance ?_).imp ?_ ?_
          · rw [advance_current, helif]
            simp
          · intro branch s hresult
            obtain ⟨vs, es, htoken, hbranch, hreads''⟩ := hresult
            have hall := hhead.trans hreads''
            have hcovers := hall.covers
            rw [List.append_assoc] at hall hcovers
            refine ⟨_, _, rfl, ?_, hall⟩
            rw [List.nil_append, List.length_append]
            refine .mk hspells hfits hblock (.elif ?_ hbranch) hcovers
            rw [htoken]
            exact helif
          · intro f s hf
            exact (hf.behind hhead.advance (by simp) hne').mono (by omega)
        · refine (body_reads hb hr.advance).imp ?_ ?_
          · intro b' s hresult
            obtain ⟨vs, es, hother, hreads''⟩ := hresult
            have hall := hhead.trans hreads''
            have hcovers := hall.covers
            rw [List.append_assoc] at hall hcovers
            refine ⟨_, _, rfl, ?_, hall⟩
            rw [List.nil_append, List.length_append]
            exact .mk hspells hfits hblock (.block helse hother) hcovers
          · intro f s hf
            exact (hf.walk hhead.advance).mono (Nat.min_le_right _ _)
        · refine ⟨_, ds, rfl, .mk hspells hfits hblock .nothing ?_, ?_⟩
          · rw [List.append_nil]
            exact hhead.covers
          · rw [List.append_nil]
            exact hhead
      · intro f r hf
        obtain ⟨front, -, hfront⟩ := hreads
        exact (hf.walk hfront).mono (Nat.min_le_right _ _)

end Parser

/-- The kinds of the tokens that a statement rule is for. -/
def StmtRule.heads : StmtRule → List Kind
  | .declaration => [.keyword .var, .keyword .const]
  | .return_ => [.keyword .return_]
  | .block => [.symbol .openCurly]
  | .function => [.keyword .fn]
  | .conditional => [.keyword .if_]
  | .while_ => [.keyword .while_]
  | .loop => [.keyword .loop]

theorem Kind.mem_heads_of_stmtRule? {kind : Kind} {rule : StmtRule}
    (h : kind.stmtRule? = some rule) : kind ∈ rule.heads := by
  unfold Kind.stmtRule? at h
  split at h <;> cases h <;> decide

theorem Kind.eq_of_stmtRule? {kind kind' : Kind} {rule : StmtRule}
    (h : kind.stmtRule? = some rule) (hrule : rule.heads = [kind']) : kind = kind' := by
  have h := Kind.mem_heads_of_stmtRule? h
  rwa [hrule, List.mem_singleton] at h

namespace Parser

section Blocks

variable {block : ParseM Block} {fuel : Nat} (hb : ReadsBlocks fuel block) {p : Parser}
  (hp : p.Plain)

include hb hp

theorem applyStmt_reads {rule : StmtRule} (hk : p.current.kind.stmtRule? = some rule) :
    Ensures (applyStmt block rule) p (StmtRead p) (StmtFailed fuel p) := by
  cases rule with
  | declaration => exact declaration_reads hp fuel hk
  | return_ => exact returnStmt_reads hp fuel (Kind.eq_of_stmtRule? hk rfl)
  | block =>
      rw [applyStmt, ensures_bind]
      refine (hb p hp (Kind.eq_of_stmtRule? hk rfl)).imp ?_ fun f q hf => hf
      intro b q hresult
      obtain ⟨ts, ds, hspells, hreads⟩ := hresult
      exact .of_spells (.block hspells) hreads rfl
  | function => exact function_reads hb hp (Kind.eq_of_stmtRule? hk rfl)
  | conditional =>
      have hif := Kind.eq_of_stmtRule? hk rfl
      rw [applyStmt, ensures_bind, ensures_withBudget]
      refine (conditional_reads hb p.budget p hp (by rw [hif]; simp)).imp ?_
        fun f q hf => hf.of_min_budget
      intro branch q hresult
      obtain ⟨ts, ds, htoken, hspells, hreads⟩ := hresult
      exact .of_spells (.conditional (by rw [htoken, hif]) hspells) hreads rfl
  | while_ => exact whileStmt_reads hb hp (Kind.eq_of_stmtRule? hk rfl)
  | loop => exact loopStmt_reads hb hp (Kind.eq_of_stmtRule? hk rfl)

theorem stmt_reads : Ensures (stmt block) p (StmtRead p) (StmtFailed fuel p) := by
  rw [stmt]
  refine ensures_of_during (fun h => h.note) (fun h => h.note) fun p' hp' => ?_
  have hplain : p'.Plain := by rw [hp']; exact hp.note
  rw [ensures_bind, ensures_get]
  split
  · next rule hrule =>
      rw [hplain.rules] at hrule
      exact applyStmt_reads hb hplain hrule
  · exact expressionStmt_reads hplain fuel

end Blocks

/-! ## Recovery -/

theorem skip_walk (n : Nat) (p : Parser) : ∃ ts, Walk ts [] p (p.skip n) := by
  induction n generalizing p with
  | zero => exact ⟨[], .refl p⟩
  | succ n ih =>
      rw [skip]
      split
      · exact ⟨[], .refl p⟩
      · obtain ⟨ts, hts⟩ := ih p.advance
        exact ⟨p.current :: ts, (Walk.advance p).trans hts⟩

/-- A statement that could not be read has been passed between `p` and `q`. -/
def Dropped (p q : Parser) : Prop :=
  ∃ ts ds, ds ≠ [] ∧ Walk (p.current :: ts) ds p q

/-- The parser when it is not about to resume. -/
def settled (q : Parser) : Parser := { q with resume := false }

theorem settled_eq_self {q : Parser} (h : q.resume = false) : q.settled = q := by
  rw [settled, ← h]

/-- Recovery from a statement that started at `p` has stopped in `q`. It may not
have moved yet, unless it is about to resume. -/
structure GivenUp (p q : Parser) : Prop where
  walk : ∃ ts ds, ds ≠ [] ∧ Walk ts ds p q.settled
  resume : q.resume → q.current ≠ p.current ∧ q.current.kind.stmtRule?.isSome

theorem Dropped.of_current_ne {p q : Parser} (h : ∃ ts ds, ds ≠ [] ∧ Walk ts ds p q)
    (hne : q.current ≠ p.current) : Dropped p q := by
  obtain ⟨ts, ds, hds, hw⟩ := h
  cases ts with
  | nil => exact absurd (congrArg Stream'.head hw.upcoming).symm hne
  | cons t ts =>
      have ht : p.current = t := congrArg Stream'.head hw.upcoming
      rw [← ht] at hw
      exact ⟨ts, ds, hds, hw⟩

theorem Dropped.advance {p q : Parser} (h : ∃ ts ds, ds ≠ [] ∧ Walk ts ds p q) :
    Dropped p q.advance := by
  obtain ⟨ts, ds, hds, hw⟩ := h
  have hw' := hw.trans (.advance q)
  rw [List.append_nil] at hw'
  cases ts with
  | nil =>
      have hq : p.current = q.current := congrArg Stream'.head hw.upcoming
      rw [List.nil_append, ← hq] at hw'
      exact ⟨[], ds, hds, hw'⟩
  | cons t ts =>
      have ht : p.current = t := congrArg Stream'.head hw.upcoming
      rw [← ht] at hw'
      exact ⟨_, ds, hds, hw'⟩

/-- The step behind a statement that was given up. -/
theorem GivenUp.dropped {p q : Parser} (h : GivenUp p q) : Dropped p q.advancePastStatement := by
  rw [advancePastStatement]
  split
  · next hresume => exact .of_current_ne h.walk (h.resume hresume).1
  · next hresume =>
      have hwalk := h.walk
      rw [settled_eq_self (Bool.eq_false_iff.mpr hresume)] at hwalk
      exact .advance hwalk

/-- The same in a block, where recovery may have stopped on the closing brace. -/
theorem GivenUp.dropped_of_closeCurly {p q : Parser} (h : GivenUp p q)
    (hq : q.current.kind = .symbol .closeCurly) (hp : p.current.kind ≠ .symbol .closeCurly) :
    Dropped p q := by
  have hresume : q.resume = false := by
    refine Bool.eq_false_iff.mpr fun hresume => ?_
    have hhead := (h.resume hresume).2
    rw [hq] at hhead
    cases hhead
  have hwalk := h.walk
  rw [settled_eq_self hresume] at hwalk
  refine .of_current_ne hwalk fun heq => hp ?_
  rw [← heq, hq]

theorem recover_givenUp {p q : Parser} (hp : p.Plain) {d : Diagnostic}
    (hd : d.cause.isLexical = false) {ts : List Token} {ds : List Diagnostic}
    (hw : Walk ts ds p q) : GivenUp p ((q.record d).recover p.current.span.start) := by
  have hw := hw.trans (.record q hd)
  have hplain := hw.plain hp
  have hds : ds ++ [d] ≠ [] := by simp
  rw [recover]
  split
  · next h =>
      refine ⟨⟨ts ++ [], _, hds, ?_⟩, fun _ => ⟨?_, ?_⟩⟩
      · exact ⟨hw.upcoming, hw.faults, hw.syntactic, hw.delivered, hw.rules, hp.resume.symm,
          hw.index⟩
      · intro heq
        exact h.1 (congrArg (·.span.start) heq)
      · have hhead := h.2
        rwa [hplain.rules] at hhead
  · obtain ⟨us, hus⟩ := skip_walk (q.stream.pending.length + 2) (q.record d)
    have hw := hw.trans hus
    simp only [List.append_nil] at hw
    have hresume := (hw.plain hp).resume
    refine ⟨⟨ts ++ us, _, hds, ?_⟩, fun hr => ?_⟩
    · exact (settled_eq_self hresume).symm ▸ hw
    · exact absurd (hresume.symm.trans hr) (by simp)

theorem ensures_stmtOrRecover {block : ParseM Block} {p : Parser}
    {ok : Option Stmt → Parser → Prop} {err : Failure → Parser → Prop} :
    Ensures (stmtOrRecover block) p ok err ↔
      Ensures (stmt block) p (fun s q => ok (some s) q) fun f q =>
        match f with
        | .rejected d => ok none ((q.record d).recover p.current.span.start)
        | .outOfFuel => err .outOfFuel q := by
  unfold Ensures stmtOrRecover
  cases stmt block p with
  | ok s q => rfl
  | error f q => cases f <;> rfl

/-- A statement has been read from `p` to `q`, or it was given up there. -/
def ItemRead (p : Parser) : Option Stmt → Parser → Prop
  | some s, q => StmtRead p s q
  | none, q => GivenUp p q

/-- What ends a loop over statements before its time. -/
def LoopFailed (fuel : Nat) (p : Parser) (f : Failure) (_ : Parser) : Prop :=
  f = .outOfFuel ∧ Starved fuel p

/-- Statements have been read from `p` to `q`, which is the token behind them. -/
def StmtsRead (p : Parser) (ss : List Stmt) (q : Parser) : Prop :=
  ∃ ts ds, Stmt.SpellsAll ss ts ds.length ∧ Walk ts ds p q

/-- One turn of a loop over statements has come from `p` to `q`: a statement was
read, or tokens were passed without one. -/
def Turned (p : Parser) : Option Stmt → Parser → Prop
  | some s, q => ∃ r, StmtRead p s r ∧ q = r.advance
  | none, q => Dropped p q

namespace Turned

variable {fuel : Nat} {p q r : Parser} {s? : Option Stmt}

theorem of_item (hp : p.Plain) (h : ItemRead p s? q) : Turned p s? q.advancePastStatement := by
  cases s? with
  | some s =>
      have ⟨ts, ds, _, hreads, _⟩ := h
      exact ⟨q, h, (hreads.plain hp).advancePastStatement⟩
  | none => exact GivenUp.dropped h

theorem of_round (hp : p.Plain) (h : ItemRead p s? q)
    (hclose : p.current.kind ≠ .symbol .closeCurly) : Turned p s? (afterRound s? q) := by
  cases s? with
  | some s => exact of_item hp h
  | none =>
      rw [afterRound]
      split
      · next hq => exact GivenUp.dropped_of_closeCurly h hq hclose
      · exact of_item hp h

theorem exists_walk (h : Turned p s? q) : ∃ ts ds, ts ≠ [] ∧ Walk ts ds p q := by
  cases s? with
  | some s =>
      obtain ⟨r, ⟨ts, ds, -, hreads, -⟩, rfl⟩ := h
      exact ⟨ts, ds, hreads.ne_nil, hreads.advance⟩
  | none =>
      obtain ⟨ts, ds, -, hw⟩ := h
      exact ⟨_, ds, by simp, hw⟩

theorem plain (h : Turned p s? q) (hp : p.Plain) : q.Plain := by
  obtain ⟨ts, ds, -, hw⟩ := h.exists_walk
  exact hw.plain hp

theorem append (h : Turned p s? q) (hp : p.current.kind ≠ .eof) {ss : List Stmt}
    (hs : StmtsRead q ss r) : StmtsRead p (s?.toList ++ ss) r := by
  obtain ⟨us, es, hrest, hwalk⟩ := hs
  cases s? with
  | some s =>
      obtain ⟨r', ⟨ts, ds, hspells, hreads, hend⟩, rfl⟩ := h
      refine ⟨ts ++ us, ds ++ es, ?_, hreads.walk hwalk⟩
      rw [List.length_append]
      refine .keep hspells (hend.imp id fun hopen t ht => ?_) hrest
      rw [hwalk.mem_head? t ht]
      exact hopen r'.lookahead rfl
  | none =>
      obtain ⟨ts, ds, hds, hw⟩ := h
      refine ⟨_, ds ++ es, ?_, hw.trans hwalk⟩
      rw [List.length_append]
      exact .drop hp (mt List.length_eq_zero_iff.mp hds) hrest

/-- The turns that come behind one, seen from in front of it. -/
theorem rest (h : Turned p s? q) (hp : p.current.kind ≠ .eof) {x : ParseM (List Stmt)}
    {n : Nat} {last : Parser → Prop}
    (hx : Ensures x q (fun ss r => StmtsRead q ss r ∧ last r) (LoopFailed (min n fuel) q)) :
    Ensures x q (fun ss r => StmtsRead p (s?.toList ++ ss) r ∧ last r)
      (LoopFailed (min (n + 1) fuel) p) := by
  refine hx.imp (fun ss r hss => ⟨h.append hp hss.1, hss.2⟩) ?_
  intro f r hf
  obtain ⟨rfl, hstarved⟩ := hf
  obtain ⟨ts, ds, hts, hw⟩ := h.exists_walk
  refine ⟨rfl, (hstarved.succ hw hts (not_ends_zero_of_current hp)).mono ?_⟩
  omega

end Turned

section Blocks

variable {block : ParseM Block} {fuel : Nat} (hb : ReadsBlocks fuel block)

include hb

theorem stmtOrRecover_reads {p : Parser} (hp : p.Plain) :
    Ensures (stmtOrRecover block) p (ItemRead p) (LoopFailed fuel p) := by
  rw [ensures_stmtOrRecover]
  refine (stmt_reads hb hp).imp (fun _ _ h => h) ?_
  intro f q hf
  cases f with
  | rejected d =>
      obtain ⟨hd, ts, ds, hw⟩ := hf
      exact recover_givenUp hp hd hw
  | outOfFuel => exact ⟨rfl, hf⟩

theorem blockBody_reads : ∀ (n : Nat) (p : Parser), p.Plain →
    Ensures (blockBody block n) p
      (fun ss q => StmtsRead p ss q ∧
        (q.current.kind = .symbol .closeCurly ∨ q.current.kind = .eof))
      (LoopFailed (min n fuel) p) := by
  intro n
  induction n with
  | zero =>
      intro p _
      refine ⟨rfl, fun k _ => ?_⟩
      rw [Nat.zero_min]
      exact Nat.zero_le k
  | succ n ih =>
      intro p hp
      rw [blockBody, ensures_bind, ensures_get, ensures_ite]
      refine ⟨fun hend => ⟨⟨[], [], .nil, .refl p⟩, hend⟩, fun hgoes => ?_⟩
      rw [not_or] at hgoes
      rw [ensures_bind]
      refine (stmtOrRecover_reads hb hp).imp ?_ ?_
      · intro s? q hitem
        have hturned := Turned.of_round hp hitem hgoes.1
        cases s? with
        | some s =>
            simp only [ensures_bind, ensures_modify, ensures_pure]
            exact hturned.rest hgoes.2 (ih _ (hturned.plain hp))
        | none =>
            simp only [ensures_bind, ensures_modify]
            exact hturned.rest hgoes.2 (ih _ (hturned.plain hp))
      · intro f q hresult
        obtain ⟨rfl, hf⟩ := hresult
        exact ⟨rfl, hf.mono (Nat.min_le_right _ _)⟩

theorem statements_reads : ∀ (n : Nat) (p : Parser), p.Plain →
    Ensures (statements (stmtOrRecover block) n) p
      (fun ss q => StmtsRead p ss q ∧ q.current.kind = .eof) (LoopFailed (min n fuel) p) := by
  intro n
  induction n with
  | zero =>
      intro p _
      refine ⟨rfl, fun k _ => ?_⟩
      rw [Nat.zero_min]
      exact Nat.zero_le k
  | succ n ih =>
      intro p hp
      rw [statements, ensures_bind, ensures_get, ensures_ite]
      refine ⟨fun hend => ⟨⟨[], [], .nil, .refl p⟩, hend⟩, fun hgoes => ?_⟩
      simp only [ensures_bind, ensures_modify, ensures_pure]
      refine (stmtOrRecover_reads hb hp).imp ?_ ?_
      · intro s? q hitem
        have hturned := Turned.of_item hp hitem
        exact hturned.rest hgoes (ih _ (hturned.plain hp))
      · intro f q hresult
        obtain ⟨rfl, hf⟩ := hresult
        exact ⟨rfl, hf.mono (Nat.min_le_right _ _)⟩

end Blocks

/-! ## Blocks and programs -/

theorem block_reads (fuel : Nat) : ReadsBlocks fuel (block fuel) := by
  induction fuel with
  | zero =>
      intro p _ _ k _
      exact Nat.zero_le k
  | succ fuel ih =>
      intro p hp hopen
      rw [block]
      refine ensures_of_during ?_ (fun h => h.note) fun p' hp' => ?_
      · intro p b q _ _ _ _ hread
        obtain ⟨ts, ds, hspells, hreads⟩ := hread
        exact ⟨ts, ds, hspells, hreads.note⟩
      have hplain : p'.Plain := by rw [hp']; exact hp.note
      have hopen' : p'.current.kind = .symbol .openCurly := by rw [hp']; exact hopen
      simp only [ensures_bind, ensures_currentToken, ensures_next, ensures_withBudget,
        ensures_get, ensures_ite, ensures_pure, ensures_reject]
      refine (blockBody_reads ih _ p'.advance hplain.advance).imp ?_ ?_
      · intro ss q hresult
        obtain ⟨⟨ts, ds, hspells, hwalk⟩, -⟩ := hresult
        have hwalk' := (Walk.advance p').trans hwalk
        refine ⟨fun hclose => ?_, fun _ => .rejected rfl hwalk'⟩
        have hreads : Reads (p'.current :: (ts ++ [q.current])) ds p' q := ⟨_, rfl, hwalk'⟩
        exact ⟨_, ds, .mk hopen' hspells hclose hreads.covers, hreads⟩
      · intro f q hresult
        obtain ⟨rfl, hstarved⟩ := hresult
        exact hstarved.of_min_budget.succ (.advance p') (by simp)
          (not_ends_zero_of_current (by rw [hopen']; simp))

theorem parseBlock_reads (fuel : Nat) : ReadsBlocks fuel parseBlock := by
  intro p hp hopen
  rw [parseBlock, ensures_withBudget]
  refine (block_reads p.budget p hp hopen).imp (fun _ _ h => h) ?_
  intro f q hf
  cases f with
  | rejected d => exact hf
  | outOfFuel => exact absurd hf (not_starved_budget p)

/-- Reading a program always gives one. It is made of the statements that could
be read from the tokens up to the end of the input. -/
theorem parseProgram_reads {p : Parser} (hp : p.Plain) :
    ∃ ss q, statements parseStmtOrRecover p.budget p = .ok ss q ∧
      parseProgram p = .ok ⟨ss⟩ q ∧ StmtsRead p ss q ∧ q.current.kind = .eof := by
  have hreads : Ensures (statements parseStmtOrRecover p.budget) p
      (fun ss q => StmtsRead p ss q ∧ q.current.kind = .eof) fun _ _ => False := by
    refine (statements_reads (parseBlock_reads p.budget) p.budget p hp).imp (fun _ _ h => h) ?_
    intro f q hresult
    obtain ⟨-, hstarved⟩ := hresult
    rw [Nat.min_self] at hstarved
    exact absurd hstarved (not_starved_budget p)
  obtain ⟨ss, q, hrun, hss, hend⟩ := hreads.exists_ok
  exact ⟨ss, q, hrun, bind_of_ok (x := withBudget _) hrun, hss, hend⟩

end Parser

/-- Reading a program from a stream with lexical complaints only. The diagnostics
of failed productions are told from those of the stream by their causes. -/
theorem parseStream_reads (stream : TokenStream)
    (hl : ∀ d ∈ stream.pending.flatMap (·.diagnostics), d.cause.isLexical) :
    ∃ q, Parser.statements Parser.parseStmtOrRecover (Parser.ofStream stream).budget
        (.ofStream stream) = .ok (parseStream stream).1.statements q ∧
      Parser.StmtsRead (.ofStream stream) (parseStream stream).1.statements q ∧
      q.current.kind = .eof ∧ (parseStream stream).2.filter (!·.cause.isLexical) = q.faults := by
  obtain ⟨ss, q, hrun, hprogram, hss, hend⟩ :=
    Parser.parseProgram_reads (p := .ofStream stream) ⟨rfl, rfl⟩
  rw [parseStream, hprogram]
  refine ⟨q, hrun, hss, hend, Parser.filter_diagnostics ?_ ?_⟩
  all_goals obtain ⟨ts, ds, -, hwalk⟩ := hss
  · rwa [hwalk.delivered, Parser.delivered_ofStream]
  · rw [hwalk.faults, Parser.faults_ofStream, List.nil_append]
    exact hwalk.syntactic

end Frontend
