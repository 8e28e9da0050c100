import Frontend.Proofs.ExprSpelling
import Frontend.Proofs.Outcome
import Frontend.Proofs.Tape

/-!
# What reading an expression gives

A production that reads an expression either gives a tree over the tokens it has
passed, one that respects precedence, and leaves the window on the last of them;
or it is rejected somewhere in the middle, with only tokens of expressions behind
it. It never runs out of fuel when the fuel covers the tokens to come.

Each production is looked at with an arbitrary way to read its operands in place
of the recursive call, so the induction over the fuel comes once, at the end. The
loop over the infix operators carries what the expression so far allows to follow
it: the operand that was read last has stopped in front of an operator that is
too loose for it, and this is what makes the expression so far the right left
operand for that operator.
-/

namespace Frontend

/-- The parse has come from `p` to `q` over tokens of an expression. -/
def Within (p q : Parser) : Prop :=
  ∃ ts, Walk ts [] p q ∧ ∀ t ∈ ts, t.kind.inExpression

namespace Within

theorem refl (p : Parser) : Within p p := ⟨[], .refl p, List.forall_mem_nil _⟩

theorem trans {p q r : Parser} (h : Within p q) (h' : Within q r) : Within p r := by
  obtain ⟨ts, hts, hin⟩ := h
  obtain ⟨us, hus, hin'⟩ := h'
  exact ⟨ts ++ us, hts.trans hus, List.forall_mem_append.mpr ⟨hin, hin'⟩⟩

theorem advance {p : Parser} (h : p.current.kind.inExpression) : Within p p.advance :=
  ⟨[p.current], .advance p, List.forall_mem_singleton.mpr h⟩

/-- On the last token of what was read, all but that token has been passed. -/
theorem of_reads {ts : List Token} {p q : Parser} (h : Reads ts [] p q)
    (hin : ∀ t ∈ ts, t.kind.inExpression) : Within p q := by
  obtain ⟨front, rfl, hfront⟩ := h
  exact ⟨front, hfront, (List.forall_mem_append.mp hin).1⟩

theorem note {p q : Parser} {production : Production} {stage stage' : Stage}
    {entry entry' : Mark} (h : Within (p.note production stage entry) q) :
    Within p (q.note production stage' entry') := by
  obtain ⟨ts, hts, hin⟩ := h
  exact ⟨ts, hts.note, hin⟩

end Within

/-- An expression has been read from `p` to `q` at a power. -/
def ExprRead (power : Power) (p : Parser) (e : Expr) (q : Parser) : Prop :=
  ∃ ts, e.Fits power ∧ e.Spells ts ∧ Reads ts [] p q ∧ q.lookaheadPower ≤ power

/-- The reading of an expression from `p` on has failed in `q`. -/
def ExprFailed (fuel : Nat) (p : Parser) : Failure → Parser → Prop
  | .rejected d, q => d.cause.isLexical = false ∧ Within p q
  | .outOfFuel, _ => Starved fuel p

/-- A way to read operands does what reading an expression does. -/
def ReadsOperands (fuel : Nat) (operand : Operand) : Prop :=
  ∀ power p, p.rules = .standard →
    Ensures (operand power) p (ExprRead power p) (ExprFailed fuel p)

theorem ExprRead.note {power : Power} {p q : Parser} {e : Expr} {production : Production}
    {stage stage' : Stage} {entry entry' : Mark}
    (h : ExprRead power (p.note production stage entry) e q) :
    ExprRead power p e (q.note production stage' entry') := by
  obtain ⟨ts, hfits, hspells, hreads, hle⟩ := h
  exact ⟨ts, hfits, hspells, hreads.note, hle⟩

theorem ExprFailed.note {fuel : Nat} {p q : Parser} {f : Failure} {production : Production}
    {stage stage' : Stage} {entry entry' : Mark}
    (h : ExprFailed fuel (p.note production stage entry) f q) :
    ExprFailed fuel p f (q.note production stage' entry') := by
  cases f with
  | rejected d => exact ⟨h.1, h.2.note⟩
  | outOfFuel => exact h

theorem ExprRead.within {power : Power} {p q : Parser} {e : Expr} (h : ExprRead power p e q) :
    Within p q := by
  obtain ⟨ts, hfits, hspells, hreads, -⟩ := h
  exact .of_reads hreads (hspells.inExpression hfits.2)

theorem ExprFailed.within {fuel : Nat} {p q r : Parser} {f : Failure} (h : ExprFailed fuel q f r)
    (hw : Within p q) : ExprFailed fuel p f r := by
  cases f with
  | rejected d => exact ⟨h.1, hw.trans h.2⟩
  | outOfFuel =>
      obtain ⟨ts, hts, -⟩ := hw
      exact Starved.walk h hts

theorem ExprFailed.mono {fuel fuel' : Nat} {p q : Parser} {f : Failure}
    (h : ExprFailed fuel p f q) (hle : fuel' ≤ fuel) : ExprFailed fuel' p f q := by
  cases f with
  | rejected d => exact h
  | outOfFuel => exact Starved.mono h hle

theorem ExprFailed.of_min_budget {fuel : Nat} {p q : Parser} {f : Failure}
    (h : ExprFailed (min p.budget fuel) p f q) : ExprFailed fuel p f q := by
  cases f with
  | rejected d => exact h
  | outOfFuel => exact Starved.of_min_budget h

/-- A failure behind the current token leaves one more unit of fuel. -/
theorem ExprFailed.behind {fuel : Nat} {p q r : Parser} {f : Failure}
    (h : ExprFailed fuel q f r) (hp : p.current.kind.inExpression) (hw : Within p.advance q) :
    ExprFailed (fuel + 1) p f r := by
  cases f with
  | rejected d => exact ⟨h.1, (Within.advance hp).trans (hw.trans h.2)⟩
  | outOfFuel =>
      obtain ⟨ts, hts, -⟩ := hw
      exact Starved.succ h ((Walk.advance p).trans hts) (by simp)
        (Parser.not_ends_zero_of_current (Kind.ne_eof_of_inExpression hp))

/-! ## Prefix rules -/

/-- An expression has been read from `p` to `q` by a prefix rule. -/
def PrimaryRead (p : Parser) (e : Expr) (q : Parser) : Prop :=
  ∃ ts, e.WellFormed ∧ e.isPrimary ∧ e.Spells ts ∧ Reads ts [] p q ∧ e.Allows q.lookaheadPower

theorem Kind.eq_identifier_of_prefixRule? {kind : Kind}
    (h : kind.prefixRule? = some .identifier) : kind = .identifier := by
  unfold Kind.prefixRule? at h
  split at h <;> first | rfl | cases h

theorem Kind.eq_number_of_prefixRule? {kind : Kind} (h : kind.prefixRule? = some .number) :
    kind = .number := by
  unfold Kind.prefixRule? at h
  split at h <;> first | rfl | cases h

theorem Kind.eq_boolean_of_prefixRule? {kind : Kind} (h : kind.prefixRule? = some .boolean) :
    kind = .keyword .true_ ∨ kind = .keyword .false_ := by
  unfold Kind.prefixRule? at h
  split at h <;> first | exact .inl rfl | exact .inr rfl | cases h

theorem Kind.eq_openParen_of_prefixRule? {kind : Kind} (h : kind.prefixRule? = some .grouping) :
    kind = .symbol .openParen := by
  unfold Kind.prefixRule? at h
  split at h <;> first | rfl | cases h

namespace Parser

theorem number_reads {p : Parser} {fuel : Nat} (hk : p.current.kind = .number) :
    Ensures number p (PrimaryRead p) (ExprFailed fuel p) := by
  rw [number, ensures_bind, ensures_currentToken]
  split
  · next value hvalue =>
      rw [ensures_pure]
      exact ⟨[p.current], ⟨hk, hvalue⟩, rfl, .number _ _, .refl p, trivial⟩
  · rw [ensures_reject]
    exact ⟨rfl, .refl p⟩

section Operands

variable {operand : Operand} {fuel : Nat} (ho : ReadsOperands fuel operand) {p : Parser}
  (hp : p.rules = .standard)

include ho hp

theorem prefixed_reads (hk : p.current.kind.prefixRule? = some .operator) :
    Ensures (prefixed operand) p (PrimaryRead p) (ExprFailed (fuel + 1) p) := by
  have hin := Kind.inExpression_of_prefixRule? hk
  simp only [prefixed, ensures_bind, ensures_currentToken, ensures_next, ensures_ite,
    ensures_reject, ensures_pure]
  refine (ho .unary p.advance hp).imp ?_ ?_
  · intro right q hread
    have hw := hread.within
    obtain ⟨ts, hfits, hspells, hreads, hpower⟩ := hread
    refine ⟨fun _ => ⟨rfl, (Within.advance hin).trans hw⟩, fun hstep => ?_⟩
    refine ⟨p.current :: ts, ⟨hk, hfits, ?_⟩, rfl, .prefixed hspells,
      (Reads.refl p).trans hreads, hpower⟩
    intro hs
    simpa [hs] using hstep
  · intro f q hf
    exact hf.behind hin (.refl _)

theorem grouping_reads (hk : p.current.kind = .symbol .openParen) :
    Ensures (grouping operand) p (PrimaryRead p) (ExprFailed (fuel + 1) p) := by
  have hin : p.current.kind.inExpression := by rw [hk]; rfl
  simp only [grouping, ensures_bind, ensures_currentToken, ensures_next, ensures_expect,
    ensures_pure]
  refine (ho .lowest p.advance hp).imp ?_ ?_
  · intro inner q hread
    have hw := hread.within
    obtain ⟨ts, hfits, hspells, hreads, -⟩ := hread
    refine ⟨fun hc => ?_, fun _ => ⟨rfl, (Within.advance hin).trans hw⟩⟩
    exact ⟨_, ⟨hk, hfits⟩, rfl, .grouping hspells hc, (Reads.refl p).trans hreads.step, trivial⟩
  · intro f q hf
    exact hf.behind hin (.refl _)

theorem applyPrefix_reads {rule : PrefixRule} (hk : p.current.kind.prefixRule? = some rule) :
    Ensures (applyPrefix operand rule) p (PrimaryRead p) (ExprFailed (fuel + 1) p) := by
  cases rule with
  | identifier =>
      exact ⟨[p.current], Kind.eq_identifier_of_prefixRule? hk, rfl, .identifier _, .refl p,
        trivial⟩
  | number => exact number_reads (Kind.eq_number_of_prefixRule? hk)
  | boolean =>
      exact ⟨[p.current], Kind.eq_boolean_of_prefixRule? hk, rfl, .boolean _, .refl p, trivial⟩
  | operator => exact prefixed_reads ho hp hk
  | grouping => exact grouping_reads ho hp (Kind.eq_openParen_of_prefixRule? hk)

end Operands

end Parser

/-! ## Infix rules -/

/-- An expression over the tokens `ts` has gone on from `p` to `q` by an infix
rule for an operator of the given power. -/
def SuffixRead (ts : List Token) (power : Power) (p : Parser) (e : Expr) (q : Parser) : Prop :=
  ∃ us, e.WellFormed ∧ e.isPrimary = false ∧ e.power = power ∧ e.Spells (ts ++ us) ∧
    Reads us [] p q ∧ e.Allows q.lookaheadPower

theorem Kind.eq_openParen_of_infixRule? {kind : Kind} {power : Power}
    (h : kind.infixRule? = some (power, .call)) : kind = .symbol .openParen := by
  cases kind with
  | symbol s => cases s <;> simp [Kind.infixRule?, Symbol.infixRule?] at h ⊢
  | _ => simp [Kind.infixRule?] at h

theorem Kind.eq_openBracket_of_infixRule? {kind : Kind} {power : Power}
    (h : kind.infixRule? = some (power, .index)) : kind = .symbol .openBracket := by
  cases kind with
  | symbol s => cases s <;> simp [Kind.infixRule?, Symbol.infixRule?] at h ⊢
  | _ => simp [Kind.infixRule?] at h

theorem Kind.eq_dot_of_infixRule? {kind : Kind} {power : Power}
    (h : kind.infixRule? = some (power, .member)) : kind = .symbol .dot := by
  cases kind with
  | symbol s => cases s <;> simp [Kind.infixRule?, Symbol.infixRule?] at h ⊢
  | _ => simp [Kind.infixRule?] at h

namespace Parser

/-- Arguments have been read behind `q`, each with the comma in front of it. -/
def MoreRead (p : Parser) (es : List Expr) (q : Parser) : Prop :=
  ∃ ts, Expr.AllFit es ∧ Expr.SpellsMore es ts ∧ Reads (p.current :: ts) [] p q ∧
    ∀ t ∈ ts, t.kind.inExpression

/-- The arguments of a call have been read from the opening parenthesis to the
closing one. -/
def ArgumentsRead (p : Parser) (es : List Expr) (q : Parser) : Prop :=
  ∃ ts, Expr.AllFit es ∧ Expr.SpellsArguments es ts ∧ q.current.kind = .symbol .closeParen ∧
    Reads (p.current :: (ts ++ [q.current])) [] p q

section Operands

variable {operand : Operand} {fuel : Nat} (ho : ReadsOperands fuel operand)

include ho

theorem moreArguments_reads : ∀ (n : Nat) (p : Parser), p.rules = .standard →
    p.current.kind.inExpression →
    Ensures (moreArguments operand n) p (MoreRead p) (ExprFailed (min n (fuel + 1)) p) := by
  intro n
  induction n with
  | zero =>
      intro p _ _ k _
      rw [Nat.zero_min]
      exact Nat.zero_le k
  | succ n ih =>
      intro p hp hin
      simp only [moreArguments, ensures_bind, ensures_ahead, ensures_ite, ensures_next,
        ensures_pure, decide_eq_true_eq]
      refine ⟨fun hcomma => ?_, fun _ => ⟨[], trivial, .nil, .refl p, List.forall_mem_nil _⟩⟩
      have hin' : p.advance.current.kind.inExpression := by rw [advance_current, hcomma]; rfl
      refine (ho .lowest p.advance.advance hp).imp ?_ ?_
      · intro e q hread
        have hw : Within p.advance q := (Within.advance hin').trans hread.within
        obtain ⟨ts, hfits, hspells, hreads, -⟩ := hread
        have hts := hspells.inExpression hfits.2
        have hq := hts q.current (List.mem_of_getLast? hreads.current_eq_getLast?)
        refine (ih q (hreads.rules.trans hp) hq).imp ?_ ?_
        · intro es r hresult
          obtain ⟨us, hfit, hmore, hmreads, hus⟩ := hresult
          refine ⟨p.lookahead :: (ts ++ us), ⟨hfits, hfit⟩, .cons hcomma hspells hmore,
            ((Reads.refl p).step.trans hreads).extend hmreads, ?_⟩
          exact List.forall_mem_cons.mpr ⟨hin', List.forall_mem_append.mpr ⟨hts, hus⟩⟩
        · intro f r hf
          exact (hf.behind hin hw).mono (by omega)
      · intro f q hf
        exact (hf.behind hin (.advance hin')).mono (by omega)

variable {p : Parser} (hp : p.rules = .standard)

include hp

theorem arguments_reads (hk : p.current.kind = .symbol .openParen) :
    Ensures (arguments operand) p (ArgumentsRead p) (ExprFailed (fuel + 1) p) := by
  have hin : p.current.kind.inExpression := by rw [hk]; rfl
  simp only [arguments, ensures_bind, ensures_ahead, ensures_ite, ensures_next, ensures_pure,
    decide_eq_true_eq, ensures_withBudget, ensures_expect]
  refine ⟨fun hclose => ⟨[], trivial, .none, hclose, (Reads.refl p).step⟩, fun _ => ?_⟩
  refine (ho .lowest p.advance hp).imp ?_ ?_
  · intro first q hread
    have hw : Within p q := (Within.advance hin).trans hread.within
    obtain ⟨ts, hfits, hspells, hreads, -⟩ := hread
    have hts := hspells.inExpression hfits.2
    have hq := hts q.current (List.mem_of_getLast? hreads.current_eq_getLast?)
    refine (moreArguments_reads ho q.budget q (hreads.rules.trans hp) hq).imp ?_ ?_
    · intro es r hresult
      obtain ⟨us, hfit, hmore, hmreads, hus⟩ := hresult
      have hwr : Within p r :=
        hw.trans (.of_reads hmreads (List.forall_mem_cons.mpr ⟨hq, hus⟩))
      refine ⟨fun hclose => ?_, fun _ => ⟨rfl, hwr⟩⟩
      refine ⟨ts ++ us, ⟨hfits, hfit⟩, .some hspells hmore, hclose, ?_⟩
      have h := ((Reads.refl p).trans (hreads.extend hmreads)).step
      rwa [List.append_assoc] at h
    · intro f r hf
      exact hf.of_min_budget.within hw
  · intro f q hf
    exact hf.behind hin (.refl _)

/-! Each infix rule goes on with a left operand over the tokens `ts`; the current
token is the operator. -/

variable {left : Expr} {ts : List Token} (hl : left.Spells ts) (hw : left.WellFormed)

include hl hw

theorem binary_reads {power : Power} (hk : p.current.kind.infixRule? = some (power, .binary))
    (ha : left.Allows power) :
    Ensures (binary operand left power) p (SuffixRead ts power p)
      (ExprFailed (fuel + 1) p) := by
  have hin := Kind.inExpression_of_infixRule? hk
  have hpower := Kind.power_of_infixRule? hk
  simp only [binary, ensures_bind, ensures_currentToken, ensures_next, ensures_pure]
  refine (ho power p.advance hp).imp ?_ ?_
  · intro right q hresult
    obtain ⟨us, hfits, hspells, hreads, hle⟩ := hresult
    have hleft := (Expr.bindsAt_iff_allows hw (Kind.hasPower_of_infixRule? hk)).mpr ha
    refine ⟨p.current :: us, ?_, rfl, hpower, .binary hl hspells,
      (Reads.refl p).trans hreads, ?_⟩
    · rw [Expr.WellFormed, hpower]
      exact ⟨hk, ⟨hleft, hw⟩, hfits⟩
    · rw [Expr.Allows, hpower]
      exact hle
  · intro f q hf
    exact hf.behind hin (.refl _)

theorem assignment_reads {power : Power}
    (hk : p.current.kind.infixRule? = some (power, .assignment)) :
    Ensures (assignment operand left) p (SuffixRead ts power p) (ExprFailed (fuel + 1) p) := by
  have hin := Kind.inExpression_of_infixRule? hk
  have hpower := Kind.power_of_infixRule? hk
  obtain rfl : power = .assignment := of_decide_eq_true (Kind.hasPower_of_infixRule? hk)
  simp only [assignment, ensures_bind, ensures_currentToken, ensures_ite, ensures_next,
    ensures_pure, ensures_reject]
  refine ⟨fun hassignable => ?_, fun _ => ⟨rfl, .refl p⟩⟩
  refine (ho .lowest p.advance hp).imp ?_ ?_
  · intro value q hresult
    obtain ⟨us, hfits, hspells, hreads, hle⟩ := hresult
    exact ⟨p.current :: us, ⟨hk, ⟨hassignable, hw⟩, hfits⟩, rfl, hpower,
      .assignment hl hspells, (Reads.refl p).trans hreads, hle⟩
  · intro f q hf
    exact hf.behind hin (.refl _)

omit ho hp in
theorem postfixed_reads {power : Power}
    (hk : p.current.kind.infixRule? = some (power, .postfixed)) (ha : left.Allows power) :
    Ensures (postfixed left) p (SuffixRead ts power p) (ExprFailed (fuel + 1) p) := by
  have hpower := Kind.power_of_infixRule? hk
  obtain rfl : power = .call := of_decide_eq_true (Kind.hasPower_of_infixRule? hk)
  simp only [postfixed, ensures_bind, ensures_currentToken, ensures_ite, ensures_pure,
    ensures_reject]
  refine ⟨fun hassignable => ?_, fun _ => ⟨rfl, .refl p⟩⟩
  have htarget := (Expr.isTarget_iff_allows hw).mpr ha
  exact ⟨[p.current], ⟨hk, ⟨htarget, hw⟩, hassignable⟩, rfl, hpower, .postfixed hl, .refl p,
    trivial⟩

theorem call_reads {power : Power} (hk : p.current.kind.infixRule? = some (power, .call))
    (ha : left.Allows power) :
    Ensures (call operand left) p (SuffixRead ts power p) (ExprFailed (fuel + 1) p) := by
  have hpower := Kind.power_of_infixRule? hk
  have hopen := Kind.eq_openParen_of_infixRule? hk
  obtain rfl : power = .call := of_decide_eq_true (Kind.hasPower_of_infixRule? hk)
  simp only [call, ensures_bind, ensures_currentToken, ensures_pure]
  refine (arguments_reads ho hp hopen).imp ?_ fun f q hf => hf
  intro arguments q hresult
  obtain ⟨us, hfit, hspells, hclose, hreads⟩ := hresult
  have htarget := (Expr.isTarget_iff_allows hw).mpr ha
  exact ⟨_, ⟨hopen, ⟨htarget, hw⟩, hfit⟩, rfl, hpower, .call hl hspells hclose, hreads, trivial⟩

theorem indexed_reads {power : Power} (hk : p.current.kind.infixRule? = some (power, .index))
    (ha : left.Allows power) :
    Ensures (indexed operand left) p (SuffixRead ts power p) (ExprFailed (fuel + 1) p) := by
  have hin := Kind.inExpression_of_infixRule? hk
  have hpower := Kind.power_of_infixRule? hk
  have hopen := Kind.eq_openBracket_of_infixRule? hk
  obtain rfl : power = .call := of_decide_eq_true (Kind.hasPower_of_infixRule? hk)
  simp only [indexed, ensures_bind, ensures_currentToken, ensures_next, ensures_expect,
    ensures_pure]
  refine (ho .lowest p.advance hp).imp ?_ ?_
  · intro place q hread
    have hwithin := hread.within
    obtain ⟨us, hfits, hspells, hreads, -⟩ := hread
    refine ⟨fun hclose => ?_, fun _ => ⟨rfl, (Within.advance hin).trans hwithin⟩⟩
    have htarget := (Expr.isTarget_iff_allows hw).mpr ha
    exact ⟨_, ⟨hopen, ⟨htarget, hw⟩, hfits⟩, rfl, hpower, .index hl hspells hclose,
      (Reads.refl p).trans hreads.step, trivial⟩
  · intro f q hf
    exact hf.behind hin (.refl _)

omit ho hp in
theorem member_reads {power : Power} (hk : p.current.kind.infixRule? = some (power, .member))
    (ha : left.Allows power) :
    Ensures (member left) p (SuffixRead ts power p) (ExprFailed (fuel + 1) p) := by
  have hpower := Kind.power_of_infixRule? hk
  have hdot := Kind.eq_dot_of_infixRule? hk
  obtain rfl : power = .call := of_decide_eq_true (Kind.hasPower_of_infixRule? hk)
  simp only [member, ensures_bind, ensures_currentToken, ensures_expect, ensures_pure]
  refine ⟨fun hname => ?_, fun _ => ⟨rfl, .refl p⟩⟩
  have htarget := (Expr.isTarget_iff_allows hw).mpr ha
  exact ⟨_, ⟨hdot, ⟨htarget, hw⟩, hname⟩, rfl, hpower, .member hl, (Reads.refl p).step, trivial⟩

theorem applyInfix_reads {power : Power} {rule : InfixRule}
    (hk : p.current.kind.infixRule? = some (power, rule)) (ha : left.Allows power) :
    Ensures (applyInfix operand left power rule) p (SuffixRead ts power p)
      (ExprFailed (fuel + 1) p) := by
  cases rule with
  | binary => exact binary_reads ho hp hl hw hk ha
  | assignment => exact assignment_reads ho hp hl hw hk
  | postfixed => exact postfixed_reads hl hw hk ha
  | call => exact call_reads ho hp hl hw hk ha
  | index => exact indexed_reads ho hp hl hw hk ha
  | member => exact member_reads hl hw hk ha

end Operands

/-! ## Whole expressions -/

/-- What the loop over the infix operators knows of the expression so far: the
next operator can have all of it as its left operand. -/
def LeftRead (power : Power) (p : Parser) (e : Expr) (q : Parser) : Prop :=
  ∃ ts, e.Fits power ∧ e.Spells ts ∧ Reads ts [] p q ∧ e.Allows q.lookaheadPower

theorem climb_reads {operand : Operand} {fuel : Nat} (ho : ReadsOperands fuel operand)
    {power : Power} {p : Parser} (hp : p.rules = .standard) :
    ∀ (n : Nat) (left : Expr) (q : Parser), n ≤ fuel + 1 → LeftRead power p left q →
      Ensures (climb operand power n left) q (ExprRead power p) (ExprFailed n q) := by
  intro n
  induction n with
  | zero =>
      intro left q _ _ k _
      exact Nat.zero_le k
  | succ n ih =>
      intro left q hn hresult
      obtain ⟨ts, hfits, hspells, hreads, hallows⟩ := hresult
      have hq : q.rules = .standard := hreads.rules.trans hp
      have hin := hspells.inExpression hfits.2 q.current
        (List.mem_of_getLast? hreads.current_eq_getLast?)
      rw [climb, ensures_bind, ensures_get]
      split
      · next hnone =>
          rw [hq] at hnone
          refine ⟨ts, hfits, hspells, hreads, ?_⟩
          rw [lookaheadPower, hq, Kind.power_of_infixRule?_none hnone]
          exact Nat.zero_le power.rank
      · next operatorPower rule hsome =>
          rw [hq] at hsome
          have hpower : q.lookaheadPower = operatorPower := by
            rw [lookaheadPower, hq]
            exact Kind.power_of_infixRule? hsome
          rw [hpower] at hallows
          rw [ensures_ite]
          constructor
          · intro hlt
            rw [ensures_bind, ensures_next, ensures_bind]
            refine (applyInfix_reads ho (p := q.advance) hq hspells hfits.2 hsome hallows).imp
              ?_ ?_
            · intro e r hresult
              obtain ⟨us, hwf, hprimary, hpow, hspells', hreads', hallows'⟩ := hresult
              have hus : ∀ t ∈ us, t.kind.inExpression :=
                (List.forall_mem_append.mp (hspells'.inExpression hwf)).2
              have hbinds : e.Binds power := .inr (by rw [hpow]; exact hlt)
              refine (ih e r (by omega)
                ⟨ts ++ us, ⟨hbinds, hwf⟩, hspells', hreads.trans hreads', hallows'⟩).imp
                (fun _ _ h => h) ?_
              intro f s hf
              exact hf.behind hin (.of_reads hreads' hus)
            · intro f r hf
              exact (hf.within (.advance hin)).mono hn
          · intro hle
            refine ⟨ts, hfits, hspells, hreads, ?_⟩
            rw [hpower]
            exact Nat.le_of_not_lt hle

theorem expr_reads (fuel : Nat) : ReadsOperands fuel (expr fuel) := by
  induction fuel with
  | zero =>
      intro power p _ k _
      exact Nat.zero_le k
  | succ fuel ih =>
      intro power p hp
      rw [expr]
      refine ensures_of_during (fun h => h.note) (fun h => h.note) fun p' hp' => ?_
      have hrules : p'.rules = .standard := by rw [hp']; exact hp
      rw [ensures_bind, ensures_get]
      split
      · rw [ensures_reject]
        exact ⟨rfl, .refl p'⟩
      · next rule hrule =>
          rw [hrules] at hrule
          rw [ensures_bind]
          refine (applyPrefix_reads ih hrules hrule).imp ?_ fun f q hf => hf
          intro left q hresult
          obtain ⟨ts, hwf, hprimary, hspells, hreads, hallows⟩ := hresult
          refine (climb_reads ih hrules (fuel + 1) left q (Nat.le_refl _)
            ⟨ts, ⟨.inl hprimary, hwf⟩, hspells, hreads, hallows⟩).imp (fun _ _ h => h) ?_
          intro f r hf
          exact hf.within (.of_reads hreads (hspells.inExpression hwf))

/-- Reading an expression gives a tree that respects precedence over the tokens
passed, in front of an operator that is too loose; or it is rejected within the
expression. -/
theorem expression_reads {p : Parser} (hp : p.rules = .standard) (power : Power) :
    Ensures (expression power) p (ExprRead power p)
      (fun f q => ∃ d, f = .rejected d ∧ d.cause.isLexical = false ∧ Within p q) := by
  rw [expression, ensures_withBudget]
  refine (expr_reads p.budget power p hp).imp (fun _ _ h => h) ?_
  intro f q hf
  cases f with
  | rejected d => exact ⟨d, rfl, hf⟩
  | outOfFuel => exact absurd hf (not_starved_budget p)

end Parser

end Frontend
