import Frontend.Proofs.ExprReading

/-!
# Every expression that respects precedence is read

`expression_reads` says that what is read respects precedence. Here is the
converse: stand a parser in front of the tokens of an expression that respects
precedence, with a token behind them that binds too loosely to go on, and it
reads just this expression and stops on its last token.

An expression is read from its leftmost part outwards: a prefix rule reads its
beginning, and each turn of the loop wraps what has been read into one more
operator. So the induction goes down the left operands, and what it promises for
a left operand is about the loop that comes behind it: when the loop goes well
from the last token of the operand on, the whole reading goes well. All other
operands are read by recursive calls, for which fewer tokens are left.
-/

namespace Frontend

namespace Expr

/-- The number of infix rules on the way to the leftmost part of an expression. -/
def turns : Expr → Nat
  | postfixed operand _ _ => operand.turns + 1
  | binary left _ _ _ => left.turns + 1
  | assignment target _ _ _ => target.turns + 1
  | call _ callee _ _ => callee.turns + 1
  | index _ target _ _ => target.turns + 1
  | member _ target _ _ => target.turns + 1
  | _ => 0

theorem Spells.turns_lt {e : Expr} {ts : List Token} (h : e.Spells ts) :
    e.turns < ts.length := by
  match h with
  | .identifier _ | .number _ _ | .boolean _ | .prefixed _ | .grouping _ _ =>
      exact Nat.zero_lt_succ _
  | .postfixed h | .binary h _ | .assignment h _ | .call h _ _ | .index h _ _ | .member h =>
      have := h.turns_lt
      simp only [turns, List.length_append, List.length_cons]
      omega

/-- An operator that is too loose to be taken in leaves the expression as it is. -/
theorem Fits.allows {e : Expr} {power next : Power} (h : e.Fits power) (hp : power ≠ .call)
    (hle : next ≤ power) : e.Allows next := by
  obtain ⟨hbinds, hw⟩ := h
  have hrank : power.rank ≤ 12 := by
    cases power <;> first | decide | exact absurd rfl hp
  simp only [Power.le_iff_rank_le] at hle
  cases e with
  | prefixed operator operand span => exact Nat.le_trans hle hrank
  | binary left operator right span =>
      have hlt : power < Rules.standard.power operator.kind :=
        hbinds.resolve_left Bool.false_ne_true
      exact Nat.le_trans hle (Nat.le_of_lt hlt)
  | assignment target operator value span =>
      have hlt : power < Rules.standard.power operator.kind :=
        hbinds.resolve_left Bool.false_ne_true
      rw [Kind.power_of_infixRule? hw.1, Power.lt_iff_rank_lt, Power.rank] at hlt
      exact Nat.le_trans hle (Nat.le_of_lt_succ hlt)
  | _ => trivial

/-- What can be called or the like is taken in wherever its call is. -/
theorem IsTarget.binds {e : Expr} {power : Power} (h : e.IsTarget) (hp : power < .call) :
    e.Binds power := by
  rcases h with ⟨h, -⟩ | ⟨-, h⟩
  · exact .inl h
  · exact .inr (by rwa [h])

/-- What can be called or the like has any operator behind it that does so. -/
theorem IsTarget.allows {e : Expr} (h : e.IsTarget) (hw : e.WellFormed) {kind : Kind}
    {rule : InfixRule} (hrule : kind.infixRule? = some (.call, rule)) :
    e.Allows (Rules.standard.power kind) := by
  rw [Kind.power_of_infixRule? hrule]
  exact (isTarget_iff_allows hw).mp h

/-- An expression that is read by an infix rule is taken in for its operator. -/
theorem lt_of_binds {e : Expr} {power power' : Power} {rule : InfixRule} (h : e.Binds power)
    (he : e.isPrimary = false) (hrule : e.token.kind.infixRule? = some (power', rule)) :
    power < power' := by
  have hlt := h.resolve_left (by rw [he]; exact Bool.false_ne_true)
  rwa [Expr.power, Kind.power_of_infixRule? hrule] at hlt

theorem BindsAt.binds {e : Expr} {power power' : Power} (h : e.BindsAt power')
    (hp : power < power') : e.Binds power :=
  h.imp_right fun hle => Nat.lt_of_lt_of_le hp hle

/-- A place to store into is taken in wherever an operator is. -/
theorem binds_of_isAssignable {e : Expr} {power power' : Power} (h : e.isAssignable)
    (hw : e.WellFormed) (hp : power < power') : e.Binds power := by
  have hcall : power.rank < 13 := by
    have : power'.rank ≤ 13 := by cases power' <;> decide
    exact Nat.lt_of_lt_of_le hp this
  cases e with
  | identifier token => exact .inl rfl
  | index token target place span => exact .inr (by rw [power_of_isSuffixed hw rfl]; exact hcall)
  | member token target name span => exact .inr (by rw [power_of_isSuffixed hw rfl]; exact hcall)
  | _ => cases h

theorem allows_of_isAssignable {e : Expr} (h : e.isAssignable) (power : Power) :
    e.Allows power := by
  cases e <;> trivial

end Expr

namespace Parser

/-- Reading an expression behind the note in the trail: its beginning by a prefix
rule, then `n` turns of the loop at most. -/
def begin (operand : Operand) (power : Power) (n : Nat) : ParseM Expr := do
  let p ← get
  match p.rules.prefixRule? p.current.kind with
  | none => reject (.noPrefixRule p.current.kind) p.current.span.start
  | some rule =>
      let left ← applyPrefix operand rule
      climb operand power n left

theorem expr_succ (fuel : Nat) (power : Power) :
    expr (fuel + 1) power = during .expression (begin (expr fuel) power (fuel + 1)) := rfl

section Steps

variable {operand : Operand} {power : Power} {n : Nat} {ok : Expr → Parser → Prop}
  {err : Failure → Parser → Prop} {p : Parser} (hp : p.rules = .standard)

include hp

theorem ensures_begin {rule : PrefixRule} (hk : p.current.kind.prefixRule? = some rule) :
    Ensures (begin operand power n) p ok err ↔
      Ensures (applyPrefix operand rule) p
        (fun e q => Ensures (climb operand power n e) q ok err) err := by
  rw [begin, ensures_bind, ensures_get, hp, show Rules.standard.prefixRule? _ = some rule from hk,
    ensures_bind]

theorem ensures_climb_turn {left : Expr} {operatorPower : Power} {rule : InfixRule}
    (hk : p.lookahead.kind.infixRule? = some (operatorPower, rule))
    (hlt : power < operatorPower) :
    Ensures (climb operand power (n + 1) left) p ok err ↔
      Ensures (applyInfix operand left operatorPower rule) p.advance
        (fun e q => Ensures (climb operand power n e) q ok err) err := by
  rw [climb, ensures_bind, ensures_get, hp, show Rules.standard.infixRule? _ = some _ from hk]
  rw [ensures_ite, ensures_bind, ensures_next, ensures_bind]
  simp [hlt]

theorem ensures_climb_stop {left : Expr} (hle : p.lookaheadPower ≤ power) :
    Ensures (climb operand power (n + 1) left) p ok err ↔ ok left p := by
  rw [climb, ensures_bind, ensures_get]
  split
  · exact ensures_pure
  · next operatorPower rule hk =>
      rw [hp] at hk
      rw [lookaheadPower, hp, Kind.power_of_infixRule? hk] at hle
      rw [if_neg (show ¬ power < operatorPower from Nat.not_lt_of_le hle), ensures_pure]

end Steps

/-! ## The induction -/

/-- A way to read operands reads every expression of at most `fuel` tokens that
it should. -/
def FindsOperands (fuel : Nat) (operand : Operand) : Prop :=
  ∀ {power : Power} {e : Expr} {ts : List Token} {rest : Stream' Token} {p : Parser},
    power ≠ .call → p.rules = .standard → e.Fits power → e.Spells ts → ts.length ≤ fuel →
    p.upcoming = ts ++ₛ rest → Rules.standard.power rest.head.kind ≤ power →
    Ensures (operand power) p (fun e' q => e' = e ∧ Reads ts [] p q) fun _ _ => False

theorem lowest_le_of_kind_eq {t : Token} {kind : Kind} (ht : t.kind = kind)
    (hkind : Rules.standard.power kind ≤ .lowest) : Rules.standard.power t.kind ≤ .lowest := by
  rwa [ht]

section Operands

variable {operand : Operand} {fuel : Nat} (ho : FindsOperands fuel operand) {p : Parser}
  (hp : p.rules = .standard)

include ho hp

theorem moreArguments_finds {es : List Expr} {ts : List Token} (h : Expr.SpellsMore es ts)
    (hw : Expr.AllFit es) {rest : Stream' Token} (hrest : rest.head.kind = .symbol .closeParen)
    {n : Nat} (hn : ts.length < n) (hlen : ts.length ≤ fuel)
    (hu : p.upcoming = p.current :: ts ++ₛ rest) :
    Ensures (moreArguments operand n) p
      (fun es' q => es' = es ∧ Reads (p.current :: ts) [] p q) fun _ _ => False := by
  induction n generalizing es ts p with
  | zero => omega
  | succ n ih =>
      simp only [moreArguments, ensures_bind, ensures_ahead, ensures_ite, ensures_next,
        ensures_pure, decide_eq_true_eq]
      cases h with
      | nil =>
          have hlook : p.lookahead = rest.head := (Reads.refl p).lookahead_eq hu
          refine ⟨fun hcomma => ?_, fun _ => ⟨rfl, .refl p⟩⟩
          rw [hlook, hrest] at hcomma
          cases hcomma
      | @cons comma e es ts us hc h hs =>
          obtain ⟨-, hu'⟩ := of_upcoming_eq_cons hu
          obtain ⟨hcomma, hu''⟩ := of_upcoming_eq_cons hu'
          rw [advance_current] at hcomma
          refine ⟨fun _ => ?_, fun hne => absurd (by rw [hcomma, hc]) hne⟩
          rw [Stream'.append_append_stream] at hu''
          simp only [List.length_cons, List.length_append] at hn hlen
          -- The token behind an argument is a comma or the closing parenthesis.
          have hfollow : Rules.standard.power (us ++ₛ rest).head.kind ≤ .lowest := by
            cases hs with
            | nil => exact lowest_le_of_kind_eq hrest (by decide)
            | cons hc => exact lowest_le_of_kind_eq hc (by decide)
          refine (ho (p := p.advance.advance) (by decide) hp hw.1 h (by omega) hu'' hfollow).imp ?_
            fun _ _ h => h
          intro x' q hresult
          obtain ⟨rfl, hreads⟩ := hresult
          have hq : q.upcoming = q.current :: us ++ₛ rest := by
            rw [upcoming_eq_cons, hreads.upcoming_advance hu'']
            rfl
          refine (ih (hreads.rules.trans hp) hs hw.2 (by omega) (by omega) hq).imp ?_
            fun _ _ h => h
          intro x' r hresult
          obtain ⟨rfl, hmore⟩ := hresult
          refine ⟨rfl, ?_⟩
          have h := ((Reads.refl p).step.trans hreads).extend hmore
          rwa [hcomma] at h

theorem arguments_finds {es : List Expr} {ts : List Token} (h : Expr.SpellsArguments es ts)
    (hw : Expr.AllFit es) {closing : Token} (hc : closing.kind = .symbol .closeParen)
    {rest : Stream' Token} (hlen : ts.length ≤ fuel)
    (hu : p.upcoming = p.current :: (ts ++ [closing]) ++ₛ rest) :
    Ensures (arguments operand) p
      (fun es' q => es' = es ∧ Reads (p.current :: (ts ++ [closing])) [] p q)
      fun _ _ => False := by
  simp only [arguments, ensures_bind, ensures_ahead, ensures_ite, ensures_next, ensures_pure,
    decide_eq_true_eq, ensures_withBudget, ensures_expect]
  obtain ⟨-, hu'⟩ := of_upcoming_eq_cons hu
  rw [Stream'.append_append_stream] at hu'
  cases h with
  | none =>
      obtain ⟨hlook, -⟩ := of_upcoming_eq_cons hu'
      rw [advance_current] at hlook
      refine ⟨fun _ => ⟨rfl, ?_⟩, fun hne => absurd (by rw [hlook, hc]) hne⟩
      rw [← hlook]
      exact (Reads.refl p).step
  | @some e es ts us h hs =>
      rw [List.length_append] at hlen
      rw [Stream'.append_append_stream] at hu'
      constructor
      · intro hclose
        obtain ⟨t, vs, rule, rfl, hrule⟩ := h.exists_prefixRule hw.1.2
        obtain ⟨hlook, -⟩ := of_upcoming_eq_cons hu'
        rw [← hlook, advance_current, hclose] at hrule
        cases hrule
      · intro _
        have hclose : ([closing] ++ₛ rest).head.kind = .symbol .closeParen := hc
        have hfollow :
            Rules.standard.power (us ++ₛ ([closing] ++ₛ rest)).head.kind ≤ .lowest := by
          cases hs with
          | nil => exact lowest_le_of_kind_eq hclose (by decide)
          | cons hc => exact lowest_le_of_kind_eq hc (by decide)
        refine (ho (p := p.advance) (by decide) hp hw.1 h (by omega) hu' hfollow).imp ?_
          fun _ _ h => h
        intro x' q hresult
        obtain ⟨rfl, hreads⟩ := hresult
        have hadvance := hreads.upcoming_advance hu'
        have hq : q.upcoming = q.current :: us ++ₛ ([closing] ++ₛ rest) := by
          rw [upcoming_eq_cons, hadvance]
          rfl
        have hbudget : us.length < q.budget := by
          have hus : ∀ t ∈ us, t.kind ≠ .eof := fun t ht =>
            Kind.ne_eof_of_inExpression (hs.inExpression hw.2 t ht)
          have := length_le_budget hadvance hus
          have := TokenStream.pullFrom_length_le q.stream.last q.stream.pending
          have : q.advance.stream.pending.length ≤ q.stream.pending.length - 1 := this
          rw [budget]
          omega
        refine (moreArguments_finds ho (hreads.rules.trans hp) hs hw.2 hclose hbudget (by omega)
          hq).imp ?_ fun _ _ h => h
        intro x' r hresult
        obtain ⟨rfl, hmore⟩ := hresult
        have hlook : r.lookahead = closing := hmore.lookahead_eq hq
        refine ⟨fun _ => ⟨rfl, ?_⟩, fun hne => absurd (by rw [hlook, hc]) hne⟩
        have h := ((Reads.refl p).trans (hreads.extend hmore)).step
        rwa [hlook] at h

/-! Each infix rule makes its node from the operator and what is behind it. -/

section Infix

variable {left right : Expr} {operator : Token} {us : List Token} {rest : Stream' Token}
  {power : Power}

theorem binary_finds (hk : operator.kind.infixRule? = some (power, .binary))
    (hr : right.Spells us) (hfits : right.Fits power) (hlen : us.length ≤ fuel)
    (hu : p.upcoming = operator :: us ++ₛ rest)
    (ha : Rules.standard.power rest.head.kind ≤ power) :
    Ensures (binary operand left power) p
      (fun e q => e = .binary left operator right ⟨left.span.start, right.span.stop⟩ ∧
        Reads (operator :: us) [] p q) fun _ _ => False := by
  obtain ⟨rfl, hu'⟩ := of_upcoming_eq_cons hu
  have hpower := InfixRule.hasPower_binary.mp (Kind.hasPower_of_infixRule? hk)
  have hcall : power ≠ .call := by
    rintro rfl
    rw [Power.rank] at hpower
    omega
  simp only [binary, ensures_bind, ensures_currentToken, ensures_next, ensures_pure]
  refine (ho (p := p.advance) hcall hp hfits hr hlen hu' ha).imp ?_ fun _ _ h => h
  intro x' q hresult
  obtain ⟨rfl, hreads⟩ := hresult
  exact ⟨rfl, (Reads.refl p).trans hreads⟩

theorem assignment_finds (hl : left.isAssignable) (hr : right.Spells us)
    (hfits : right.Fits .lowest) (hlen : us.length ≤ fuel)
    (hu : p.upcoming = operator :: us ++ₛ rest)
    (ha : Rules.standard.power rest.head.kind ≤ .lowest) :
    Ensures (assignment operand left) p
      (fun e q => e = .assignment left operator right ⟨left.span.start, right.span.stop⟩ ∧
        Reads (operator :: us) [] p q) fun _ _ => False := by
  obtain ⟨rfl, hu'⟩ := of_upcoming_eq_cons hu
  simp only [assignment, ensures_bind, ensures_currentToken, ensures_ite, ensures_next,
    ensures_pure]
  refine ⟨fun _ => ?_, fun hne => absurd hl hne⟩
  refine (ho (p := p.advance) (by decide) hp hfits hr hlen hu' ha).imp ?_ fun _ _ h => h
  intro x' q hresult
  obtain ⟨rfl, hreads⟩ := hresult
  exact ⟨rfl, (Reads.refl p).trans hreads⟩

omit ho hp in
theorem postfixed_finds (hl : left.isAssignable) (hu : p.upcoming = [operator] ++ₛ rest) :
    Ensures (postfixed left) p
      (fun e q => e = .postfixed left operator ⟨left.span.start, operator.span.stop⟩ ∧
        Reads [operator] [] p q) fun _ _ => False := by
  obtain ⟨rfl, -⟩ := of_upcoming_eq_cons hu
  simp only [postfixed, ensures_bind, ensures_currentToken, ensures_ite, ensures_pure]
  exact ⟨fun _ => ⟨trivial, .refl p⟩, fun hne => absurd hl hne⟩

theorem call_finds {closing : Token} {es : List Expr} (ha : Expr.SpellsArguments es us)
    (hw : Expr.AllFit es) (hc : closing.kind = .symbol .closeParen) (hlen : us.length ≤ fuel)
    (hu : p.upcoming = operator :: (us ++ [closing]) ++ₛ rest) :
    Ensures (call operand left) p
      (fun e q => e = .call operator left es ⟨left.span.start, closing.span.stop⟩ ∧
        Reads (operator :: (us ++ [closing])) [] p q) fun _ _ => False := by
  obtain ⟨rfl, -⟩ := of_upcoming_eq_cons hu
  simp only [call, ensures_bind, ensures_currentToken, ensures_pure]
  refine (arguments_finds ho hp ha hw hc hlen hu).imp ?_ fun _ _ h => h
  intro x' q hresult
  obtain ⟨rfl, hreads⟩ := hresult
  have hlast := hreads.current_eq_getLast?
  rw [← List.cons_append, List.getLast?_concat, Option.some.injEq] at hlast
  rw [← hlast]
  exact ⟨rfl, hreads⟩

theorem indexed_finds {closing : Token} (hr : right.Spells us) (hfits : right.Fits .lowest)
    (hc : closing.kind = .symbol .closeBracket) (hlen : us.length ≤ fuel)
    (hu : p.upcoming = operator :: (us ++ [closing]) ++ₛ rest) :
    Ensures (indexed operand left) p
      (fun e q => e = .index operator left right ⟨left.span.start, closing.span.stop⟩ ∧
        Reads (operator :: (us ++ [closing])) [] p q) fun _ _ => False := by
  obtain ⟨rfl, hu'⟩ := of_upcoming_eq_cons hu
  rw [Stream'.append_append_stream] at hu'
  simp only [indexed, ensures_bind, ensures_currentToken, ensures_next, ensures_expect,
    ensures_pure]
  refine (ho (p := p.advance) (by decide) hp hfits hr hlen hu'
    (lowest_le_of_kind_eq hc (by decide))).imp ?_ fun _ _ h => h
  intro x' q hresult
  obtain ⟨rfl, hreads⟩ := hresult
  have hlook : q.lookahead = closing := hreads.lookahead_eq hu'
  rw [hlook]
  refine ⟨fun _ => ⟨rfl, ?_⟩, fun hne => absurd hc hne⟩
  have h := (Reads.refl p).trans hreads.step
  rwa [hlook] at h

omit ho hp in
theorem member_finds {name : Token} (hname : name.kind = .identifier)
    (hu : p.upcoming = [operator, name] ++ₛ rest) :
    Ensures (member left) p
      (fun e q => e = .member operator left name ⟨left.span.start, name.span.stop⟩ ∧
        Reads [operator, name] [] p q) fun _ _ => False := by
  obtain ⟨rfl, hu'⟩ := of_upcoming_eq_cons hu
  obtain ⟨hlook, -⟩ := of_upcoming_eq_cons hu'
  rw [advance_current] at hlook
  subst hlook
  simp only [member, ensures_bind, ensures_currentToken, ensures_expect, ensures_pure]
  exact ⟨fun _ => ⟨trivial, (Reads.refl p).step⟩, fun hne => absurd hname hne⟩

end Infix

omit ho in
/-- One turn of the loop behind a left operand. -/
theorem begin_turn {power operatorPower : Power} {rule : InfixRule} {left e : Expr}
    {operator : Token} {ts us : List Token} {rest : Stream' Token} {n : Nat}
    {ok : Expr → Parser → Prop} {err : Failure → Parser → Prop}
    (hrule : operator.kind.infixRule? = some (operatorPower, rule))
    (hlt : power < operatorPower) (hu : p.upcoming = ts ++ₛ (operator :: us ++ₛ rest))
    (hleft : (∀ q, Reads ts [] p q → Ensures (climb operand power (n + 1) left) q ok err) →
      Ensures (begin operand power (n + 1 + left.turns)) p ok err)
    (hright : ∀ {q : Parser}, q.rules = .standard → q.upcoming = operator :: us ++ₛ rest →
      Ensures (applyInfix operand left operatorPower rule) q
        (fun e' r => e' = e ∧ Reads (operator :: us) [] q r) fun _ _ => False)
    (hk : ∀ q, Reads (ts ++ operator :: us) [] p q → Ensures (climb operand power n e) q ok err) :
    Ensures (begin operand power (n + (left.turns + 1))) p ok err := by
  rw [← Nat.succ_add_eq_add_succ]
  refine hleft fun q hreads => ?_
  have hq := hreads.rules.trans hp
  have hu' := hreads.upcoming_advance hu
  have hlook : q.lookahead = operator := (of_upcoming_eq_cons hu').1
  rw [ensures_climb_turn hq (hlook ▸ hrule) hlt]
  refine (hright (q := q.advance) hq hu').imp ?_ fun _ _ h => h.elim
  intro x' r hresult
  obtain ⟨rfl, hreads'⟩ := hresult
  exact hk r (hreads.trans hreads')

omit ho hp in
theorem number_finds {value : Literal} (h : Literal.read? p.current.lexeme = some value) :
    Ensures number p (fun e q => e = .number p.current value ∧ Reads [p.current] [] p q)
      fun _ _ => False := by
  simp only [number, ensures_bind, ensures_currentToken, h, ensures_pure]
  exact ⟨trivial, .refl p⟩

theorem prefixed_finds {operator : Token} {e : Expr} {ts : List Token} {rest : Stream' Token}
    (he : e.Spells ts) (hfits : e.Fits .unary) (hstep : operator.isStep → e.isAssignable)
    (hlen : ts.length ≤ fuel) (hu : p.upcoming = operator :: ts ++ₛ rest)
    (ha : Rules.standard.power rest.head.kind ≤ .unary) :
    Ensures (prefixed operand) p
      (fun e' q => e' = .prefixed operator e ⟨operator.span.start, e.span.stop⟩ ∧
        Reads (operator :: ts) [] p q) fun _ _ => False := by
  obtain ⟨rfl, hu'⟩ := of_upcoming_eq_cons hu
  simp only [prefixed, ensures_bind, ensures_currentToken, ensures_next, ensures_ite,
    ensures_reject, ensures_pure]
  refine (ho (p := p.advance) (by decide) hp hfits he hlen hu' ha).imp ?_ fun _ _ h => h
  intro x' q hresult
  obtain ⟨rfl, hreads⟩ := hresult
  refine ⟨fun hrejected => ?_, fun _ => ⟨rfl, (Reads.refl p).trans hreads⟩⟩
  rw [Bool.and_eq_true, Bool.not_eq_true'] at hrejected
  exact absurd (hstep hrejected.1) (by simp [hrejected.2])

theorem grouping_finds {opening closing : Token} {e : Expr} {ts : List Token}
    {rest : Stream' Token} (he : e.Spells ts) (hfits : e.Fits .lowest)
    (hc : closing.kind = .symbol .closeParen) (hlen : ts.length ≤ fuel)
    (hu : p.upcoming = opening :: (ts ++ [closing]) ++ₛ rest) :
    Ensures (grouping operand) p
      (fun e' q => e' = .grouping opening e ⟨opening.span.start, closing.span.stop⟩ ∧
        Reads (opening :: (ts ++ [closing])) [] p q) fun _ _ => False := by
  obtain ⟨rfl, hu'⟩ := of_upcoming_eq_cons hu
  rw [Stream'.append_append_stream] at hu'
  simp only [grouping, ensures_bind, ensures_currentToken, ensures_next, ensures_expect,
    ensures_pure]
  refine (ho (p := p.advance) (by decide) hp hfits he hlen hu'
    (lowest_le_of_kind_eq hc (by decide))).imp ?_ fun _ _ h => h
  intro x' q hresult
  obtain ⟨rfl, hreads⟩ := hresult
  have hlook := hreads.lookahead_eq hu'
  refine ⟨fun _ => ?_, fun hne => absurd (by rw [hlook]; exact hc) hne⟩
  have hall := (Reads.refl p).trans hreads.step
  rw [hlook] at hall ⊢
  exact ⟨rfl, hall⟩

omit ho in
/-- An expression that is read by a prefix rule, and the loop behind it. -/
theorem begin_primary {power : Power} {rule : PrefixRule} {e : Expr} {ts : List Token} {n : Nat}
    {ok : Expr → Parser → Prop} {err : Failure → Parser → Prop}
    (hrule : p.current.kind.prefixRule? = some rule)
    (hstart : Ensures (applyPrefix operand rule) p (fun e' q => e' = e ∧ Reads ts [] p q)
      fun _ _ => False)
    (hk : ∀ q, Reads ts [] p q → Ensures (climb operand power n e) q ok err) :
    Ensures (begin operand power n) p ok err := by
  rw [ensures_begin hp hrule]
  refine hstart.imp ?_ fun _ _ h => h.elim
  intro x' q hresult
  obtain ⟨rfl, hreads⟩ := hresult
  exact hk q hreads

/-- When the loop goes well from the last token of an expression on, then so does
the reading of all that starts with this expression. -/
theorem begin_finds {power : Power} {e : Expr} {ts : List Token} (h : e.Spells ts)
    (hw : e.WellFormed) (hb : e.Binds power) (hlen : ts.length ≤ fuel + 1)
    {rest : Stream' Token} (hu : p.upcoming = ts ++ₛ rest)
    (ha : e.Allows (Rules.standard.power rest.head.kind)) {n : Nat} {ok : Expr → Parser → Prop}
    {err : Failure → Parser → Prop}
    (hk : ∀ q, Reads ts [] p q → Ensures (climb operand power n e) q ok err) :
    Ensures (begin operand power (n + e.turns)) p ok err := by
  match h with
  | .identifier t =>
      obtain ⟨rfl, -⟩ := of_upcoming_eq_cons hu
      have hrule : _ = some PrefixRule.identifier := congrArg Kind.prefixRule? hw
      exact begin_primary hp hrule ⟨rfl, .refl p⟩ hk
  | .number t value =>
      obtain ⟨rfl, -⟩ := of_upcoming_eq_cons hu
      have hrule : _ = some PrefixRule.number := congrArg Kind.prefixRule? hw.1
      exact begin_primary hp hrule (number_finds hw.2) hk
  | .boolean t =>
      obtain ⟨rfl, -⟩ := of_upcoming_eq_cons hu
      have hrule : p.current.kind.prefixRule? = some .boolean := by
        rcases hw with hw | hw
        · rw [hw]; rfl
        · rw [hw]; rfl
      exact begin_primary hp hrule ⟨rfl, .refl p⟩ hk
  | .prefixed h =>
      rw [List.length_cons] at hlen
      have hrule := (of_upcoming_eq_cons hu).1 ▸ hw.1
      exact begin_primary hp hrule
        (prefixed_finds ho hp h hw.2.1 hw.2.2 (Nat.le_of_succ_le_succ hlen) hu ha) hk
  | .grouping h hc =>
      simp only [List.length_cons, List.length_append] at hlen
      have hrule : _ = some PrefixRule.grouping :=
        congrArg Kind.prefixRule? ((of_upcoming_eq_cons hu).1 ▸ hw.1)
      exact begin_primary hp hrule (grouping_finds ho hp h hw.2 hc (by omega) hu) hk
  | .postfixed hl =>
      obtain ⟨hrule, ⟨htarget, hleft⟩, hassignable⟩ := hw
      have hlt := Expr.lt_of_binds hb rfl hrule
      have hallows := htarget.allows hleft hrule
      rw [Stream'.append_append_stream] at hu
      rw [List.length_append] at hlen
      exact begin_turn hp hrule hlt hu
        (begin_finds hl hleft (htarget.binds hlt) (by omega) hu hallows)
        (fun _ hu => postfixed_finds hassignable hu) hk
  | .binary hl hr =>
      obtain ⟨hrule, ⟨hbinds, hleft⟩, hright⟩ := hw
      have hallows :=
        (Expr.bindsAt_iff_allows hleft (Kind.hasPower_of_infixRule? hrule)).mp hbinds
      have hlt := Expr.lt_of_binds hb rfl hrule
      rw [Stream'.append_append_stream] at hu
      simp only [List.length_append, List.length_cons] at hlen
      exact begin_turn hp hrule hlt hu
        (begin_finds hl hleft (hbinds.binds hlt) (by omega) hu hallows)
        (fun hq hu => binary_finds ho hq hrule hr hright (by omega) hu ha) hk
  | .assignment hl hr =>
      obtain ⟨hrule, ⟨hassignable, hleft⟩, hright⟩ := hw
      have hlt := Expr.lt_of_binds hb rfl hrule
      have hbinds := Expr.binds_of_isAssignable hassignable hleft hlt
      rw [Stream'.append_append_stream] at hu
      simp only [List.length_append, List.length_cons] at hlen
      exact begin_turn hp hrule hlt hu
        (begin_finds hl hleft hbinds (by omega) hu (Expr.allows_of_isAssignable hassignable _))
        (fun hq hu => assignment_finds ho hq hassignable hr hright (by omega) hu ha) hk
  | .call hl hargs hc =>
      obtain ⟨hopen, ⟨htarget, hleft⟩, hfit⟩ := hw
      have hrule : _ = some (Power.call, InfixRule.call) := congrArg Kind.infixRule? hopen
      have hlt := Expr.lt_of_binds hb rfl hrule
      have hallows := htarget.allows hleft hrule
      rw [Stream'.append_append_stream] at hu
      simp only [List.length_append, List.length_cons] at hlen
      exact begin_turn hp hrule hlt hu
        (begin_finds hl hleft (htarget.binds hlt) (by omega) hu hallows)
        (fun hq hu => call_finds ho hq hargs hfit hc (by omega) hu) hk
  | .index hl hr hc =>
      obtain ⟨hopen, ⟨htarget, hleft⟩, hright⟩ := hw
      have hrule : _ = some (Power.call, InfixRule.index) := congrArg Kind.infixRule? hopen
      have hlt := Expr.lt_of_binds hb rfl hrule
      have hallows := htarget.allows hleft hrule
      rw [Stream'.append_append_stream] at hu
      simp only [List.length_append, List.length_cons] at hlen
      exact begin_turn hp hrule hlt hu
        (begin_finds hl hleft (htarget.binds hlt) (by omega) hu hallows)
        (fun hq hu => indexed_finds ho hq hr hright hc (by omega) hu) hk
  | .member hl =>
      obtain ⟨hdot, ⟨htarget, hleft⟩, hname⟩ := hw
      have hrule : _ = some (Power.call, InfixRule.member) := congrArg Kind.infixRule? hdot
      have hlt := Expr.lt_of_binds hb rfl hrule
      have hallows := htarget.allows hleft hrule
      rw [Stream'.append_append_stream] at hu
      rw [List.length_append] at hlen
      exact begin_turn hp hrule hlt hu
        (begin_finds hl hleft (htarget.binds hlt) (by omega) hu hallows)
        (fun _ hu => member_finds hname hu) hk

end Operands

theorem expr_finds (fuel : Nat) : FindsOperands fuel (expr fuel) := by
  induction fuel with
  | zero =>
      intro power e ts rest p _ _ _ hspells hlen
      exact absurd (List.length_eq_zero_iff.mp (Nat.le_zero.mp hlen)) hspells.ne_nil
  | succ fuel ih =>
      intro power e ts rest p hpower hp hfits hspells hlen hu hle
      have hturns := hspells.turns_lt
      obtain ⟨n, hn⟩ : ∃ n, fuel + 1 = n + 1 + e.turns := ⟨fuel - e.turns, by omega⟩
      rw [expr_succ, ensures_during, hn]
      refine begin_finds (p := p.note _ _ _) ih hp hspells hfits.2 hfits.1 hlen hu
        (hfits.allows hpower hle) ?_
      intro q hreads
      have hlook : q.lookaheadPower ≤ power := by
        rw [lookaheadPower, hreads.lookahead_eq hu, hreads.rules.trans hp]
        exact hle
      rw [ensures_climb_stop (hreads.rules.trans hp) hlook]
      exact ⟨rfl, hreads.note⟩

/-- Every expression that respects precedence is read from its tokens, if the
token behind them is too loose to go on with. -/
theorem expression_finds {p : Parser} (hp : p.rules = .standard) {power : Power}
    (hpower : power ≠ .call) {e : Expr} {ts : List Token} {rest : Stream' Token}
    (hfits : e.Fits power) (hspells : e.Spells ts) (hu : p.upcoming = ts ++ₛ rest)
    (hle : Rules.standard.power rest.head.kind ≤ power) :
    Ensures (expression power) p (fun e' q => e' = e ∧ Reads ts [] p q) fun _ _ => False := by
  have hlen := length_le_budget hu fun t ht =>
    Kind.ne_eof_of_inExpression (hspells.inExpression hfits.2 t ht)
  rw [expression, ensures_withBudget]
  exact expr_finds p.budget hpower hp hfits hspells (by rw [budget]; omega) hu hle

/-! ## Exactness -/

/-- Reading an expression is exact. In front of the tokens `ts`, an expression of
the form of `e` is read from just these tokens if and only if `e` respects
precedence, `ts` are its tokens, and the token behind them is too loose to go on
with. Whatever is read is the tree over the tokens passed, and where nothing can
be read, this comes out as a rejection. -/
theorem expression_exact {p : Parser} (hp : p.rules = .standard) {power : Power}
    (hpower : power ≠ .call) :
    (∀ (e : Expr) (ts : List Token),
      (∃ e' q, expression power p = .ok e' q ∧ e'.bare = e.bare ∧ Reads ts [] p q) ↔
        e.Fits power ∧ List.Forall₂ Slot.Matches e.flatten ts ∧
          ∃ rest, p.upcoming = ts ++ₛ rest ∧ Rules.standard.power rest.head.kind ≤ power) ∧
    (∀ e q, expression power p = .ok e q → ∃ ts, e.Spells ts ∧ Reads ts [] p q) ∧
    ∀ f q, expression power p = .error f q → ∃ d, f = .rejected d := by
  have hsound : ∀ e q, expression power p = .ok e q → ExprRead power p e q :=
    fun e q h => (expression_reads hp power).of_ok h
  refine ⟨fun e ts => ⟨?_, ?_⟩, ?_, ?_⟩
  · rintro ⟨e', q, hrun, hbare, hreads⟩
    obtain ⟨us, hfits, hspells, hreads', hle⟩ := hsound e' q hrun
    obtain rfl : us = ts := hreads'.unique hreads
    refine ⟨?_, ?_, q.advance.upcoming, hreads.advance.upcoming, ?_⟩
    · exact (Expr.fits_congr hbare).mp hfits
    · rw [← Expr.flatten_bare, ← hbare, Expr.flatten_bare]
      exact hspells.fills
    · rw [lookaheadPower, hreads.rules, hp] at hle
      exact hle
  · rintro ⟨hfits, hmatches, rest, hu, hle⟩
    obtain ⟨e', hbare, hspells⟩ := Expr.exists_spells_of_matches e hmatches
    have hfits' := (Expr.fits_congr hbare).mpr hfits
    obtain ⟨_, q, hrun, rfl, hreads⟩ :=
      (expression_finds hp hpower hfits' hspells hu hle).exists_ok
    exact ⟨_, q, hrun, hbare, hreads⟩
  · intro e q hrun
    obtain ⟨ts, -, hspells, hreads, -⟩ := hsound e q hrun
    exact ⟨ts, hspells, hreads⟩
  · intro f q hrun
    obtain ⟨d, hd, -⟩ := (expression_reads hp power).of_error hrun
    exact ⟨d, hd⟩

end Parser

/-! In `a=-b.c;` the member is selected first, then negated, then assigned. -/

section Sample

/-- A token in the given place. -/
def Token.single (kind : Kind) (lexeme : String) (offset : Nat) : Token :=
  ⟨kind, lexeme, .mark offset (offset + 1) "a.x"⟩

def Expr.sample : Expr :=
  .assignment (.identifier (.single .identifier "a" 0)) (.single (.symbol .assignment) "=" 1)
    (.prefixed (.single (.symbol .dash) "-" 2)
      (.member (.single (.symbol .dot) "." 4) (.identifier (.single .identifier "b" 3))
        (.single .identifier "c" 5) (.mark 3 6 "a.x"))
      (.mark 2 6 "a.x"))
    (.mark 0 6 "a.x")

def Token.sample : List Token :=
  [.single .identifier "a" 0, .single (.symbol .assignment) "=" 1, .single (.symbol .dash) "-" 2,
    .single .identifier "b" 3, .single (.symbol .dot) "." 4, .single .identifier "c" 5]

def Parser.sample : Parser :=
  .ofStream
    (.replay ((Token.sample ++ [Token.single (.symbol .semicolon) ";" 6]).map (⟨·, []⟩)) "a.x")

theorem expression_exact_sample :
    ∃ e q, Parser.expression .lowest .sample = .ok e q ∧ e.bare = Expr.sample.bare ∧
      Reads Token.sample [] .sample q := by
  have hpower : Power.lowest ≠ .call := by decide
  refine ((Parser.expression_exact (p := .sample) rfl hpower).1 .sample Token.sample).mpr ?_
  refine ⟨⟨.inr (by decide), rfl, ⟨rfl, rfl⟩, .inl rfl, rfl, ⟨.inr (by decide), rfl, ?_, rfl⟩, ?_⟩,
    by decide, _, rfl, by decide⟩
  · exact ⟨.inl ⟨rfl, rfl⟩, rfl⟩
  · exact fun h => absurd h (by decide)

end Sample

end Frontend
