import Frontend.Grammar.Rules
import Frontend.Parser.Expr
import Frontend.Proofs.Relabel

/-!
# Expressions that respect precedence

Which trees are the reading of some text? `Expr.Fits power e` answers for the
rules of the language: the tokens of `e` have the kinds that their nodes need,
every operator has operands that it can get hold of without parentheses, every
place that is stored into can be stored into, every number is a literal, and `e`
itself can be read where only operators tighter than `power` are taken in.

`Expr.Allows` looks at the same condition from behind: which operators can stand
behind an expression and still have all of it as their left operand. An
expression that ends with an operand passes on what may follow that operand; all
others allow everything. For expressions that respect precedence this is the
condition on the left operand of the operator, `bindsAt_iff_allows` and
`isTarget_iff_allows`.
-/

namespace Frontend

namespace Expr

/-- Whether the expression starts with the token that made it: it is read by a
prefix rule. All others are read by infix rules. -/
def isPrimary : Expr → Bool
  | identifier _ | number .. | boolean _ | prefixed .. | grouping .. => true
  | _ => false

/-- Whether the expression is an operator in front of its operand. -/
def isPrefixed : Expr → Bool
  | prefixed .. => true
  | _ => false

/-- The power of the operator of an expression that is read by an infix rule. -/
def power (e : Expr) : Power := Rules.standard.power e.token.kind

/-- The expression binds tighter than `power`. -/
def Binds (power : Power) (e : Expr) : Prop := e.isPrimary ∨ power < e.power

/-- The expression binds at least as tightly as `power`. -/
def BindsAt (power : Power) (e : Expr) : Prop := e.isPrimary ∨ power ≤ e.power

/-- The expression can be called, indexed, selected from or stepped. -/
def IsTarget (e : Expr) : Prop :=
  (e.isPrimary ∧ e.isPrefixed = false) ∨ (e.isPrimary = false ∧ e.power = .call)

mutual

/-- The tokens have the kinds that their nodes need, and the operands those that
their operators can have. -/
def WellFormed : Expr → Prop
  | identifier token => token.kind = .identifier
  | number token value => token.kind = .number ∧ Literal.read? token.lexeme = some value
  | boolean token => token.kind = .keyword .true_ ∨ token.kind = .keyword .false_
  | prefixed operator operand _ =>
      operator.kind.prefixRule? = some .operator ∧
        (operand.Binds .unary ∧ operand.WellFormed) ∧ (operator.isStep → operand.isAssignable)
  | postfixed operand operator _ =>
      operator.kind.infixRule? = some (.call, .postfixed) ∧
        (operand.IsTarget ∧ operand.WellFormed) ∧ operand.isAssignable
  | binary left operator right _ =>
      operator.kind.infixRule? = some (Rules.standard.power operator.kind, .binary) ∧
        (left.BindsAt (Rules.standard.power operator.kind) ∧ left.WellFormed) ∧
        (right.Binds (Rules.standard.power operator.kind) ∧ right.WellFormed)
  | assignment target operator value _ =>
      operator.kind.infixRule? = some (.assignment, .assignment) ∧
        (target.isAssignable ∧ target.WellFormed) ∧ (value.Binds .lowest ∧ value.WellFormed)
  | grouping token inner _ =>
      token.kind = .symbol .openParen ∧ (inner.Binds .lowest ∧ inner.WellFormed)
  | call token callee arguments _ =>
      token.kind = .symbol .openParen ∧ (callee.IsTarget ∧ callee.WellFormed) ∧ AllFit arguments
  | index token target place _ =>
      token.kind = .symbol .openBracket ∧ (target.IsTarget ∧ target.WellFormed) ∧
        (place.Binds .lowest ∧ place.WellFormed)
  | member token target name _ =>
      token.kind = .symbol .dot ∧ (target.IsTarget ∧ target.WellFormed) ∧
        name.kind = .identifier

/-- Each of the expressions can be read on its own. -/
def AllFit : List Expr → Prop
  | [] => True
  | e :: es => (e.Binds .lowest ∧ e.WellFormed) ∧ AllFit es

end

/-- The expression can be read where operators tighter than `power` are taken
in. -/
def Fits (power : Power) (e : Expr) : Prop := e.Binds power ∧ e.WellFormed

/-- An operator of this power can stand behind the expression and have all of it
as its left operand. -/
def Allows (power : Power) : Expr → Prop
  | prefixed .. => power ≤ .unary
  | binary _ operator _ _ => power ≤ Rules.standard.power operator.kind
  | assignment .. => power ≤ .lowest
  | _ => True

end Expr

/-! ## The tables -/

theorem Kind.power_of_infixRule? {kind : Kind} {power : Power} {rule : InfixRule}
    (h : kind.infixRule? = some (power, rule)) : Rules.standard.power kind = power := by
  simp only [Rules.power, Rules.standard, h]

theorem Kind.power_of_infixRule?_none {kind : Kind} (h : kind.infixRule? = none) :
    Rules.standard.power kind = .lowest := by
  simp only [Rules.power, Rules.standard, h]

/-- The powers that operators with this rule can have: binary operators stand
between assignments and prefix operators, all others but assignments bind
tightest. -/
def InfixRule.hasPower (power : Power) : InfixRule → Bool
  | .binary => .assignment < power ∧ power < .unary
  | .assignment => power = .assignment
  | .postfixed | .call | .index | .member => power = .call

theorem Kind.hasPower_of_infixRule? {kind : Kind} {power : Power} {rule : InfixRule}
    (h : kind.infixRule? = some (power, rule)) : rule.hasPower power := by
  cases kind with
  | symbol s =>
      cases s <;> simp only [Kind.infixRule?, Symbol.infixRule?, Option.some.injEq,
        Prod.mk.injEq, reduceCtorEq] at h <;> obtain ⟨rfl, rfl⟩ := h <;> rfl
  | _ => simp [Kind.infixRule?] at h

theorem InfixRule.hasPower_binary {power : Power} :
    InfixRule.binary.hasPower power ↔ 1 < power.rank ∧ power.rank < 12 := by
  simp [hasPower, Power.lt_iff_rank_lt, Power.rank]

/-! ## Relabelled expressions -/

namespace Expr

theorem isPrimary_relabel (r : Relabelling) (e : Expr) :
    (e.relabel r).isPrimary = e.isPrimary := by
  cases e <;> rfl

theorem isPrefixed_relabel (r : Relabelling) (e : Expr) :
    (e.relabel r).isPrefixed = e.isPrefixed := by
  cases e <;> rfl

variable {r : Relabelling} (hr : r.Faithful)

include hr

theorem power_relabel (e : Expr) : (e.relabel r).power = e.power := by
  rw [power, power, token_relabel, hr.kind]

theorem binds_relabel (e : Expr) {power : Power} : (e.relabel r).Binds power ↔ e.Binds power := by
  rw [Binds, Binds, isPrimary_relabel, power_relabel hr]

theorem bindsAt_relabel (e : Expr) {power : Power} :
    (e.relabel r).BindsAt power ↔ e.BindsAt power := by
  rw [BindsAt, BindsAt, isPrimary_relabel, power_relabel hr]

theorem isTarget_relabel (e : Expr) : (e.relabel r).IsTarget ↔ e.IsTarget := by
  rw [IsTarget, IsTarget, isPrimary_relabel, isPrefixed_relabel, power_relabel hr]

theorem isStep_relabel (t : Token) : (r.token t).isStep = t.isStep := by
  rw [Token.isStep, Token.isStep, hr.kind]

theorem wellFormed_relabel (e : Expr) : (e.relabel r).WellFormed ↔ e.WellFormed := by
  induction e using Expr.induct with
  | identifier t => simp only [relabel, WellFormed, hr.kind]
  | number t value => simp only [relabel, WellFormed, hr.kind, hr.lexeme]
  | boolean t => simp only [relabel, WellFormed, hr.kind]
  | prefixed operator operand span ih =>
      simp only [relabel, WellFormed, hr.kind, binds_relabel hr, ih, isStep_relabel hr,
        isAssignable_relabel]
  | postfixed operand operator span ih =>
      simp only [relabel, WellFormed, hr.kind, isTarget_relabel hr, ih, isAssignable_relabel]
  | binary left operator right span ihl ihr =>
      simp only [relabel, WellFormed, hr.kind, bindsAt_relabel hr, binds_relabel hr, ihl, ihr]
  | assignment target operator value span iht ihv =>
      simp only [relabel, WellFormed, hr.kind, binds_relabel hr, isAssignable_relabel, iht, ihv]
  | grouping t inner span ih => simp only [relabel, WellFormed, hr.kind, binds_relabel hr, ih]
  | call t callee arguments span ihc iha =>
      have hall : AllFit (relabelAll r arguments) ↔ AllFit arguments := by
        induction arguments with
        | nil => rfl
        | cons e es ihes =>
            rw [List.forall_mem_cons] at iha
            simp only [relabelAll, AllFit, binds_relabel hr, iha.1, ihes iha.2]
      simp only [relabel, WellFormed, hr.kind, isTarget_relabel hr, ihc, hall]
  | index t target place span iht ihp =>
      simp only [relabel, WellFormed, hr.kind, isTarget_relabel hr, binds_relabel hr, iht, ihp]
  | member t target name span ih =>
      simp only [relabel, WellFormed, hr.kind, isTarget_relabel hr, ih]

theorem fits_relabel (e : Expr) {power : Power} : (e.relabel r).Fits power ↔ e.Fits power := by
  rw [Fits, Fits, binds_relabel hr, wellFormed_relabel hr]

omit hr in
/-- The spans of the nodes do not count. -/
theorem fits_congr {e e' : Expr} (h : e.bare = e'.bare) {power : Power} :
    e.Fits power ↔ e'.Fits power := by
  rw [← fits_relabel Relabelling.blank_faithful e, ← bare, h, bare,
    fits_relabel Relabelling.blank_faithful]

end Expr

/-! ## What can follow an expression -/

namespace Expr

/-- Whether the expression ends with a closing delimiter, a name or an operator
behind its operand, after it went on behind a target. -/
def isSuffixed : Expr → Bool
  | postfixed .. | call .. | index .. | member .. => true
  | _ => false

theorem power_of_isSuffixed {e : Expr} (he : e.WellFormed) (hs : e.isSuffixed) :
    e.power = .call := by
  cases e with
  | postfixed operand operator span => exact Kind.power_of_infixRule? he.1
  | call open_ callee arguments span => exact congrArg Rules.standard.power he.1
  | index open_ target place span => exact congrArg Rules.standard.power he.1
  | member dot target name span => exact congrArg Rules.standard.power he.1
  | _ => cases hs

theorem allows_of_isSuffixed {e : Expr} (hs : e.isSuffixed) (power : Power) :
    e.Allows power := by
  cases e <;> trivial

theorem not_isPrimary_of_isSuffixed {e : Expr} (hs : e.isSuffixed) : e.isPrimary = false := by
  cases e <;> first | rfl | cases hs

/-- What may stand to the left of a binary operator. -/
theorem bindsAt_iff_allows {e : Expr} {power : Power} (he : e.WellFormed)
    (hp : InfixRule.binary.hasPower power) : e.BindsAt power ↔ e.Allows power := by
  rw [InfixRule.hasPower_binary] at hp
  by_cases hs : e.isSuffixed
  · have h := power_of_isSuffixed he hs
    have hle : power ≤ e.power := by
      rw [h, Power.le_iff_rank_le, Power.rank]
      omega
    exact iff_of_true (.inr hle) (allows_of_isSuffixed hs power)
  · cases e with
    | identifier | number | boolean | grouping => exact iff_of_true (.inl rfl) trivial
    | prefixed operator operand span =>
        refine iff_of_true (.inl rfl) ?_
        rw [Allows, Power.le_iff_rank_le, Power.rank]
        omega
    | binary left operator right span => simp [BindsAt, isPrimary, Allows, Expr.power, token]
    | assignment target operator value span =>
        have h := Kind.power_of_infixRule? he.1
        refine iff_of_false ?_ (show ¬ power.rank ≤ 0 by omega)
        rintro (h' | h')
        · cases h'
        · rw [Expr.power, token, h] at h'
          exact absurd h' (show ¬ power.rank ≤ 1 by omega)
    | postfixed | call | index | member => exact absurd rfl hs

/-- What may be called, indexed, selected from or stepped. -/
theorem isTarget_iff_allows {e : Expr} (he : e.WellFormed) : e.IsTarget ↔ e.Allows .call := by
  by_cases hs : e.isSuffixed
  · exact iff_of_true (.inr ⟨not_isPrimary_of_isSuffixed hs, power_of_isSuffixed he hs⟩)
      (allows_of_isSuffixed hs _)
  · cases e with
    | identifier | number | boolean | grouping => exact iff_of_true (.inl ⟨rfl, rfl⟩) trivial
    | prefixed operator operand span =>
        refine iff_of_false ?_ (show ¬ Power.call ≤ Power.unary by decide)
        rintro (⟨-, h⟩ | ⟨h, -⟩) <;> cases h
    | binary left operator right span =>
        have h := InfixRule.hasPower_binary.mp (Kind.hasPower_of_infixRule? he.1)
        refine iff_of_false ?_ ?_
        · rintro (⟨h', -⟩ | ⟨-, h'⟩)
          · cases h'
          · rw [Expr.power, token] at h'
            rw [h', Power.rank] at h
            omega
        · rw [Allows, Power.le_iff_rank_le, Power.rank]
          omega
    | assignment target operator value span =>
        refine iff_of_false ?_ (show ¬ Power.call ≤ Power.lowest by decide)
        rintro (⟨h', -⟩ | ⟨-, h'⟩)
        · cases h'
        · rw [Expr.power, token, Kind.power_of_infixRule? he.1] at h'
          cases h'
    | postfixed | call | index | member => exact absurd rfl hs

end Expr

end Frontend
