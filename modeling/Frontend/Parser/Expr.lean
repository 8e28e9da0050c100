import Frontend.Parser.Basic
import Frontend.Tree.Expr

/-!
# Reading expressions

`Parser.expr` reads an expression by operator precedence: a prefix rule reads
its beginning, then `Parser.climb` goes on with one infix rule after the other
while the operator in front of it binds tighter than the power the expression is
read at. Each production starts on the first token of what it reads and ends on
the last one.
-/

namespace Frontend

/-- A way to read an operand at some power. -/
abbrev Operand := Power → ParseM Expr

/-- Whether an operator stores into its operand. -/
def Token.isStep (token : Token) : Bool :=
  token.kind = .symbol .plusPlus || token.kind = .symbol .minusMinus

namespace Parser

/-- Reads a number literal. -/
def number : ParseM Expr := do
  let token ← currentToken
  match Literal.read? token.lexeme with
  | some value => return .number token value
  | none => reject (.malformedNumber token.lexeme) token.span.start

/-- Reads an operator and its operand. -/
def prefixed (operand : Operand) : ParseM Expr := do
  let operator ← currentToken
  next
  let right ← operand .unary
  if operator.isStep && !right.isAssignable then
    reject (.invalidTarget right.render) operator.span.start
  else
    return .prefixed operator right ⟨operator.span.start, right.span.stop⟩

/-- Reads an expression in parentheses. -/
def grouping (operand : Operand) : ParseM Expr := do
  let token ← currentToken
  next
  let inner ← operand .lowest
  let close ← expect (.symbol .closeParen)
  return .grouping token inner ⟨token.span.start, close.span.stop⟩

/-- Goes on with a binary operator, whose right operand binds tighter than the
operator. -/
def binary (operand : Operand) (left : Expr) (power : Power) : ParseM Expr := do
  let operator ← currentToken
  next
  let right ← operand power
  return .binary left operator right ⟨left.span.start, right.span.stop⟩

/-- Goes on with an assignment, whose value may be an assignment again. -/
def assignment (operand : Operand) (left : Expr) : ParseM Expr := do
  let operator ← currentToken
  if left.isAssignable then
    next
    let value ← operand .lowest
    return .assignment left operator value ⟨left.span.start, value.span.stop⟩
  else
    reject (.invalidTarget left.render) operator.span.start

/-- Goes on with an operator that stands behind its operand. -/
def postfixed (left : Expr) : ParseM Expr := do
  let operator ← currentToken
  if left.isAssignable then
    return .postfixed left operator ⟨left.span.start, operator.span.stop⟩
  else
    reject (.invalidTarget left.render) operator.span.start

/-- Reads the arguments behind the first one, each with the comma in front of
it. -/
def moreArguments (operand : Operand) : Nat → ParseM (List Expr)
  | 0 => exhaust
  | fuel + 1 => do
      if ← ahead (.symbol .comma) then
        next
        next
        let argument ← operand .lowest
        let arguments ← moreArguments operand fuel
        return argument :: arguments
      else
        return []

/-- Reads the arguments of a call up to the closing parenthesis. -/
def arguments (operand : Operand) : ParseM (List Expr) := do
  if ← ahead (.symbol .closeParen) then
    next
    return []
  else
    next
    let first ← operand .lowest
    let rest ← withBudget (moreArguments operand)
    let _ ← expect (.symbol .closeParen)
    return first :: rest

/-- Goes on with the arguments of a call. -/
def call (operand : Operand) (left : Expr) : ParseM Expr := do
  let token ← currentToken
  let arguments ← arguments operand
  let close ← currentToken
  return .call token left arguments ⟨left.span.start, close.span.stop⟩

/-- Goes on with an index in brackets. -/
def indexed (operand : Operand) (left : Expr) : ParseM Expr := do
  let token ← currentToken
  next
  let place ← operand .lowest
  let close ← expect (.symbol .closeBracket)
  return .index token left place ⟨left.span.start, close.span.stop⟩

/-- Goes on with the name of a member. -/
def member (left : Expr) : ParseM Expr := do
  let token ← currentToken
  let name ← expect .identifier
  return .member token left name ⟨left.span.start, name.span.stop⟩

/-- Reads an expression by a prefix rule, from the current token on. -/
def applyPrefix (operand : Operand) : PrefixRule → ParseM Expr
  | .identifier => do return .identifier (← currentToken)
  | .number => number
  | .boolean => do return .boolean (← currentToken)
  | .operator => prefixed operand
  | .grouping => grouping operand

/-- Goes on with an expression by an infix rule; the current token is the
operator, of the given power. -/
def applyInfix (operand : Operand) (left : Expr) (power : Power) : InfixRule → ParseM Expr
  | .binary => binary operand left power
  | .assignment => assignment operand left
  | .postfixed => postfixed left
  | .call => call operand left
  | .index => indexed operand left
  | .member => member left

/-- Goes on with an expression while the operator behind it binds tighter than
`power`. -/
def climb (operand : Operand) (power : Power) : Nat → Expr → ParseM Expr
  | 0, _ => exhaust
  | fuel + 1, left => do
      let p ← get
      match p.rules.infixRule? p.lookahead.kind with
      | none => return left
      | some (operatorPower, rule) =>
          if power < operatorPower then
            next
            let left ← applyInfix operand left operatorPower rule
            climb operand power fuel left
          else
            return left

/-- Reads an expression whose operators bind tighter than `power`. -/
def expr : Nat → Operand
  | 0, _ => exhaust
  | fuel + 1, power => during .expression do
      let p ← get
      match p.rules.prefixRule? p.current.kind with
      | none => reject (.noPrefixRule p.current.kind) p.current.span.start
      | some rule =>
          let left ← applyPrefix (expr fuel) rule
          climb (expr fuel) power (fuel + 1) left

/-- Reads an expression whose operators bind tighter than `power`. -/
def expression (power : Power) : ParseM Expr := withBudget fun fuel => expr fuel power

end Parser

end Frontend
