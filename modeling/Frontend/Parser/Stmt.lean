import Frontend.Parser.Expr
import Frontend.Tree.Stmt

/-!
# Reading statements

The productions of statements start on the first token of the statement and end
on its last one. A block reads its statements one by one; one that fails is
recorded and left out, and the block goes on behind it.
-/

namespace Frontend.Parser

/-- Reads a declaration of a variable or a constant. -/
def declaration : ParseM Stmt := do
  let token ← currentToken
  let name ← expect .identifier
  let _ ← expect (.symbol .colon)
  let type ← primitiveType
  let _ ← expect (.symbol .assignment)
  next
  let value ← expression .lowest
  let _ ← expect (.symbol .semicolon)
  return .declaration token name type value (← spanFrom token)

/-- Reads a return statement, with or without a value. -/
def returnStmt : ParseM Stmt := do
  let token ← currentToken
  if ← ahead (.symbol .semicolon) then
    let _ ← expect (.symbol .semicolon)
    return .return_ token none (← spanFrom token)
  else
    next
    let value ← expression .lowest
    let _ ← expect (.symbol .semicolon)
    return .return_ token (some value) (← spanFrom token)

/-- Reads an expression as a statement. A semicolon behind it belongs to the
statement. -/
def expressionStmt : ParseM Stmt := do
  let token ← currentToken
  let value ← expression .lowest
  if ← ahead (.symbol .semicolon) then next
  return .expression token value (← spanFrom token)

/-- Reads the parameters of a function up to the closing parenthesis; there is
at least one. -/
def parameters : Nat → ParseM (List Parameter)
  | 0 => exhaust
  | fuel + 1 => do
      let name ← expect .identifier
      let _ ← expect (.symbol .colon)
      let type ← primitiveType
      if ← ahead (.symbol .comma) then
        next
        let rest ← parameters fuel
        return ⟨name, type⟩ :: rest
      else
        let _ ← expect (.symbol .closeParen)
        return [⟨name, type⟩]

/-- Reads the list of parameters of a function behind its opening parenthesis. -/
def parameterList : ParseM (List Parameter) := do
  if ← ahead (.symbol .closeParen) then
    next
    return []
  else
    withBudget parameters

/-- Reads the type of a function's result, if there is one. -/
def resultType? : ParseM (Option PrimitiveType) := do
  match (← get).lookahead.kind.primitiveType? with
  | some type =>
      next
      return some type
  | none => return none

/-- Reads an expression behind the current token. -/
def condition : ParseM Expr := do
  next
  expression .lowest

section Nested

variable (block : ParseM Block)

/-- Reads a block behind the current token. -/
def body : ParseM Block := do
  let _ ← expect (.symbol .openCurly)
  block

/-- Reads a function. -/
def function : ParseM Stmt := do
  let token ← currentToken
  let name ← expect .identifier
  let _ ← expect (.symbol .openParen)
  let parameters ← parameterList
  let result? ← resultType?
  let body ← body block
  return .function token name parameters result? body (← spanFrom token)

/-- Reads a conditional and the chain behind it. -/
def conditional : Nat → ParseM Conditional
  | 0 => exhaust
  | fuel + 1 => during .conditional do
      let token ← currentToken
      let condition ← condition
      let body ← body block
      if ← ahead (.keyword .elif) then
        next
        let branch ← conditional fuel
        return .mk token condition body (.elif branch) (← spanFrom token)
      else if ← ahead (.keyword .else_) then
        next
        let otherwise ← Parser.body block
        return .mk token condition body (.block otherwise) (← spanFrom token)
      else
        return .mk token condition body .nothing (← spanFrom token)

/-- Reads a loop with a condition. -/
def whileStmt : ParseM Stmt := do
  let token ← currentToken
  let condition ← condition
  let body ← body block
  return .while_ token condition body (← spanFrom token)

/-- Reads a loop without a condition. -/
def loopStmt : ParseM Stmt := do
  let token ← currentToken
  let body ← body block
  return .loop token body (← spanFrom token)

/-- Reads a statement by a statement rule, from the current token on. -/
def applyStmt : StmtRule → ParseM Stmt
  | .declaration => declaration
  | .return_ => returnStmt
  | .block => do return .block (← block)
  | .function => function block
  | .conditional => do return .conditional (← withBudget (conditional block))
  | .while_ => whileStmt block
  | .loop => loopStmt block

/-- Reads a statement. -/
def stmt : ParseM Stmt := during .statement do
  let p ← get
  match p.rules.stmtRule? p.current.kind with
  | some rule => applyStmt block rule
  | none => expressionStmt

/-- Reads a statement. One that fails is recorded, and the window moves on to
where the next statement can be read. -/
def stmtOrRecover : ParseM (Option Stmt) := fun p =>
  match stmt block p with
  | .ok s q => .ok (some s) q
  | .error (.rejected d) q => .ok none ((q.record d).recover p.current.span.start)
  | .error .outOfFuel q => .error .outOfFuel q

/-- Reads the statements of a block, up to its closing brace or the end of the
input. Recovery may have stopped on the closing brace itself, which must not be
passed over then. -/
def blockBody : Nat → ParseM (List Stmt)
  | 0 => exhaust
  | fuel + 1 => do
      let p ← get
      if p.current.kind = .symbol .closeCurly ∨ p.current.kind = .eof then
        return []
      else
        match ← stmtOrRecover block with
        | some s =>
            modify advancePastStatement
            let rest ← blockBody fuel
            return s :: rest
        | none =>
            modify fun q =>
              if q.current.kind = .symbol .closeCurly then q else q.advancePastStatement
            blockBody fuel

end Nested

/-- Reads a block: the current token is its opening brace. -/
def block : Nat → ParseM Block
  | 0 => exhaust
  | fuel + 1 => during .block do
      let token ← currentToken
      next
      let body ← withBudget (blockBody (block fuel))
      let p ← get
      if p.current.kind = .symbol .closeCurly then
        return .mk token body ⟨token.span.start, p.current.span.stop⟩
      else
        reject (.unexpectedToken (.symbol .closeCurly) p.current.kind) p.current.span.start

end Frontend.Parser
