import Frontend.Parser.Program

/-!
# Operating a parser

A parser can be driven from outside, one operation at a time: the window is moved, a
diagnostic is recorded, a rule is replaced, or a production is run from where the window
stands, be it the first one or the next of many. `Operation.run` gives the state of the
parser behind an operation; a production that is rejected leaves one behind as well.
Looking at a parser is no operation, since it leaves the parser as it is.
-/

namespace Frontend

variable {α : Type}

/-- The state that a production leaves the parser in, with or without a result. -/
def Parser.behind (x : ParseM α) (p : Parser) : Parser :=
  match x p with
  | .ok _ q => q
  | .error _ q => q

/-- What can be done to a parser from outside. -/
inductive Operation where
  /-- Moves the window by one token. -/
  | next
  | expect (kind : Kind)
  | primitiveType
  | advancePastStatement
  /-- Recovers from the failure of a statement that starts at this position. -/
  | recover (start : Position)
  | record (d : Diagnostic)
  | setPrefix (kind : Kind) (rule : PrefixRule)
  | setInfix (kind : Kind) (power : Power) (rule : InfixRule)
  | setStmt (kind : Kind) (rule : StmtRule)
  | expression (power : Power)
  /-- Reads an expression by this rule, whatever the current token is. -/
  | byPrefix (rule : PrefixRule)
  /-- Goes on with this expression by this rule, whatever the current token is. -/
  | byInfix (left : Expr) (power : Power) (rule : InfixRule)
  | statement
  /-- Reads a statement by this rule, whatever the current token is. -/
  | byStmt (rule : StmtRule)
  | statementOrRecover
  | block
  | program

namespace Operation

/-- The state of the parser behind the operation. -/
def run : Operation → Parser → Parser
  | next, p => p.advance
  | expect kind, p => p.behind (Parser.expect kind)
  | primitiveType, p => p.behind Parser.primitiveType
  | advancePastStatement, p => p.advancePastStatement
  | recover start, p => p.recover start
  | record d, p => p.record d
  | setPrefix kind rule, p => { p with rules := p.rules.setPrefix kind rule }
  | setInfix kind power rule, p => { p with rules := p.rules.setInfix kind power rule }
  | setStmt kind rule, p => { p with rules := p.rules.setStmt kind rule }
  | expression power, p => p.behind (Parser.expression power)
  | byPrefix rule, p => p.behind (Parser.parsePrefix rule)
  | byInfix left power rule, p => p.behind (Parser.parseInfix left power rule)
  | statement, p => p.behind Parser.parseStmt
  | byStmt rule, p => p.behind (Parser.parseStmtBy rule)
  | statementOrRecover, p => p.behind Parser.parseStmtOrRecover
  | block, p => p.behind Parser.parseBlock
  | program, p => p.behind Parser.parseProgram

end Operation

/-- The state of the parser behind a list of operations. -/
def Parser.operate (p : Parser) (ops : List Operation) : Parser :=
  ops.foldl (fun p op => op.run p) p

end Frontend
