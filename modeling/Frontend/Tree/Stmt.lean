import Frontend.Tree.Expr

/-!
# Statements and programs

A block is a list of statements between braces. A conditional is an `if` or an
`elif` with its condition and block; what happens otherwise is nothing, a block,
or the next conditional of the chain, which an `elif` starts.
-/

namespace Frontend

/-- A parameter of a function. -/
structure Parameter where
  name : Token
  type : PrimitiveType
deriving DecidableEq

mutual

inductive Stmt where
  | expression (token : Token) (value : Expr) (span : Span)
  | block (block : Block)
  /-- A variable or a constant, told apart by the token. -/
  | declaration (token : Token) (name : Token) (type : PrimitiveType) (value : Expr) (span : Span)
  | return_ (token : Token) (value? : Option Expr) (span : Span)
  | function (token : Token) (name : Token) (parameters : List Parameter)
      (result? : Option PrimitiveType) (body : Block) (span : Span)
  | conditional (branch : Conditional)
  | while_ (token : Token) (condition : Expr) (body : Block) (span : Span)
  | loop (token : Token) (body : Block) (span : Span)

inductive Block where
  | mk (token : Token) (body : List Stmt) (span : Span)

inductive Conditional where
  | mk (token : Token) (condition : Expr) (body : Block) (otherwise : Otherwise) (span : Span)

inductive Otherwise where
  | nothing
  | block (block : Block)
  | elif (branch : Conditional)

end

/-- The statements of a source, those that could be read. -/
structure Program where
  statements : List Stmt

namespace Block

/-- The opening brace. -/
def token : Block → Token
  | mk token _ _ => token

def body : Block → List Stmt
  | mk _ body _ => body

def span : Block → Span
  | mk _ _ span => span

end Block

namespace Conditional

/-- The keyword. -/
def token : Conditional → Token
  | mk token _ _ _ _ => token

def condition : Conditional → Expr
  | mk _ condition _ _ _ => condition

def body : Conditional → Block
  | mk _ _ body _ _ => body

def otherwise : Conditional → Otherwise
  | mk _ _ _ otherwise _ => otherwise

def span : Conditional → Span
  | mk _ _ _ _ span => span

end Conditional

namespace Stmt

/-- The first token of the statement. -/
def token : Stmt → Token
  | expression token _ _ => token
  | block inner => inner.token
  | declaration token _ _ _ _ => token
  | return_ token _ _ => token
  | function token _ _ _ _ _ => token
  | conditional branch => branch.token
  | while_ token _ _ _ => token
  | loop token _ _ => token

/-- The stretch of the source that the statement was read from. -/
def span : Stmt → Span
  | expression _ _ span => span
  | block inner => inner.span
  | declaration _ _ _ _ span => span
  | return_ _ _ span => span
  | function _ _ _ _ _ span => span
  | conditional branch => branch.span
  | while_ _ _ _ span => span
  | loop _ _ span => span

/-- The name of the statement's form. -/
def label : Stmt → String
  | expression .. => "ExpressionStmt"
  | block _ => "BlockStmt"
  | declaration .. => "VarDeclStmt"
  | return_ .. => "ReturnStmt"
  | function .. => "FnDeclStmt"
  | conditional _ => "IfStmt"
  | while_ .. => "WhileStmt"
  | loop .. => "LoopStmt"

end Stmt

/-- Whether a declaration that starts with this token declares a constant. -/
def Token.declaresConstant (token : Token) : Bool := token.kind = .keyword .const

/-! ## Text -/

/-- The parameter as source text. -/
def Parameter.render (parameter : Parameter) : String :=
  parameter.name.lexeme ++ ": " ++ parameter.type.spelling

mutual

/-- The statement as source text, on one line. -/
def Stmt.render : Stmt → String
  | .expression _ value _ => value.render ++ ";"
  | .block block => block.render
  | .declaration token name type value _ =>
      token.lexeme ++ " " ++ name.lexeme ++ ": " ++ type.spelling ++ " = " ++ value.render ++ ";"
  | .return_ _ (some value) _ => "return " ++ value.render ++ ";"
  | .return_ _ none _ => "return;"
  | .function _ name parameters result? body _ =>
      "fn " ++ name.lexeme ++ "(" ++ ", ".intercalate (parameters.map Parameter.render) ++ ")" ++
        (match result? with
          | some type => " " ++ type.spelling
          | none => "") ++
        " " ++ body.render
  | .conditional branch => branch.render
  | .while_ _ condition body _ => "while " ++ condition.render ++ " " ++ body.render
  | .loop _ body _ => "loop " ++ body.render

def Block.render : Block → String
  | .mk _ body _ => "\x7b " ++ Stmt.renderAll body ++ "\x7d"

def Conditional.render : Conditional → String
  | .mk token condition body otherwise _ =>
      token.lexeme ++ " " ++ condition.render ++ " " ++ body.render ++ otherwise.render

/-- What follows the block of a conditional. -/
def Otherwise.render : Otherwise → String
  | .nothing => ""
  | .block block => " else " ++ block.render
  | .elif branch => " " ++ branch.render

/-- The statements of a block, each with a space behind it. -/
def Stmt.renderAll : List Stmt → String
  | [] => ""
  | s :: ss => s.render ++ " " ++ Stmt.renderAll ss

end

/-- The program as source text, one statement to a line. -/
def Program.render (program : Program) : String :=
  "\n".intercalate (program.statements.map Stmt.render)

end Frontend
