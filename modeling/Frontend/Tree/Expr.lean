import Frontend.Literal
import Frontend.Token.Basic

/-!
# Expressions

A node keeps the tokens that tell it apart: its name, literal or operator, or
the delimiter that opens it. A leaf has the span of its token; every other node
stores its span.
-/

namespace Frontend

inductive Expr where
  | identifier (token : Token)
  | number (token : Token) (value : Literal)
  | boolean (token : Token)
  /-- An operator in front of its operand. -/
  | prefixed (operator : Token) (operand : Expr) (span : Span)
  /-- An operator behind its operand. -/
  | postfixed (operand : Expr) (operator : Token) (span : Span)
  | binary (left : Expr) (operator : Token) (right : Expr) (span : Span)
  | assignment (target : Expr) (operator : Token) (value : Expr) (span : Span)
  /-- An expression in parentheses. -/
  | grouping (token : Token) (inner : Expr) (span : Span)
  | call (token : Token) (callee : Expr) (arguments : List Expr) (span : Span)
  | index (token : Token) (target : Expr) (place : Expr) (span : Span)
  | member (token : Token) (target : Expr) (name : Token) (span : Span)

/-- The truth value that a token stands for. -/
def Token.truth (token : Token) : Bool := token.kind = .keyword .true_

namespace Expr

/-- The token that made the node: the name or literal of a leaf, else the
operator or the opening delimiter. -/
def token : Expr → Token
  | identifier token => token
  | number token _ => token
  | boolean token => token
  | prefixed operator _ _ => operator
  | postfixed _ operator _ => operator
  | binary _ operator _ _ => operator
  | assignment _ operator _ _ => operator
  | grouping token _ _ => token
  | call token _ _ _ => token
  | index token _ _ _ => token
  | member token _ _ _ => token

/-- The stretch of the source that the node was read from. -/
def span : Expr → Span
  | identifier token => token.span
  | number token _ => token.span
  | boolean token => token.span
  | prefixed _ _ span => span
  | postfixed _ _ span => span
  | binary _ _ _ span => span
  | assignment _ _ _ span => span
  | grouping _ _ span => span
  | call _ _ _ span => span
  | index _ _ _ span => span
  | member _ _ _ span => span

/-- Whether the expression names a place to store a value in. -/
def isAssignable : Expr → Bool
  | identifier _ | index .. | member .. => true
  | _ => false

/-- The name of the node's form. -/
def label : Expr → String
  | identifier _ => "Identifier"
  | number .. => "Number"
  | boolean _ => "Boolean"
  | prefixed .. => "Prefix"
  | postfixed .. => "Postfix"
  | binary .. => "Binary"
  | assignment .. => "Assignment"
  | grouping .. => "Grouping"
  | call .. => "Call"
  | index .. => "Index"
  | member .. => "Member"

mutual

/-- The expression as source text. Every operation stands in parentheses of its
own, so those of the source are not repeated. -/
def render : Expr → String
  | identifier token => token.lexeme
  | number token _ => token.lexeme
  | boolean token => if token.truth then "true" else "false"
  | prefixed operator operand _ => "(" ++ operator.lexeme ++ operand.render ++ ")"
  | postfixed operand operator _ => "(" ++ operand.render ++ operator.lexeme ++ ")"
  | binary left operator right _ =>
      "(" ++ left.render ++ " " ++ operator.lexeme ++ " " ++ right.render ++ ")"
  | assignment target operator value _ =>
      "(" ++ target.render ++ " " ++ operator.lexeme ++ " " ++ value.render ++ ")"
  | grouping _ inner _ => inner.render
  | call _ callee arguments _ =>
      callee.render ++ "(" ++ ", ".intercalate (renderAll arguments) ++ ")"
  | index _ target place _ => "(" ++ target.render ++ "[" ++ place.render ++ "])"
  | member _ target name _ => "(" ++ target.render ++ "." ++ name.lexeme ++ ")"

/-- The texts of several expressions. -/
def renderAll : List Expr → List String
  | [] => []
  | e :: es => e.render :: renderAll es

end

end Expr

end Frontend
