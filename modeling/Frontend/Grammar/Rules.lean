import Frontend.Grammar.Power
import Frontend.Token.Kind

/-!
# Rules

What a token starts or continues is decided by three tables over the kinds of
tokens. A prefix rule reads an expression that starts with the token, an infix
rule goes on with an expression that the token follows, and a statement rule
reads a statement that starts with the token. An infix rule comes with the power
of its operator.

`Rules.standard` holds the tables of the language. Any entry can be replaced.
-/

namespace Frontend

/-- How to read an expression from its first token. -/
inductive PrefixRule where
  | identifier
  | number
  | boolean
  /-- An operator in front of its operand. -/
  | operator
  /-- An expression in parentheses. -/
  | grouping
deriving DecidableEq

/-- How to go on behind an expression. -/
inductive InfixRule where
  /-- An operator between two operands, grouped to the left. -/
  | binary
  /-- An assignment, grouped to the right. -/
  | assignment
  /-- An operator behind its operand. -/
  | postfixed
  | call
  | index
  | member
deriving DecidableEq

/-- How to read a statement from its first token. -/
inductive StmtRule where
  | declaration
  | return_
  | block
  | function
  | conditional
  | while_
  | loop
deriving DecidableEq

/-- The rules for each kind of token. -/
structure Rules where
  prefixRule? : Kind → Option PrefixRule
  infixRule? : Kind → Option (Power × InfixRule)
  stmtRule? : Kind → Option StmtRule

/-- The operators of the language, with their powers. -/
def Symbol.infixRule? : Symbol → Option (Power × InfixRule)
  | assignment | plusEquals | minusEquals | starEquals | slashEquals
  | pipeEquals | ampersandEquals | caretEquals => some (.assignment, .assignment)
  | or => some (.logicalOr, .binary)
  | and => some (.logicalAnd, .binary)
  | pipe => some (.bitwiseOr, .binary)
  | caret => some (.bitwiseXor, .binary)
  | ampersand => some (.bitwiseAnd, .binary)
  | equals | notEquals => some (.equality, .binary)
  | less | lessEquals | greater | greaterEquals => some (.relational, .binary)
  | shiftLeft | shiftRight => some (.shift, .binary)
  | plus | dash => some (.additive, .binary)
  | star | slash | percent => some (.multiplicative, .binary)
  | openParen => some (.call, .call)
  | openBracket => some (.call, .index)
  | dot => some (.call, .member)
  | plusPlus | minusMinus => some (.call, .postfixed)
  | not | tilde | closeParen | openCurly | closeCurly | closeBracket
  | comma | colon | semicolon => none

/-- The first tokens of expressions in the language. -/
def Kind.prefixRule? : Kind → Option PrefixRule
  | identifier => some .identifier
  | number => some .number
  | keyword .true_ | keyword .false_ => some .boolean
  | symbol .openParen => some .grouping
  | symbol .dash | symbol .not | symbol .tilde
  | symbol .plusPlus | symbol .minusMinus => some .operator
  | _ => none

/-- What goes on behind an expression in the language. -/
def Kind.infixRule? : Kind → Option (Power × InfixRule)
  | symbol s => s.infixRule?
  | _ => none

/-- The first tokens of statements in the language, those of expressions apart. -/
def Kind.stmtRule? : Kind → Option StmtRule
  | keyword .var | keyword .const => some .declaration
  | keyword .return_ => some .return_
  | symbol .openCurly => some .block
  | keyword .fn => some .function
  | keyword .if_ => some .conditional
  | keyword .while_ => some .while_
  | keyword .loop => some .loop
  | _ => none

namespace Rules

/-- The rules of the language. -/
def standard : Rules where
  prefixRule? := Kind.prefixRule?
  infixRule? := Kind.infixRule?
  stmtRule? := Kind.stmtRule?

/-- Replaces the prefix rule of a kind. -/
def setPrefix (rules : Rules) (kind : Kind) (rule : PrefixRule) : Rules :=
  { rules with prefixRule? := fun k => if k = kind then some rule else rules.prefixRule? k }

/-- Replaces the infix rule of a kind, and the power of its operator. -/
def setInfix (rules : Rules) (kind : Kind) (power : Power) (rule : InfixRule) : Rules :=
  { rules with infixRule? := fun k => if k = kind then some (power, rule) else rules.infixRule? k }

/-- Replaces the statement rule of a kind. -/
def setStmt (rules : Rules) (kind : Kind) (rule : StmtRule) : Rules :=
  { rules with stmtRule? := fun k => if k = kind then some rule else rules.stmtRule? k }

/-- The power of a kind as an operator behind an expression. -/
def power (rules : Rules) (kind : Kind) : Power :=
  match rules.infixRule? kind with
  | some (power, _) => power
  | none => .lowest

/-- Whether a statement starts with a token of this kind, one that is no
expression. -/
def headsStmt (rules : Rules) (kind : Kind) : Bool := (rules.stmtRule? kind).isSome

end Rules

end Frontend
