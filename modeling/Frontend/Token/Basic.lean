import Frontend.Source.Position
import Frontend.Token.Kind

/-!
# Tokens

A token has a kind, a lexeme and a span. The lexeme is the text under the span,
with two fixed exceptions: the end of the input and an illegal character carry a
word of their own.
-/

namespace Frontend

structure Token where
  kind : Kind
  lexeme : String
  span : Span
deriving DecidableEq

namespace Token

/-- The lexeme of the token at the end of the input. -/
def endLexeme : String := "EOF"

/-- The lexeme of a token made from an unrecognised character. -/
def illegalLexeme : String := "ILLEGAL"

/-- The token that closes a source of `offset` bytes. -/
def atEnd (offset : Nat) (file : String) : Token :=
  ⟨.eof, endLexeme, Span.mark offset offset file⟩

/-- The kind of the token, with its lexeme where the kind does not determine it. -/
def describe (token : Token) : String :=
  match token.kind with
  | .identifier | .number | .comment => token.kind.name ++ " (" ++ token.lexeme ++ ")"
  | _ => token.kind.name

end Token

end Frontend
