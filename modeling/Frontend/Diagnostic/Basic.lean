import Frontend.Text.Quoted
import Frontend.Token.Basic

/-!
# Diagnostics

A diagnostic is a cause together with the position it is reported at. The first
two causes are lexical, they arise while a text is cut into tokens; the others
are syntactic. Each cause has a name, a message and, all but one, a tip: a
shorter wording for reports that show the source line as well.
-/

namespace Frontend

/-- What is wrong. -/
inductive Cause where
  /-- No token starts with this character. -/
  | unrecognisedToken (text : String)
  /-- A block comment runs to the end of the input. -/
  | unterminatedComment
  /-- A production needs a token of one kind and finds another. -/
  | unexpectedToken (expected received : Kind)
  /-- A production needs the name of a type. -/
  | expectedPrimitiveType (received : Kind)
  /-- No expression starts with a token of this kind. -/
  | noPrefixRule (kind : Kind)
  /-- The text of a number is no literal, or its value is too large. -/
  | malformedNumber (text : String)
  /-- The expression, given by its text, names no place to store a value in. -/
  | invalidTarget (target : String)
deriving DecidableEq

namespace Cause

/-- Whether the cause arises while a text is cut into tokens. -/
def isLexical : Cause → Bool
  | unrecognisedToken _ | unterminatedComment => true
  | _ => false

def name : Cause → String
  | unrecognisedToken _ => "UnrecognisedToken"
  | unterminatedComment => "UnterminatedComment"
  | unexpectedToken _ _ => "UnexpectedToken"
  | expectedPrimitiveType _ => "ExpectedPrimitiveType"
  | noPrefixRule _ => "NoPrefixParseRule"
  | malformedNumber _ => "NumberParseError"
  | invalidTarget _ => "InvalidAssignmentTarget"

/-- The kinds of all primitive types, as a message lists them. -/
def primitiveTypeList : String :=
  "[" ++ ", ".intercalate (PrimitiveType.all.map PrimitiveType.name) ++ "]"

def message : Cause → String
  | unrecognisedToken text => "unrecognised character: " ++ Text.quote text
  | unterminatedComment => "unterminated block comment"
  | unexpectedToken expected received =>
      "expected next token to be " ++ expected.name ++ ", got " ++ received.name ++ " instead"
  | expectedPrimitiveType received =>
      "expected next token to be one of " ++ primitiveTypeList ++ ", got " ++ received.name ++
        " instead"
  | noPrefixRule kind => "no prefix parse rule for " ++ kind.name ++ " found"
  | malformedNumber text => "error parsing number: " ++ Text.quote text
  | invalidTarget target => "invalid assignment target: " ++ target

/-- The wording for a report that shows the source line. An unrecognised
character has none: the message says it all. -/
def tip? : Cause → Option String
  | unrecognisedToken _ => none
  | unterminatedComment => some "block comment is missing its closing `*/`"
  | unexpectedToken expected received =>
      some ("expected `" ++ expected.name ++ "`, found `" ++ received.name ++ "`")
  | expectedPrimitiveType received =>
      some ("expected a primitive type, found `" ++ received.name ++ "`")
  | noPrefixRule kind => some ("`" ++ kind.name ++ "` cannot start an expression")
  | malformedNumber text =>
      some ("Invalid number: `" ++ text ++ "`, is it malformed or above the integer limit?")
  | invalidTarget target => some ("`" ++ target ++ "` cannot be assigned to")

end Cause

/-- A cause, reported at a position. -/
structure Diagnostic where
  cause : Cause
  position : Position
deriving DecidableEq

end Frontend
