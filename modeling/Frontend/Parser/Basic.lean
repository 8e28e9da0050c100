import Frontend.Parser.State

/-!
# Reading from a parser

`ParseM` is the monad of the productions: a production reads the window and
moves it, and either gives a result or is rejected with a diagnostic, which is
not recorded yet. Loops and nested productions run on fuel; running out of it is
a failure of its own, told apart from a rejection.
-/

namespace Frontend

/-- Why a production gives no result. -/
inductive Failure where
  | rejected (diagnostic : Diagnostic)
  | outOfFuel
deriving DecidableEq

abbrev ParseM := EStateM Failure Parser

namespace Parser

variable {α : Type}

/-- Fails with a diagnostic at a position. -/
def reject (cause : Cause) (position : Position) : ParseM α :=
  throw (.rejected ⟨cause, position⟩)

/-- Fails because a loop has run for too long. -/
def exhaust : ParseM α := throw .outOfFuel

/-- Moves the window by one token. -/
def next : ParseM Unit := modify advance

/-- The current token. -/
def currentToken : ParseM Token := do return (← get).current

/-- Whether the lookahead has the given kind. -/
def ahead (kind : Kind) : ParseM Bool := do return (← get).lookahead.kind = kind

/-- The lookahead, which has to have the given kind, becomes the current token. -/
def expect (kind : Kind) : ParseM Token := do
  let p ← get
  if p.lookahead.kind = kind then
    next
    return p.lookahead
  else
    reject (.unexpectedToken kind p.lookahead.kind) p.lookahead.span.start

/-- The lookahead, which has to name a primitive type, becomes the current
token. -/
def primitiveType : ParseM PrimitiveType := do
  let p ← get
  match p.lookahead.kind.primitiveType? with
  | some type =>
      next
      return type
  | none => reject (.expectedPrimitiveType p.lookahead.kind) p.lookahead.span.start

/-- The span from a token to the current one. -/
def spanFrom (token : Token) : ParseM Span := do
  return ⟨token.span.start, (← get).current.span.stop⟩

/-- Runs a production and notes in the trail where it was entered and how it was
left. -/
def during (production : Production) (body : ParseM α) : ParseM α := fun p =>
  match body (p.note production .entered p.mark) with
  | .ok a q => .ok a (q.note production .completed p.mark)
  | .error e q => .error e (q.note production .abandoned p.mark)

/-- Runs a loop or a nested production with fuel for as many steps as the stream
can give rise to. -/
def withBudget (body : Nat → ParseM α) : ParseM α := do body (← get).budget

end Parser

end Frontend
