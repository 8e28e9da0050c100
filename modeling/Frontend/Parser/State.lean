import Frontend.Grammar.Rules
import Frontend.Token.Stream

/-!
# The state of a parse

A parser sees its stream through a window of two tokens, the current one and the
one behind it. Sliding the window by one token is all it can do to the stream.
Beside the window it keeps the rules in force, the diagnostics in the order in
which they came up, those of the stream and those of failed productions, and a
trail: where each production was entered and left.

A failed statement leaves the window somewhere in the statement.
`Parser.recover` moves on to a token from which the next statement can be read;
`Parser.advancePastStatement` then steps over the last token of a statement,
unless recovery has found the first token of the next one already.
-/

namespace Frontend

/-- Where a diagnostic comes from. -/
inductive Origin where
  /-- It came with a token of the stream. -/
  | stream
  /-- A production failed with it. -/
  | production
deriving DecidableEq

/-- A diagnostic of a parse. -/
structure Finding where
  origin : Origin
  diagnostic : Diagnostic
deriving DecidableEq

/-- The productions that a parse enters again within themselves. -/
inductive Production where
  | statement
  | block
  | conditional
  | expression
deriving DecidableEq

/-- Whether a production is entered, left with a result or left without one. -/
inductive Stage where
  | entered
  | completed
  | abandoned
deriving DecidableEq

/-- How far a parse has come. -/
structure Mark where
  /-- How often the window has been moved. -/
  index : Nat
  /-- How many diagnostics there are. -/
  findings : Nat
deriving DecidableEq

/-- A step of a parse in or out of a production. -/
structure Event where
  production : Production
  stage : Stage
  /-- Where the production was entered. -/
  entry : Mark
  /-- Where the step was made. -/
  here : Mark
deriving DecidableEq

structure Parser where
  rules : Rules
  current : Token
  /-- The token behind the current one. -/
  lookahead : Token
  stream : TokenStream
  /-- Oldest first. -/
  findings : List Finding
  /-- Whether recovery has stopped on the first token of the next statement. -/
  resume : Bool
  /-- How often the window has been moved. -/
  index : Nat
  /-- Newest first. -/
  trail : List Event

namespace Parser

/-- The diagnostics that came with a token. -/
def handedOver (s : Supply) : List Finding := s.diagnostics.map (⟨.stream, ·⟩)

/-- A parser of the language, with its window on the first two tokens of a
stream. -/
def ofStream (stream : TokenStream) : Parser :=
  let (first, stream) := stream.pull
  let (second, stream) := stream.pull
  { rules := .standard
    current := first.token
    lookahead := second.token
    stream := stream
    findings := handedOver first ++ handedOver second
    resume := false
    index := 0
    trail := [] }

/-- The diagnostics so far, oldest first. -/
def diagnostics (p : Parser) : List Diagnostic := p.findings.map (·.diagnostic)

/-- How far the parse has come. -/
def mark (p : Parser) : Mark := ⟨p.index, p.findings.length⟩

/-- Moves the window by one token. -/
def advance (p : Parser) : Parser :=
  let (next, stream) := p.stream.pull
  { p with
    current := p.lookahead
    lookahead := next.token
    stream := stream
    findings := p.findings ++ handedOver next
    index := p.index + 1 }

@[simp]
theorem advance_current (p : Parser) : p.advance.current = p.lookahead := rfl

@[simp]
theorem advance_index (p : Parser) : p.advance.index = p.index + 1 := rfl

@[simp]
theorem advance_diagnostics (p : Parser) :
    p.advance.diagnostics = p.diagnostics ++ p.stream.pull.1.diagnostics := by
  simp [diagnostics, advance, handedOver, Function.comp_def]

/-- Records the diagnostic of a failed production. -/
def record (p : Parser) (d : Diagnostic) : Parser :=
  { p with findings := p.findings ++ [⟨.production, d⟩] }

@[simp]
theorem record_diagnostics (p : Parser) (d : Diagnostic) :
    (p.record d).diagnostics = p.diagnostics ++ [d] := by
  simp [diagnostics, record]

/-- Notes in the trail that a production, entered at some mark, is entered or
left. -/
def note (p : Parser) (production : Production) (stage : Stage) (entry : Mark) : Parser :=
  { p with trail := ⟨production, stage, entry, p.mark⟩ :: p.trail }

/-- The power of the lookahead as an operator behind the expression that ends
with the current token. -/
def lookaheadPower (p : Parser) : Power := p.rules.power p.lookahead.kind

/-- The messages of the diagnostics so far. -/
def messages (p : Parser) : List String := p.diagnostics.map (·.cause.message)

/-- A bound on the steps of any loop that moves the window: the tokens still to
come, those in the window, and a few more for what is read at the end of the
input. -/
def budget (p : Parser) : Nat := p.stream.pending.length + 8

/-! ## Recovery -/

/-- Whether a statement can end with the current token. -/
def atBoundary (p : Parser) : Bool :=
  p.current.kind = .symbol .semicolon || p.current.kind = .symbol .closeCurly ||
    p.current.kind = .eof

/-- Whether the lookahead closes a block or starts a statement. -/
def beforeBoundary (p : Parser) : Bool :=
  p.lookahead.kind = .symbol .closeCurly || p.rules.headsStmt p.lookahead.kind

/-- Moves the window to the end of a statement, by as many tokens as there is
fuel for. -/
def skip : Nat → Parser → Parser
  | 0, p => p
  | fuel + 1, p => if p.atBoundary || p.beforeBoundary then p else p.advance.skip fuel

/-- Moves on after the statement that starts at `start` has failed. If the
window has moved since then and stands on a token that starts a statement, that
statement comes next. Otherwise the window moves to the end of the failed one;
the stream ends within as many tokens as are still to come, and two more in the
window. -/
def recover (p : Parser) (start : Position) : Parser :=
  if p.current.span.start ≠ start ∧ p.rules.headsStmt p.current.kind then
    { p with resume := true }
  else p.skip (p.stream.pending.length + 2)

/-- Moves to the first token of the next statement. -/
def advancePastStatement (p : Parser) : Parser :=
  if p.resume then { p with resume := false } else p.advance

end Parser

end Frontend
