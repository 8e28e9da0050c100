import Frontend.Text.Cut
import Frontend.Token.Scanner

/-!
# Scanning with a cursor

A scanner can also go over the bytes of its source in place. A cursor holds the whole
source, the current character and two offsets, that of the current character and that of
the one behind it. Behind the last character the current one is NUL, which a source may
contain as well. All that a cursor does is to advance by one character, to peek at the next
one and to copy the text between two offsets; each of these takes the source apart at an
offset, and gives nothing if a character would be cut in two.

`Cursor.scan` hands out the token in front of a cursor, and `Cursor.run` all tokens of a
source.
-/

namespace Frontend

open Text

/-- The symbols that begin with a character: those of two characters, by the second one,
and the one that the first character is alone. -/
def Symbol.startingWith : Char → Option (List (Char × Symbol) × Symbol)
  | '=' => some ([('=', equals)], assignment)
  | '+' => some ([('=', plusEquals), ('+', plusPlus)], plus)
  | '-' => some ([('=', minusEquals), ('-', minusMinus)], dash)
  | '*' => some ([('=', starEquals)], star)
  | '/' => some ([('=', slashEquals)], slash)
  | '%' => some ([], percent)
  | '&' => some ([('=', ampersandEquals), ('&', and)], ampersand)
  | '|' => some ([('=', pipeEquals), ('|', or)], pipe)
  | '!' => some ([('=', notEquals)], not)
  | '<' => some ([('=', lessEquals), ('<', shiftLeft)], less)
  | '>' => some ([('=', greaterEquals), ('>', shiftRight)], greater)
  | '~' => some ([], tilde)
  | '^' => some ([('=', caretEquals)], caret)
  | '(' => some ([], openParen)
  | ')' => some ([], closeParen)
  | '{' => some ([], openCurly)
  | '}' => some ([], closeCurly)
  | '[' => some ([], openBracket)
  | ']' => some ([], closeBracket)
  | ',' => some ([], comma)
  | '.' => some ([], dot)
  | ':' => some ([], colon)
  | ';' => some ([], semicolon)
  | _ => none

structure Cursor where
  source : List Char
  /-- Where the current character starts. -/
  offset : Nat
  /-- Where the character behind it starts. -/
  next : Nat
  current : Char
  file : String
  /-- Those that nobody has taken yet. -/
  diagnostics : List Diagnostic
deriving DecidableEq

namespace Cursor

/-- The current character behind the last one of a source. -/
def nul : Char := '\x00'

/-- Whether the cursor stands behind the last character. -/
def atEnd (c : Cursor) : Bool := byteSize c.source ≤ c.offset

/-- Moves to the next character; behind the last one the cursor stays where it is. -/
def advance (c : Cursor) : Option Cursor :=
  if byteSize c.source ≤ c.next then
    some { c with offset := byteSize c.source, next := byteSize c.source, current := nul }
  else do
    let rest ← from? c.source c.next
    let current := rest.headD nul
    return { c with offset := c.next, next := c.next + current.utf8Size, current := current }

/-- The next character. -/
def peek (c : Cursor) : Option Char := do
  let rest ← from? c.source (min c.next (byteSize c.source))
  return rest.headD nul

/-- A cursor on the first character of a source. -/
def ofSource (source : String) (file : String) : Option Cursor :=
  advance ⟨source.toList, 0, 0, nul, file, []⟩

/-- A bound on the characters that a cursor can pass. -/
def budget (c : Cursor) : Nat := byteSize c.source + 1

/-- Advances as long as a condition holds. -/
def advanceWhile (p : Cursor → Bool) : Nat → Cursor → Option Cursor
  | 0, _ => none
  | fuel + 1, c => do
      if p c then advanceWhile p fuel (← c.advance) else return c

def skipBlanks (c : Cursor) : Option Cursor :=
  c.advanceWhile (fun c => isBlank c.current) c.budget

/-- Advances behind the next closing mark, or to the end if there is none. -/
def skipToClosingMark : Nat → Cursor → Option (Bool × Cursor)
  | 0, _ => none
  | fuel + 1, c => do
      if c.atEnd then
        return (false, c)
      else if c.current = '*' then
        if (← c.peek) = '/' then
          return (true, ← (← c.advance).advance)
        else
          skipToClosingMark fuel (← c.advance)
      else
        skipToClosingMark fuel (← c.advance)

/-- Reports a token that starts at this offset. -/
def report (cause : Cause) (start : Nat) (c : Cursor) : Cursor :=
  { c with diagnostics := c.diagnostics ++ [⟨cause, .mark start c.file⟩] }

/-- Hands out the text in front of the cursor as a token. -/
def finish (kind : Kind) (start : Nat) (c : Cursor) : Option (Token × Cursor) := do
  let text ← slice? c.source start c.offset
  return (⟨kind, String.ofList text, Span.mark start c.offset c.file⟩, c)

def lineComment (start : Nat) (c : Cursor) : Option (Token × Cursor) := do
  let c ← c.advanceWhile (fun c => c.current ≠ '\n' && !c.atEnd) c.budget
  c.finish .comment start

def blockComment (start : Nat) (c : Cursor) : Option (Token × Cursor) := do
  let c ← (← c.advance).advance
  let (closed, c) ← c.skipToClosingMark c.budget
  if closed then c.finish .comment start
  else (c.report .unterminatedComment start).finish .comment start

/-- Chooses among symbols by the next character, which is passed if it belongs to the
symbol. -/
def choose (pairs : List (Char × Symbol)) (single : Symbol) (c : Cursor) :
    Option (Symbol × Cursor) := do
  if pairs.isEmpty then
    return (single, c)
  else
    match pairs.lookup (← c.peek) with
    | some symbol => return (symbol, ← c.advance)
    | none => return (single, c)

def symbol (pairs : List (Char × Symbol)) (single : Symbol) (start : Nat) (c : Cursor) :
    Option (Token × Cursor) := do
  let (symbol, c) ← c.choose pairs single
  (← c.advance).finish (.symbol symbol) start

def number (start : Nat) (c : Cursor) : Option (Token × Cursor) := do
  let c ← c.advanceWhile (fun c => isNumberPart c.current) c.budget
  c.finish .number start

def word (start : Nat) (c : Cursor) : Option (Token × Cursor) := do
  let c ← c.advanceWhile (fun c => isWordPart c.current) c.budget
  let text ← slice? c.source start c.offset
  c.finish (Kind.ofWord (String.ofList text)) start

/-- Reports the current character and passes it. -/
def illegal (start : Nat) (c : Cursor) : Option (Token × Cursor) := do
  let c ← (c.report (.unrecognisedToken (String.ofList [c.current])) start).advance
  return (⟨.illegal, Token.illegalLexeme, Span.mark start c.offset c.file⟩, c)

/-- Hands out a token that is no comment. -/
def plain (start : Nat) (c : Cursor) : Option (Token × Cursor) :=
  match Symbol.startingWith c.current with
  | some (pairs, single) => c.symbol pairs single start
  | none =>
      if c.current.isDigit then c.number start
      else if isWordStart c.current then c.word start
      else c.illegal start

/-- Hands out the token that starts on the current character. -/
def piece (c : Cursor) : Option (Token × Cursor) := do
  if c.current = '/' then
    let second ← c.peek
    if second = '/' then c.lineComment c.offset
    else if second = '*' then c.blockComment c.offset
    else c.plain c.offset
  else c.plain c.offset

/-- Hands out the next token. -/
def scan (c : Cursor) : Option (Token × Cursor) := do
  let c ← c.skipBlanks
  if c.current = nul && c.atEnd then
    return (Token.atEnd c.offset c.file, c)
  else c.piece

/-- Hands out the queued diagnostics, oldest first, and empties the queue. -/
def takeDiagnostics (c : Cursor) : List Diagnostic × Cursor :=
  (c.diagnostics, { c with diagnostics := [] })

/-- Scans up to the end token, or as many tokens as there is fuel for. -/
def supplies : Nat → Cursor → Option (List Supply)
  | 0, _ => some []
  | fuel + 1, c => do
      let (token, c) ← c.scan
      let (diagnostics, c) := c.takeDiagnostics
      if token.kind = .eof then return [⟨token, diagnostics⟩]
      else return ⟨token, diagnostics⟩ :: (← c.supplies fuel)

/-- Scans a source to the end. -/
def run (source : String) (file : String) : Option (List Supply) := do
  (← ofSource source file).supplies (source.toList.length + 1)

/-- Another cursor in the same place, with diagnostics of its own. -/
def clone (c : Cursor) : Cursor :=
  ⟨c.source, c.offset, c.next, c.current, c.file, c.diagnostics⟩

end Cursor

end Frontend
