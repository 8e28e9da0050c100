import Frontend.Diagnostic.Report
import Frontend.Parser.Program
import Frontend.Tree.Outline

/-!
# The command line

There are two commands: `lex` lists the tokens of a source, `parse` prints the
program in it. Both report the diagnostics and succeed when there are none. What
a command does is a function of the source and its name; reading the file and
printing the outcome is all that is left to the outside.
-/

namespace Frontend

/-- What a run of the program leaves behind. -/
structure Outcome where
  exitCode : Nat
  stdout : String
  stderr : String
deriving DecidableEq

inductive Command where
  /-- Lists the tokens; the comments only when asked for. -/
  | lex (comments : Bool)
  /-- Prints the program, as source text or as an outline. -/
  | parse (outlined : Bool)
deriving DecidableEq

namespace Command

/-- The lines that list the tokens of a source. The end token has no lexeme in
the list. -/
def listing (comments : Bool) (tokens : List Token) : String :=
  let shown := tokens.filter fun t => comments || t.kind ≠ .comment
  String.join <| shown.map fun t =>
    if t.kind = .eof then t.kind.name ++ "\n" else t.kind.name ++ " " ++ t.lexeme ++ "\n"

/-- The text that a command prints, and the diagnostics that it reports. -/
def result (source file : String) : Command → String × List Diagnostic
  | lex comments =>
      let supplies := (Scanner.ofSource source file).run
      (listing comments (supplies.map (·.token)), supplies.flatMap (·.diagnostics))
  | parse outlined =>
      let (program, diagnostics) := Frontend.parse source file
      let text := if outlined then program.outline.render else program.render
      (text ++ "\n", diagnostics)

/-- Runs a command on a source. There is no outcome when a diagnostic has no
report. -/
def run? (command : Command) (source file : String) : Option Outcome := do
  let (text, diagnostics) := command.result source file
  let reports ← Diagnostic.reports? diagnostics source file
  return ⟨if diagnostics.isEmpty then 0 else 1, text, String.join reports⟩

end Command

/-- Why a file cannot be read as a source. -/
inductive Unreadable where
  | missing
  | directory
  /-- The bytes of the file are no text in UTF-8. -/
  | notText
deriving DecidableEq

namespace Unreadable

def message : Unreadable → String
  | missing => "Os \x7b code: 2, kind: NotFound, message: \"No such file or directory\" \x7d"
  | directory => "Os \x7b code: 21, kind: IsADirectory, message: \"Is a directory\" \x7d"
  | notText =>
      "Error \x7b kind: InvalidData, message: \"stream did not contain valid UTF-8\" \x7d"

/-- What a run of the program on such a file leaves behind. -/
def outcome (u : Unreadable) : Outcome := ⟨1, "", "Error: " ++ u.message ++ "\n"⟩

end Unreadable

/-- The text in the bytes of a file. -/
def decode (bytes : ByteArray) : Except Unreadable String :=
  match String.fromUTF8? bytes with
  | some text => .ok text
  | none => .error .notText

/-- Runs a command on the bytes of a file, or on the reason why there are none. -/
def Command.runFile? (command : Command) (file : String) :
    Except Unreadable ByteArray → Option Outcome
  | .error u => some u.outcome
  | .ok bytes =>
      match decode bytes with
      | .error u => some u.outcome
      | .ok source => command.run? source file

/-- The last name in a path: what reports call the file. A path without one is
used as it is. -/
def fileName (path : String) : String :=
  match (path.splitOn "/").reverse.find? fun part => part ≠ "" ∧ part ≠ "." with
  | some part => if part = ".." then path else part
  | none => path

end Frontend
