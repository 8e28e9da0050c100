import Frontend.Parser.Stmt

/-!
# Reading programs

A program is read statement by statement up to the end of the input. It always
comes out, with the statements that could be read; the diagnostics tell whether
any could not.

`parse` reads a program from a source.
-/

namespace Frontend

namespace Parser

/-- Reads statements up to the end of the input; `item` reads one of them, or
recovers from it. -/
def statements (item : ParseM (Option Stmt)) : Nat → ParseM (List Stmt)
  | 0 => exhaust
  | fuel + 1 => do
      let p ← get
      if p.current.kind = .eof then
        return []
      else
        let s? ← item
        modify advancePastStatement
        let rest ← statements item fuel
        return s?.toList ++ rest

/-- Reads an expression by a given rule. -/
def parsePrefix (rule : PrefixRule) : ParseM Expr :=
  withBudget fun fuel => applyPrefix (expr fuel) rule

/-- Goes on with an expression by a given rule, for an operator of the given
power. -/
def parseInfix (left : Expr) (power : Power) (rule : InfixRule) : ParseM Expr :=
  withBudget fun fuel => applyInfix (expr fuel) left power rule

/-- Reads a block from its opening brace on. -/
def parseBlock : ParseM Block := withBudget block

/-- Reads a statement by a given rule. -/
def parseStmtBy (rule : StmtRule) : ParseM Stmt := applyStmt parseBlock rule

/-- Reads a statement. -/
def parseStmt : ParseM Stmt := stmt parseBlock

/-- Reads a statement, or records why it fails and recovers. -/
def parseStmtOrRecover : ParseM (Option Stmt) := stmtOrRecover parseBlock

/-- Reads a program. -/
def parseProgram : ParseM Program := do
  return ⟨← withBudget (statements parseStmtOrRecover)⟩

end Parser

/-- Reads a program from a stream, with the diagnostics recorded on the way. -/
def parseStream (stream : TokenStream) : Program × List Diagnostic :=
  match Parser.parseProgram (.ofStream stream) with
  | .ok program p => (program, p.diagnostics)
  | .error _ p => (⟨[]⟩, p.diagnostics)

/-- Reads the program in a source, with the diagnostics recorded on the way. -/
def parse (source : String) (file : String) : Program × List Diagnostic :=
  parseStream (.ofSource source file)

end Frontend
