import Frontend.Command

/-!
# The program

Reads the arguments and the file, runs the command and prints its outcome.
-/

namespace Frontend

/-- The command and the path in the arguments; flags may stand anywhere behind
the command. -/
def readArguments : List String → Option (Command × String)
  | "lex" :: rest =>
      match rest.filter (· ≠ "--comments") with
      | [path] => some (.lex (rest.contains "--comments"), path)
      | _ => none
  | "parse" :: rest =>
      match rest.filter (· ≠ "--ast") with
      | [path] => some (.parse (rest.contains "--ast"), path)
      | _ => none
  | _ => none

/-- The bytes of a file. -/
def readBytes (path : String) : IO (Except Unreadable ByteArray) := do
  try
    return .ok (← IO.FS.readBinFile path)
  catch
    | .noFileOrDirectory .. => return .error .missing
    | .inappropriateType .. => return .error .directory
    | e => throw e

/-- Runs the program on its arguments and gives its exit code. -/
def runProgram (args : List String) : IO UInt32 := do
  match readArguments args with
  | none =>
      IO.eprintln "usage: lex FILE [--comments] | parse FILE [--ast]"
      return 2
  | some (command, path) =>
      match command.runFile? (fileName path) (← readBytes path) with
      | none =>
          IO.eprintln "a diagnostic stands too far to the right to be shown"
          return 101
      | some outcome =>
          IO.print outcome.stdout
          IO.eprint outcome.stderr
          return outcome.exitCode.toUInt32

end Frontend

/-- The entry point. -/
def main (args : List String) : IO UInt32 := Frontend.runProgram args
