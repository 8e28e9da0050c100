import Frontend.Diagnostic.Basic
import Frontend.Source.Line
import Frontend.Text.Blank

/-!
# Reports

A report shows a diagnostic with the line it is about and a caret under the
reported place:

```text
Error: UnexpectedToken (expected `Colon`, found `U32`)
-> demo
  |
1 | var x u32 = 5;
  | ------^
```

The line is shown without its indentation, and the caret is moved to the left by
as much. The caret's column counts bytes.
-/

namespace Frontend

open Text

/-- Whether a character belongs to the indentation of a line. -/
def isIndentation (c : Char) : Bool := c = ' ' || c = '\t'

namespace Diagnostic

/-- The widest caret line that a report can hold, gutter apart. -/
def widestMarker : Nat := 65535

/-- The first two lines of a report: what is wrong, and in which file. -/
def heading (d : Diagnostic) (file : String) : List String :=
  ["Error: " ++ d.cause.name ++ " (" ++ d.cause.tip?.getD d.cause.message ++ ")", "-> " ++ file]

/-- How far the caret stands to the right of the first character shown of the
line. -/
def caretColumn (line : Line) : Nat :=
  line.column - (line.text.toList.takeWhile isIndentation).length

/-- The last three lines of a report: an empty line, the source line and the
caret. -/
def excerpt (line : Line) : List String :=
  let number := Nat.repr line.number
  let gutter := String.ofList (List.replicate (number.length + 1) ' ') ++ "|"
  let shown := String.ofList (trimEnd (line.text.toList.dropWhile isIndentation))
  let dashes := String.ofList (List.replicate (caretColumn line) '-')
  [gutter, number ++ " | " ++ shown, gutter ++ " " ++ dashes ++ "^"]

/-- The report of a diagnostic about `source`. A position beyond the end of the
source has no line to show. There is no report when the caret would stand too
far to the right. -/
def report? (d : Diagnostic) (source file : String) : Option String :=
  let unlines (lines : List String) := String.join (lines.map (· ++ "\n"))
  match lineAt? source d.position.offset with
  | none => some (unlines (d.heading file))
  | some line =>
      if caretColumn line + 1 ≤ widestMarker then
        some (unlines (d.heading file ++ excerpt line))
      else none

/-- The reports of several diagnostics, one after the other. -/
def reports? (ds : List Diagnostic) (source file : String) : Option (List String) :=
  ds.mapM (·.report? source file)

end Diagnostic

end Frontend
