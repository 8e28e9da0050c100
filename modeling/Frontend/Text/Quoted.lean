import Frontend.Text.Extending
import Frontend.Text.Ignorable
import Frontend.Text.Unprintable

/-!
# Quoted text

Diagnostics and outlines quote text so that every character of it can be told
apart on a plain screen: a quotation stands between double quotes, a few
characters have an escape of two letters, and whatever is unprintable, may be
left out by a display or would be drawn over its neighbour is written by its
number.
-/

namespace Frontend.Text

/-- The form of a character inside a quotation. -/
def escape (c : Char) : List Char :=
  if c = '\x00' then ['\\', '0']
  else if c = '\t' then ['\\', 't']
  else if c = '\r' then ['\\', 'r']
  else if c = '\n' then ['\\', 'n']
  else if c = '"' then ['\\', '"']
  else if c = '\\' then ['\\', '\\']
  else if isExtending c || isIgnorable c || isUnprintable c then
    ['\\', 'u', '{'] ++ Nat.toDigits 16 c.toNat ++ ['}']
  else [c]

/-- The text between double quotes, with its characters escaped. -/
def quote (text : String) : String :=
  String.ofList ('"' :: text.toList.flatMap escape ++ ['"'])

end Frontend.Text
