import Frontend.Decimal.Layout

/-!
# Number literals

A number is written with ASCII digits. Without a dot it is an integer, whose
value has to stay below `2 ^ 128`; with one dot behind at least one digit it is
a number of double precision. Any other text of digits and dots is no literal.
-/

namespace Frontend

/-- The value of a number literal. -/
inductive Literal where
  | integer (value : Nat)
  | float (value : Binary64)
deriving DecidableEq

namespace Literal

/-- Integers have to stay below this: `2 ^ 128`. -/
def integerLimit : Nat := 0x100000000000000000000000000000000

/-- The value of a run of decimal digits. -/
def digitsValue (cs : List Char) : Nat :=
  cs.foldl (fun value c => 10 * value + (c.toNat - '0'.toNat)) 0

/-- The value that a text stands for, if it is a literal. -/
def read? (text : String) : Option Literal :=
  let whole := text.toList.takeWhile Char.isDigit
  if whole.isEmpty then none
  else
    match text.toList.dropWhile Char.isDigit with
    | [] => if digitsValue whole < integerLimit then some (.integer (digitsValue whole)) else none
    | c :: fraction =>
        if c = '.' ∧ fraction.all Char.isDigit then
          let scale := Nat.pow 10 fraction.length
          some (.float (Binary64.nearest (digitsValue (whole ++ fraction)) scale))
        else none

/-- Numbers of double precision are written positionally from `0.0001` up to
sixteen digits in front of the point. -/
def floatLayout : Decimal.Layout where
  leastPoint := -3
  mostPoint := 16
  exponentMark := "e"
  infinity := "inf"

end Literal

end Frontend
