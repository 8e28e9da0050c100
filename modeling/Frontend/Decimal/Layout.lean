import Frontend.Decimal.Shortest

/-!
# Writing a decimal

Where the point of a decimal stands near its digits it is written positionally,
elsewhere with an exponent. A `Layout` says where the line is drawn and how the
parts look.
-/

namespace Frontend.Decimal

/-- The choices in writing a number. -/
structure Layout where
  /-- The least number of digits in front of the point (negative: zeros behind
  it) that is written positionally. -/
  leastPoint : Int
  /-- The largest such number. -/
  mostPoint : Int
  /-- What stands between the digits and the exponent. -/
  exponentMark : String
  /-- What stands for infinity. -/
  infinity : String

/-- The digits of a positive decimal, without zeros at the end. -/
def significant (x : Decimal) : List Char :=
  ((Nat.toDigits 10 x.digits).reverse.dropWhile (· = '0')).reverse

/-- How many digits stand in front of the point. -/
def point (x : Decimal) : Int := (Nat.toDigits 10 x.digits).length + x.exponent

/-- The digits with a point among them, at least one digit on either side of it. -/
def positional (digits : List Char) (point : Int) : List Char :=
  let zeros (n : Int) := List.replicate n.toNat '0'
  let whole := digits.take point.toNat ++ zeros (point - digits.length)
  let fraction := zeros (-point) ++ digits.drop point.toNat
  let orZero (cs : List Char) := if cs.isEmpty then ['0'] else cs
  orZero whole ++ '.' :: orZero fraction

/-- The digits with a point behind the first of them, if there are more, and the
exponent. -/
def scientific (mark : String) (digits : List Char) (point : Int) : List Char :=
  let fraction := digits.drop 1
  digits.take 1 ++ (if fraction.isEmpty then [] else '.' :: fraction) ++ mark.toList ++
    (toString (point - 1)).toList

/-- The text of a positive decimal. -/
def write (layout : Layout) (x : Decimal) : String :=
  String.ofList <|
    if layout.leastPoint ≤ x.point ∧ x.point ≤ layout.mostPoint then
      positional x.significant x.point
    else scientific layout.exponentMark x.significant x.point

end Frontend.Decimal

namespace Frontend

/-- The text of a number in a layout. -/
def Binary64.write (layout : Decimal.Layout) (x : Binary64) : String :=
  if x.bits = 0 then "0.0"
  else if x = infinity then layout.infinity
  else x.shortest.write layout

end Frontend
