import Frontend.Decimal.Binary64

/-!
# The shortest decimal of a number

`Binary64.shortest` gives the decimal with the fewest digits among those that
read back as a given number, and of several with equally few the one nearest to
it; of two equally near the larger.

The decimals that read back as `m * 2 ^ e` fill the interval between the
midpoints to its two neighbours. A midpoint itself is rounded to the even
mantissa, so it belongs to the interval exactly when `m` is even. On each
decimal grid only the two grid points next to the number have to be tried: if
any point of the grid lies in the interval, so does one of them.
-/

namespace Frontend

/-- The number `digits * 10 ^ exponent`. -/
structure Decimal where
  digits : Nat
  exponent : Int
deriving DecidableEq

namespace Binary64

/-- The largest `e` with `10 ^ e ≤ num / den`, for a positive quotient. The
estimate from the binary logarithm is at most one off. -/
def floorLog10 (num den : Nat) : Int :=
  let holds (e : Int) : Bool := den * Nat.pow 10 e.toNat ≤ num * Nat.pow 10 (-e).toNat
  let e := floorLog2 num den * 30103 / 100000
  if holds (e + 1) then e + 1 else if holds e then e else e - 1

/-- Whether `digits * 10 ^ exponent` reads back as `x`. Both ends of the
interval are counted in quarters of the distance between neighbours, since below
a power of two that distance is halved. -/
def readsBack (x : Binary64) (d : Decimal) : Bool :=
  let m := x.mantissa
  let e := x.exponent - 2
  let below := if m = leadingBit ∧ leastExponent < x.exponent then 1 else 2
  let bound (quarters : Nat) := quarters * Nat.pow 2 e.toNat * Nat.pow 10 (-d.exponent).toNat
  let value := d.digits * Nat.pow 10 d.exponent.toNat * Nat.pow 2 (-e).toNat
  if m % 2 = 0 then bound (4 * m - below) ≤ value && value ≤ bound (4 * m + 2)
  else bound (4 * m - below) < value && value < bound (4 * m + 2)

/-- The better of the two points next to `x` on the grid of multiples of
`10 ^ exponent`, if one of them reads back as `x`. -/
def onGrid? (x : Binary64) (exponent : Int) : Option Decimal :=
  let num := x.mantissa * Nat.pow 2 x.exponent.toNat * Nat.pow 10 (-exponent).toNat
  let den := Nat.pow 2 (-x.exponent).toNat * Nat.pow 10 exponent.toNat
  let lower : Decimal := ⟨num / den, exponent⟩
  let upper : Decimal := ⟨num / den + 1, exponent⟩
  match x.readsBack lower, x.readsBack upper with
  | true, true => some (if 2 * (num % den) < den then lower else upper)
  | true, false => some lower
  | false, true => some upper
  | false, false => none

/-- The shortest decimal of a positive finite number. Seventeen digits always
suffice. -/
def shortest (x : Binary64) : Decimal :=
  let leading :=
    floorLog10 (x.mantissa * Nat.pow 2 x.exponent.toNat) (Nat.pow 2 (-x.exponent).toNat)
  ((List.range 17).findSome? fun (k : Nat) => x.onGrid? (leading - k)).getD ⟨0, 0⟩

end Binary64

end Frontend
