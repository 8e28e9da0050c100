/-!
# Double precision numbers

A non-negative number in the 64-bit binary interchange format: eleven bits of
exponent and fifty-two of mantissa. As no sign is stored, the numbers are in the
same order as their bits, and the number after a given one has the next bits.

`Binary64.nearest` rounds a quotient of natural numbers to the nearest such
number, a tie going to the one with the even mantissa. All of it is exact
arithmetic on natural numbers.
-/

namespace Frontend

/-- A non-negative number of double precision, or infinity. -/
structure Binary64 where
  bits : UInt64
deriving DecidableEq

namespace Binary64

/-- The value of the leading bit of a full mantissa, which is not stored:
`2 ^ 52`. -/
def leadingBit : Nat := 0x10000000000000

/-- The bits of infinity: every finite number has smaller ones. -/
def infinityBits : Nat := 0x7ff * leadingBit

def infinity : Binary64 := ⟨infinityBits.toUInt64⟩

/-- The smallest exponent that a mantissa is scaled by. -/
def leastExponent : Int := -1074

/-- The whole number that a finite number is `2 ^ exponent` times. -/
def mantissa (x : Binary64) : Nat :=
  let fraction := x.bits.toNat % leadingBit
  if x.bits.toNat / leadingBit = 0 then fraction else fraction + leadingBit

/-- The exponent that the mantissa of a finite number is scaled by. -/
def exponent (x : Binary64) : Int :=
  leastExponent + (x.bits.toNat / leadingBit - 1 : Nat)

/-- The quotient rounded to the nearest whole number, a tie to the even one. -/
def roundDiv (num den : Nat) : Nat :=
  let quotient := num / den
  let twice := 2 * (num % den)
  if den < twice ∨ (twice = den ∧ quotient % 2 = 1) then quotient + 1 else quotient

/-- The largest `e` with `2 ^ e ≤ num / den`, for a positive quotient. -/
def floorLog2 (num den : Nat) : Int :=
  let e : Int := (Nat.log2 num : Int) - Nat.log2 den
  if den * Nat.pow 2 e.toNat ≤ num * Nat.pow 2 (-e).toNat then e else e - 1

/-- The number nearest to `num / den`, a tie going to the even mantissa. Scaled
so that the quotient has fifty-three bits, or as many as the least exponent
leaves it, it is rounded to a whole number; a carry out of the mantissa runs
into the exponent and gives the right bits there too. -/
def nearest (num den : Nat) : Binary64 :=
  if num = 0 then ⟨0⟩
  else
    let e := max (floorLog2 num den - 52) leastExponent
    let mantissa := roundDiv (num * Nat.pow 2 (-e).toNat) (den * Nat.pow 2 e.toNat)
    ⟨(min ((e - leastExponent).toNat * leadingBit + mantissa) infinityBits).toUInt64⟩

end Binary64

end Frontend
