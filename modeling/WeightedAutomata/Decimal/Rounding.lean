/-!
Floating-point numbers of 64 bits, given by their bit patterns: as exact fractions, and the number
nearest to a fraction.
-/

namespace WeightedAutomata.Decimal

/-- The quotient rounded to the nearest whole number, a half to the even one. -/
def divNearest (num den : Nat) : Nat :=
  let quotient := num / den
  let twice := 2 * (num % den)
  if twice < den then quotient
  else if den < twice then quotient + 1
  else quotient + quotient % 2

/-- The greatest `e` with `2 ^ e ≤ num / den`. -/
def floorLog2 (num den : Nat) : Int :=
  let guess := (num.log2 : Int) - den.log2
  if num * Nat.pow 2 (-guess).toNat < den * Nat.pow 2 guess.toNat then guess - 1 else guess

/-- The exponent of the last bit of the least normal number. -/
def leastExponent : Int := -1074

/-- The number of fractions: the 52 bits below the exponent. -/
def fractionCount : Nat := 0x10000000000000

/-- The sign bit, above the exponent. -/
def signBit : Nat := 0x8000000000000000

/-- The bits of positive infinity; every greater pattern below the sign bit is no number. -/
def infinityBits : Nat := 0x7ff0000000000000

/-- A pattern that is no number. -/
def noNumberBits : Nat := 0x7ff8000000000000

/-- The pattern with a sign bit. -/
def withSign (negative : Bool) (size : Nat) : UInt64 :=
  UInt64.ofNat ((if negative then signBit else 0) + size)

/-- The bit pattern of the number nearest to `num / den`, a tie going to the even neighbour. -/
def nearestBits (num den : Nat) : Nat :=
  if num = 0 then 0
  else
    let exponent := max (floorLog2 num den - 52) leastExponent
    let mantissa := divNearest (num * Nat.pow 2 (-exponent).toNat) (den * Nat.pow 2 exponent.toNat)
    min ((exponent - leastExponent).toNat * fractionCount + mantissa) infinityBits

/-- The number nearest to `num / den`, with a sign. -/
def nearest (negative : Bool) (num den : Nat) : UInt64 := withSign negative (nearestBits num den)

/-- Whether a bit below the leading 64 counts: of each 64-bit word below the leading one, only as many
low bits count as the leading word has. -/
def restCounts (n : Nat) : Bool :=
  (List.range (n.log2 / 64)).any fun word =>
    n / Nat.pow 2 (64 * word) % Nat.pow 2 (n.log2 % 64 + 1) != 0

/-- A whole number shortened to its 64 leading bits, the last of which is also set if a later bit
counts. -/
def shorten (n : Nat) : Nat :=
  if n.log2 < 64 then n
  else
    let cut := Nat.pow 2 (n.log2 - 63)
    let front := n / cut
    (if front % 2 = 0 && restCounts n then front + 1 else front) * cut

/-- A finite size `mantissa * 2 ^ exponent`. -/
structure Binary where
  mantissa : Nat
  exponent : Int

/-- The size of a finite number, from its bits without the sign. -/
def Binary.ofBits (bits : Nat) : Binary :=
  let biased : Nat := bits / fractionCount
  let fraction : Nat := bits % fractionCount
  if biased = 0 then ⟨fraction, leastExponent⟩
  else ⟨fractionCount + fraction, (biased : Int) - 1 + leastExponent⟩

end WeightedAutomata.Decimal
