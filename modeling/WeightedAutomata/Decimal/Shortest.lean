import WeightedAutomata.Decimal.Rounding

/-!
The shortest decimal text of a floating-point number: as few digits as read back to the same
number, and of those the nearest.
-/

namespace WeightedAutomata.Decimal

/-- A decimal `digits * 10 ^ exponent`. -/
structure Scaled where
  digits : Nat
  exponent : Int

/-- The greatest `e` with `10 ^ e ≤ num / den`, found from above. -/
def floorLog10 (num den : Nat) : Int :=
  go 700 330
where
  go : Nat → Int → Int
    | 0, e => e
    | fuel + 1, e =>
      if num * Nat.pow 10 (-e).toNat < den * Nat.pow 10 e.toNat then go fuel (e - 1) else e

/-- The sizes that round to a binary number, and whether the ends belong to them. All are fractions
over `den`. -/
structure Interval where
  low : Nat
  value : Nat
  high : Nat
  den : Nat
  closed : Bool

/-- The interval of `b`: half a step to each side, half of that below a power of two. -/
def Binary.interval (b : Binary) : Interval :=
  let scale := Nat.pow 2 b.exponent.toNat
  let below := if b.mantissa = fractionCount ∧ b.exponent > leastExponent then 1 else 2
  { low := (4 * b.mantissa - below) * scale
    value := 4 * b.mantissa * scale
    high := (4 * b.mantissa + 2) * scale
    den := 4 * Nat.pow 2 (-b.exponent).toNat
    closed := b.mantissa % 2 = 0 }

/-- Whether `digits * 10 ^ exponent` lies in the interval. -/
def Interval.contains (i : Interval) (s : Scaled) : Bool :=
  let left := s.digits * Nat.pow 10 s.exponent.toNat * i.den
  let unit := Nat.pow 10 (-s.exponent).toNat
  if i.closed then i.low * unit ≤ left && left ≤ i.high * unit
  else i.low * unit < left && left < i.high * unit

/-- The decimal of the interval with this exponent that is nearest to its value; of two that are
equally near the greater. -/
def Interval.onGrid? (i : Interval) (exponent : Int) : Option Scaled :=
  let num := i.value * Nat.pow 10 (-exponent).toNat
  let den := i.den * Nat.pow 10 exponent.toNat
  let down : Scaled := ⟨num / den, exponent⟩
  let up : Scaled := ⟨num / den + 1, exponent⟩
  let first := if 2 * (num % den) < den then down else up
  let second := if 2 * (num % den) < den then up else down
  if i.contains first then some first
  else if i.contains second then some second
  else none

/-- The shortest decimal of the interval. Seventeen digits always suffice. -/
def Interval.shortest (i : Interval) : Scaled :=
  let top := floorLog10 i.value i.den
  ((List.range 17).findSome? fun (count : Nat) => i.onGrid? (top - count)).getD ⟨0, 0⟩

/-- A decimal in positional notation. -/
def Scaled.text (s : Scaled) : String :=
  let digits := Nat.toDigits 10 s.digits
  if 0 ≤ s.exponent then
    String.ofList (digits ++ List.replicate s.exponent.toNat '0')
  else
    let places := (-s.exponent).toNat
    let padded := List.replicate (places + 1 - digits.length) '0' ++ digits
    let whole := padded.take (padded.length - places)
    let fraction := (padded.drop (padded.length - places)).reverse.dropWhile (· == '0')
    if fraction.isEmpty then String.ofList whole
    else String.ofList (whole ++ '.' :: fraction.reverse)

/-- The text of a number: never an exponent, no point in a whole number, a sign on a negative
zero. -/
def text (bits : UInt64) : String :=
  let size := bits.toNat % signBit
  let sign := if bits.toNat ≥ signBit then "-" else ""
  if size > infinityBits then "NaN"
  else if size = infinityBits then sign ++ "inf"
  else if size = 0 then sign ++ "0"
  else sign ++ (Binary.ofBits size).interval.shortest.text

end WeightedAutomata.Decimal
