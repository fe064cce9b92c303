import WeightedAutomata.Decimal.Rounding
import WeightedAutomata.Text.Numeral

/-!
Decimal text read as the nearest floating-point number.
-/

namespace WeightedAutomata.Decimal

open Text

/-- The number nearest to `digits * 10 ^ exponent`. Sizes far outside the range are settled by
their magnitude alone. -/
def ofScaled (negative : Bool) (digits : Nat) (exponent : Int) : UInt64 :=
  let magnitude := (Nat.toDigits 10 digits).length + exponent
  if digits = 0 ∨ magnitude < -400 then withSign negative 0
  else if magnitude > 400 then withSign negative infinityBits
  else nearest negative (digits * Nat.pow 10 exponent.toNat) (Nat.pow 10 (-exponent).toNat)

/-- The exponent part of a number, after the digits: nothing, or `e`, a sign if any and digits. -/
def exponent? : List Char → Option Int
  | [] => some 0
  | c :: rest =>
    if c == 'e' || c == 'E' then
      let (negative, digits) := splitSign rest
      (digits? digits).map (signed negative)
    else none

/-- A number without sign: digits with a point among, before or after them, then an exponent. -/
def unsigned? (negative : Bool) (cs : List Char) : Option UInt64 :=
  let whole := cs.takeWhile isDigit
  let rest := cs.dropWhile isDigit
  let (fraction, rest) := match rest with
    | '.' :: rest => (rest.takeWhile isDigit, rest.dropWhile isDigit)
    | _ => ([], rest)
  if whole.isEmpty && fraction.isEmpty then none
  else (exponent? rest).map fun exponent =>
    ofScaled negative (decimalValue (whole ++ fraction)) (exponent - fraction.length)

/-- An ASCII letter in lower case. -/
def lower (c : Char) : Char := if 'A' ≤ c && c ≤ 'Z' then Char.ofNat (c.toNat + 32) else c

/-- Reads a number: a sign if any, then `inf`, `infinity`, `nan` in either case, or decimal digits
with a point and an exponent if any. -/
def parse? (cs : List Char) : Option UInt64 :=
  let (negative, body) := splitSign cs
  let name := String.ofList (body.map lower)
  if name = "inf" || name = "infinity" then some (withSign negative infinityBits)
  else if name = "nan" then some (withSign negative noNumberBits)
  else unsigned? negative body

end WeightedAutomata.Decimal
