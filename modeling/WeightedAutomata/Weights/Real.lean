import WeightedAutomata.Weights.Basic
import WeightedAutomata.Decimal.Reading
import WeightedAutomata.Decimal.Shortest

/-!
Real weights, approximated by floating-point numbers of 64 bits.
-/

namespace WeightedAutomata

/-- A floating-point number, given by its bit pattern. -/
structure RealWeight where
  bits : UInt64
  deriving DecidableEq, Repr

namespace RealWeight

def toFloat (x : RealWeight) : Float := Float.ofBits x.bits

/-- Whether the pattern stands for no number. -/
def isNaN (x : RealWeight) : Bool := x.bits.toNat % Decimal.signBit > Decimal.infinityBits

/-- Turns a negative zero into zero. -/
def canonical (x : RealWeight) : RealWeight := if x.toFloat == 0 then ⟨0⟩ else x

/-- The outcome of an operation on numbers; where there is no number, the pattern is negative. -/
def ofFloat (x : Float) : RealWeight :=
  if x.isNaN then ⟨Decimal.withSign true Decimal.noNumberBits⟩ else canonical ⟨x.toBits⟩

/-- Applies an operation; the first operand that is no number is the outcome. -/
def combine (op : Float → Float → Float) (a b : RealWeight) : RealWeight :=
  if a.isNaN then a else if b.isNaN then b else ofFloat (op a.toFloat b.toFloat)

/-- The number nearest to an integer, of which the 64 leading bits count. -/
def ofInt (n : Int) : RealWeight := ⟨Decimal.nearest (n < 0) (Decimal.shorten n.natAbs) 1⟩

/-- The number nearest to a rational. -/
def ofRat (q : Rat) : RealWeight := ⟨Decimal.nearest (q.num < 0) q.num.natAbs q.den⟩

def text (x : RealWeight) : String := Decimal.text x.bits

/-- The geometric sum `1 / (1 - x)`, for a size below one. -/
def star (x : RealWeight) : Result RealWeight :=
  if x.toFloat.abs < 1 then .ok (ofFloat (1 / (1 - x.toFloat))) else .error (.notStarable x.text)

/-- The place of a number in the total order of bit patterns: by size, negative ones reversed. -/
def place (x : RealWeight) : Int :=
  let bits := x.canonical.bits.toNat
  if bits < Decimal.signBit then bits else (Decimal.signBit : Int) - 1 - bits

def parse (cs : List Char) : Result RealWeight :=
  let body := Text.trim cs
  match Text.splitOnce '/' body with
  | some (num, den) =>
    match Decimal.parse? (Text.trim num), Decimal.parse? (Text.trim den) with
    | some n, some d => .ok (combine (· / ·) ⟨n⟩ ⟨d⟩)
    | _, _ => .error (.badWeight "real" body)
  | none =>
    match Decimal.parse? body with
    | some x => .ok (canonical ⟨x⟩)
    | none => .error (.badWeight "real" body)

end RealWeight

/-- Floating-point numbers, without a negative zero. -/
instance : Weights RealWeight where
  name := "r"
  zero := .ofInt 0
  one := .ofInt 1
  add := .combine (· + ·)
  mul := .combine (· * ·)
  star := RealWeight.star
  leftQuotient a b := if a.toFloat == 0 then none else some (.combine (· / ·) b a)
  sub a b := some (.combine (· - ·) a b)
  gcd _ _ := .ofInt 1
  order a b := compare a.place b.place
  isZero x := x.toFloat == 0
  isOne x := x.toFloat == 1
  ofInt := .ofInt
  mirror := .ok
  parse := RealWeight.parse
  format _ := RealWeight.text
  isCommutative := true
  isBoolean := false
  isAlwaysStarable := false

end WeightedAutomata
