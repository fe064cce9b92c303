import WeightedAutomata.Weights.Basic

/-!
Boolean, integer and rational weights.
-/

namespace WeightedAutomata

namespace BooleanWeight

def parse (cs : List Char) : Result Bool :=
  let body := String.ofList (Text.trim cs)
  if body = "0" ∨ body = "false" then .ok false
  else if body = "1" ∨ body = "true" then .ok true
  else .error (.badWeight "Boolean" cs)

def text (b : Bool) : String := if b then "1" else "0"

end BooleanWeight

/-- Truth values, with "or" and "and". -/
instance : Weights Bool where
  name := "b"
  zero := false
  one := true
  add := or
  mul := and
  star _ := .ok true
  leftQuotient a b := if a then some b else none
  sub _ _ := none
  gcd _ _ := true
  order := compare
  isZero := not
  isOne := id
  ofInt n := n != 0
  mirror := .ok
  parse := BooleanWeight.parse
  format _ := BooleanWeight.text
  isCommutative := true
  isBoolean := true
  isAlwaysStarable := true

namespace IntegerWeight

/-- Only zero has a star among the integers. -/
def star (n : Int) : Result Int := if n = 0 then .ok 1 else .error (.notStarable (toString n))

/-- The exact quotient `b / a`. -/
def leftQuotient (a b : Int) : Option Int :=
  if a = 0 then none else if b.tmod a = 0 then some (b.tdiv a) else none

def parse (cs : List Char) : Result Int :=
  match Text.integer? (Text.trim cs) with
  | some n => .ok n
  | none => .error (.badWeight "integer" cs)

end IntegerWeight

/-- The ring of integers. -/
instance : Weights Int where
  name := "z"
  zero := 0
  one := 1
  add := (· + ·)
  mul := (· * ·)
  star := IntegerWeight.star
  leftQuotient := IntegerWeight.leftQuotient
  sub a b := some (a - b)
  gcd a b := Int.gcd a b
  order := compare
  isZero := (· == 0)
  isOne := (· == 1)
  ofInt := id
  mirror := .ok
  parse := IntegerWeight.parse
  format _ := toString
  isCommutative := true
  isBoolean := false
  isAlwaysStarable := false

namespace RationalWeight

/-- A fraction in lowest terms, or a whole number. -/
def text (q : Rat) : String :=
  if q.den = 1 then toString q.num else toString q.num ++ "/" ++ toString q.den

/-- The geometric sum `1 / (1 - q)`, for a size below one. -/
def star (q : Rat) : Result Rat :=
  if -1 < q ∧ q < 1 then .ok (1 - q)⁻¹ else .error (.notStarable (text q))

/-- Compares two rationals by their size. -/
def order (p q : Rat) : Ordering := if p < q then .lt else if p = q then .eq else .gt

def parse (cs : List Char) : Result Rat :=
  let body := Text.trim cs
  let (num, den) := (Text.splitOnce '/' body).getD (body, ['1'])
  match Text.integer? (Text.trim num), Text.integer? (Text.trim den) with
  | some n, some d =>
    if d = 0 then .error (.badWeight "rational" body) else .ok ((n : Rat) / (d : Rat))
  | _, _ => .error (.badWeight "rational" body)

end RationalWeight

/-- The field of rationals. -/
instance : Weights Rat where
  name := "q"
  zero := 0
  one := 1
  add := (· + ·)
  mul := (· * ·)
  star := RationalWeight.star
  leftQuotient a b := if a = 0 then none else some (b / a)
  sub a b := some (a - b)
  gcd _ _ := 1
  order := RationalWeight.order
  isZero := (· == 0)
  isOne := (· == 1)
  ofInt n := n
  mirror := .ok
  parse := RationalWeight.parse
  format _ := RationalWeight.text
  isCommutative := true
  isBoolean := false
  isAlwaysStarable := false

end WeightedAutomata
