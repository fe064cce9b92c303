import WeightedAutomata.Weights.Basic

/-!
Tropical weights: integers and one infinite element, where the sum is a minimum or a maximum and the
product is the sum of the integers.
-/

namespace WeightedAutomata

inductive Extremum where
  | min
  | max
  deriving DecidableEq, Repr

inductive Tropical (e : Extremum) where
  | infinite
  | finite (n : Int)
  deriving DecidableEq, Repr

namespace Tropical

variable {e : Extremum}

/-- The better of two integers. -/
def best (e : Extremum) (m n : Int) : Int :=
  match e with
  | .min => if n < m then n else m
  | .max => if m < n then n else m

def add : Tropical e → Tropical e → Tropical e
  | infinite, b => b
  | a, infinite => a
  | finite m, finite n => finite (best e m n)

def mul : Tropical e → Tropical e → Tropical e
  | finite m, finite n => finite (m + n)
  | _, _ => infinite

/-- The sum of the powers of a weight that is not better than `0` is `0`. -/
def star : Tropical e → Result (Tropical e)
  | infinite => .ok (finite 0)
  | finite n => if best e 0 n = 0 then .ok (finite 0) else .error (.notStarable (toString n))

def leftQuotient : Tropical e → Tropical e → Option (Tropical e)
  | infinite, _ => none
  | finite _, infinite => some infinite
  | finite m, finite n => some (finite (n - m))

/-- The infinite element comes before all integers. -/
def order : Tropical e → Tropical e → Ordering
  | infinite, infinite => .eq
  | infinite, finite _ => .lt
  | finite _, infinite => .gt
  | finite m, finite n => compare m n

/-- The integer of a finite weight. -/
def value? : Tropical e → Option Int
  | infinite => none
  | finite n => some n

/-- The weight with this integer, or the infinite element. -/
def ofValue : Option Int → Tropical e
  | none => infinite
  | some n => finite n

def text : Tropical e → String
  | infinite => "oo"
  | finite n => toString n

/-- The spellings of the infinite element, which is negative where the sum is a maximum. -/
def infiniteTexts : Extremum → List String
  | .min => ["oo", "∞"]
  | .max => ["-oo", "-∞"]

def parse (cs : List Char) : Result (Tropical e) :=
  let body := Text.trim cs
  if (infiniteTexts e).contains (String.ofList body) then .ok infinite
  else
    match Text.integer64? body with
    | some n => .ok (finite n)
    | none => .error (.badWeight "tropical" cs)

def name : Extremum → String
  | .min => "zmin"
  | .max => "zmax"

end Tropical

/-- The tropical semirings. -/
instance {e : Extremum} : Weights (Tropical e) where
  name := Tropical.name e
  zero := .infinite
  one := .finite 0
  add := Tropical.add
  mul := Tropical.mul
  star := Tropical.star
  leftQuotient := Tropical.leftQuotient
  sub _ _ := none
  gcd _ _ := .finite 0
  order := Tropical.order
  isZero := (· == .infinite)
  isOne := (· == .finite 0)
  ofInt := .finite
  mirror := .ok
  parse := Tropical.parse
  format _ := Tropical.text
  isCommutative := true
  isBoolean := false
  isAlwaysStarable := false

end WeightedAutomata
