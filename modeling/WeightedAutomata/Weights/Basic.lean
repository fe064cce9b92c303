import WeightedAutomata.Error
import WeightedAutomata.Text.Blank
import WeightedAutomata.Text.Numeral
import WeightedAutomata.Text.Quoted

/-!
What the weights of labels and transitions provide: a semiring with a partial star, an order for
canonical forms, and a text form.
-/

namespace WeightedAutomata

/-- How signs are written: with ASCII characters only, or with mathematical symbols. -/
inductive Style where
  | ascii
  | symbols
  deriving DecidableEq, Repr

class Weights (K : Type) where
  /-- The name of the weight set in a context. -/
  name : String
  zero : K
  one : K
  add : K → K → K
  mul : K → K → K
  /-- The sum of all powers, where it exists. -/
  star : K → Result K
  /-- The weight `x` with `a * x = b`, if there is one. -/
  leftQuotient : K → K → Option K
  /-- The difference, where weights can be subtracted. -/
  sub : K → K → Option K
  /-- A greatest common divisor. -/
  gcd : K → K → K
  /-- The order that canonical forms use. -/
  order : K → K → Ordering
  isZero : K → Bool
  isOne : K → Bool
  /-- The weight that stands for an integer. -/
  ofInt : Int → K
  /-- The weight of the mirror image. -/
  mirror : K → Result K
  parse : List Char → Result K
  format : Style → K → String
  isCommutative : Bool
  isBoolean : Bool
  /-- Whether every weight has a star. -/
  isAlwaysStarable : Bool

namespace Weights

variable {K : Type} [Weights K]

/-- Whether the order makes no difference between the two. -/
def same (a b : K) : Bool := order a b == .eq

def text (w : K) : String := format .ascii w

def ofBool (b : Bool) : K := if b then one else zero

/-- The `n`-fold product. -/
def power (w : K) : Nat → K
  | 0 => one
  | n + 1 => mul (power w n) w

/-- The sum of a list. -/
def sum (ws : List K) : K := ws.foldl add zero

end Weights

/-- The error for a text that writes no weight of this kind. -/
def Error.badWeight (kind : String) (cs : List Char) : Error :=
  .malformed ⟨0, max 1 cs.length⟩ ("invalid " ++ kind ++ " weight: " ++ Text.quoted cs)

end WeightedAutomata
