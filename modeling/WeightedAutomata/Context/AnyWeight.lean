import WeightedAutomata.Expression.Printer
import WeightedAutomata.Weights.Exact
import WeightedAutomata.Weights.Real
import WeightedAutomata.Weights.Tropical

/-!
Weights of any kind. An expression that is a weight keeps the kind of each weight in it, so that
expressions over different weight sets can stand side by side.
-/

namespace WeightedAutomata

/-- A number as a weight, with its kind. -/
inductive Scalar where
  | boolean (b : Bool)
  | integer (n : Int)
  | rational (q : Rat)
  | real (x : RealWeight)
  /-- A tropical weight, without integer for the infinite element. -/
  | tropical (n : Option Int)
  deriving DecidableEq

namespace Scalar

/-- The place of each kind of numbers in the order. -/
def rank : Scalar → Nat
  | boolean _ => 0
  | integer _ => 1
  | rational _ => 2
  | real _ => 3
  | tropical _ => 4

/-- The order of numbers: by kind, numbers of one kind in their own order. -/
def order : Scalar → Scalar → Ordering
  | boolean a, boolean b => Weights.order a b
  | integer m, integer n => Weights.order m n
  | rational p, rational q => Weights.order p q
  | real x, real y => Weights.order x y
  | tropical m, tropical n => Tropical.order (.ofValue m : Tropical .min) (.ofValue n)
  | s, t => compare s.rank t.rank

def isZero : Scalar → Bool
  | boolean b => Weights.isZero b
  | integer n => Weights.isZero n
  | rational q => Weights.isZero q
  | real x => Weights.isZero x
  | tropical n => n == none

def isOne : Scalar → Bool
  | boolean b => Weights.isOne b
  | integer n => Weights.isOne n
  | rational q => Weights.isOne q
  | real x => Weights.isOne x
  | tropical n => n == some 0

def text : Scalar → String
  | boolean b => Weights.text b
  | integer n => Weights.text n
  | rational q => Weights.text q
  | real x => Weights.text x
  | tropical n => Tropical.text (.ofValue n : Tropical .min)

end Scalar

inductive AnyWeight where
  | scalar (s : Scalar)
  | expression (e : Exp AnyWeight)

namespace AnyWeight

variable {α : Type}

mutual

/-- Computes from the weights inside, once they have been computed from themselves. -/
def fold (scalar : Scalar → α) (expression : Exp α → α) : AnyWeight → α
  | .scalar s => scalar s
  | .expression e => expression (foldExp scalar expression e)

/-- The expression with each weight computed from. -/
def foldExp (scalar : Scalar → α) (expression : Exp α → α) : Exp AnyWeight → Exp α
  | .zero => .zero
  | .one => .one
  | .atom l => .atom l
  | .sum es => .sum (foldExps scalar expression es)
  | .prod es => .prod (foldExps scalar expression es)
  | .conjunction es => .conjunction (foldExps scalar expression es)
  | .shuffle es => .shuffle (foldExps scalar expression es)
  | .star e => .star (foldExp scalar expression e)
  | .transposition e => .transposition (foldExp scalar expression e)
  | .lweight w e => .lweight (fold scalar expression w) (foldExp scalar expression e)
  | .rweight e w => .rweight (foldExp scalar expression e) (fold scalar expression w)
  | .complement e => .complement (foldExp scalar expression e)
  | .tuple es => .tuple (foldExps scalar expression es)

def foldExps (scalar : Scalar → α) (expression : Exp α → α) : List (Exp AnyWeight) → List (Exp α)
  | [] => []
  | e :: es => foldExp scalar expression e :: foldExps scalar expression es

end

/-- The place of a number among weights: expressions come after all numbers. -/
def scalarOrder (s : Scalar) : AnyWeight → Ordering
  | .scalar t => s.order t
  | .expression _ => .lt

/-- The place of an expression among weights, where each weight of it knows its own place. -/
def expressionOrder (e : Exp (AnyWeight → Ordering)) : AnyWeight → Ordering
  | .scalar _ => .gt
  | .expression f => Exp.orderBy (fun place w => place w) e f

/-- The order of weights: by kind, numbers in their own order and expressions in theirs. -/
def order : AnyWeight → AnyWeight → Ordering := fold scalarOrder expressionOrder

def isZero : AnyWeight → Bool
  | scalar s => s.isZero
  | expression e => e.isZero

def isOne : AnyWeight → Bool
  | scalar s => s.isOne
  | expression e => e.isOne

def format (style : Style) : AnyWeight → String := fold Scalar.text (Exp.formatWith id style)

def text (w : AnyWeight) : String := w.format .ascii

/-- The operations of `K` on weights of any kind, with `hold` for the weights of `K` among them.
There are no sums and products with weights of other kinds: such a sum or product stays at its first
operand. -/
@[reducible]
def weights (K : Type) [Weights K] (hold : K → AnyWeight) (take? : AnyWeight → Option K) :
    Weights AnyWeight where
  name := Weights.name K
  zero := hold Weights.zero
  one := hold Weights.one
  add a b := ((take? a).bind fun x => (take? b).map fun y => hold (Weights.add x y)).getD a
  mul a b := ((take? a).bind fun x => (take? b).map fun y => hold (Weights.mul x y)).getD a
  star a :=
    match take? a with
    | some x => (Weights.star x).map hold
    | none => .error (.incompatible (Weights.name K) ("weight " ++ a.text))
  leftQuotient a b := do return hold (← Weights.leftQuotient (← take? a) (← take? b))
  sub a b := do return hold (← Weights.sub (← take? a) (← take? b))
  gcd a b := ((take? a).bind fun x => (take? b).map fun y => hold (Weights.gcd x y)).getD a
  order := order
  isZero := isZero
  isOne := isOne
  ofInt n := hold (Weights.ofInt n)
  mirror a :=
    match take? a with
    | some x => (Weights.mirror x).map hold
    | none => .ok a
  parse cs := (Weights.parse cs).map hold
  format := format
  isCommutative := Weights.isCommutative K
  isBoolean := Weights.isBoolean K
  isAlwaysStarable := Weights.isAlwaysStarable K

end AnyWeight

end WeightedAutomata
