import WeightedAutomata.Context.AnyWeight
import WeightedAutomata.Expression.Canonical
import WeightedAutomata.Expression.Rebuild

/-!
The weight sets that a context can name, and the weights that belong to each. Expressions over a
further context are weights too, and may have weights of any kind inside.
-/

namespace WeightedAutomata

inductive WeightSet where
  | boolean
  | integer
  | rational
  | real
  | tropical (e : Extremum)
  | expressions (s : ExpressionSet) (inner : WeightSet)
  deriving DecidableEq, Repr

/-- Expressions as weights: sums, products and stars are those of the expression set. -/
@[reducible]
def expressionWeights (s : ExpressionSet) (K : Type) [Weights K] : Weights (Exp K) where
  name := "expressionset<" ++ s.contextText K ++ ">"
  zero := .zero
  one := .one
  add := s.add
  mul := s.mul
  star e := .ok (s.star e)
  leftQuotient _ _ := none
  sub _ _ := none
  gcd _ _ := .one
  order := Exp.order
  isZero := Exp.isZero
  isOne := Exp.isOne
  ofInt n := s.lweight (Weights.ofInt n) .one
  mirror := s.transpose
  parse := s.parse
  format := Exp.format
  isCommutative := false
  isBoolean := false
  isAlwaysStarable := true

namespace WeightSet

/-- The weights of a weight set. -/
def Carrier : WeightSet → Type
  | boolean => Bool
  | integer => Int
  | rational => Rat
  | real => RealWeight
  | tropical e => Tropical e
  | expressions _ _ => Exp AnyWeight

/-- A weight of a weight set among the weights of any kind. -/
def hold : (ws : WeightSet) → ws.Carrier → AnyWeight
  | boolean, b => .scalar (.boolean b)
  | integer, n => .scalar (.integer n)
  | rational, q => .scalar (.rational q)
  | real, x => .scalar (.real x)
  | tropical _, t => .scalar (.tropical t.value?)
  | expressions _ _, e => .expression e

/-- The weight of a weight set that has the form of a given weight. -/
def take? : (ws : WeightSet) → AnyWeight → Option ws.Carrier
  | boolean, .scalar (.boolean b) => some b
  | integer, .scalar (.integer n) => some n
  | rational, .scalar (.rational q) => some q
  | real, .scalar (.real x) => some x
  | tropical e, .scalar (.tropical n) => some (Tropical.ofValue (e := e) n)
  | expressions _ _, .expression e => some e
  | _, _ => none

/-- Whether a weight has the form of the weights of a set. The weights inside an expression are not
looked at. -/
def contains (ws : WeightSet) (w : AnyWeight) : Bool := (ws.take? w).isSome

/-- The operations on the weights of a weight set. -/
@[reducible]
def weights : (ws : WeightSet) → Weights ws.Carrier
  | boolean => inferInstanceAs (Weights Bool)
  | integer => inferInstanceAs (Weights Int)
  | rational => inferInstanceAs (Weights Rat)
  | real => inferInstanceAs (Weights RealWeight)
  | tropical e => inferInstanceAs (Weights (Tropical e))
  | expressions s inner =>
    @expressionWeights s AnyWeight
      (@AnyWeight.weights inner.Carrier inner.weights inner.hold inner.take?)

instance (ws : WeightSet) : Weights ws.Carrier := ws.weights

/-- The operations of a weight set, on weights of any kind. -/
@[reducible]
def anyWeights (ws : WeightSet) : Weights AnyWeight :=
  AnyWeight.weights ws.Carrier ws.hold ws.take?

/-- The descriptor of a weight set. -/
def text (ws : WeightSet) : String := Weights.name ws.Carrier

/-- The weight sets with a name of their own. -/
def named : List (String × WeightSet) :=
  [("b", boolean), ("z", integer), ("q", rational), ("r", real), ("zmin", tropical .min),
    ("zmax", tropical .max)]

/-- The weight set with this name, in capitals or not. -/
def ofName? (name : List Char) : Option WeightSet :=
  named.lookup (String.ofList ((Text.trim name).map Decimal.lower))

/-- The place in the chain of Boolean, integer, rational and real weights. -/
def numericRank? : WeightSet → Option Nat
  | boolean => some 0
  | integer => some 1
  | rational => some 2
  | real => some 3
  | _ => none

/-- The smallest weight set that both embed into. -/
def join (a b : WeightSet) : Option WeightSet :=
  if a = b then some a
  else
    match a.numericRank?, b.numericRank? with
    | some m, some n => some (if n ≤ m then a else b)
    | _, _ => none

/-- Whether every weight of `a` has an image in `b`. -/
def embedsInto (a : WeightSet) : WeightSet → Bool
  | expressions s inner => a == expressions s inner || a.embedsInto inner
  | b => a.join b == some b

/-- The order of weights of two sets, which is that of all weights. -/
def order (a b : WeightSet) (v : a.Carrier) (w : b.Carrier) : Ordering :=
  (a.hold v).order (b.hold w)

end WeightSet

end WeightedAutomata
