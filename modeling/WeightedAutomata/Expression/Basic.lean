import WeightedAutomata.Label.Set
import WeightedAutomata.Weights.Basic

/-!
Rational expressions over labels and weights, and their order.
-/

namespace WeightedAutomata

inductive Exp (K : Type) where
  | zero
  | one
  | atom (label : Label)
  | sum (terms : List (Exp K))
  | prod (factors : List (Exp K))
  | conjunction (operands : List (Exp K))
  | shuffle (operands : List (Exp K))
  | star (e : Exp K)
  | transposition (e : Exp K)
  | lweight (w : K) (e : Exp K)
  | rweight (e : Exp K) (w : K)
  | complement (e : Exp K)
  /-- One expression for each tape. -/
  | tuple (tapes : List (Exp K))
  deriving Repr, Inhabited

namespace Exp

variable {K : Type}

mutual

/-- The number of nodes. -/
def size : Exp K → Nat
  | zero | one | atom _ => 1
  | sum es | prod es | conjunction es | shuffle es | tuple es => 1 + sizes es
  | star e | transposition e | lweight _ e | rweight e _ | complement e => 1 + e.size

/-- The number of nodes of a list of expressions. -/
def sizes : List (Exp K) → Nat
  | [] => 0
  | e :: es => e.size + sizes es

end

mutual

/-- The number of nodes on the longest way down. -/
def depth : Exp K → Nat
  | zero | one | atom _ => 1
  | sum es | prod es | conjunction es | shuffle es | tuple es => 1 + maxDepth es
  | star e | transposition e | lweight _ e | rweight e _ | complement e => 1 + e.depth

/-- The greatest depth in a list of expressions. -/
def maxDepth : List (Exp K) → Nat
  | [] => 0
  | e :: es => max e.depth (maxDepth es)

end

/-- The direct sub-expressions. -/
def children : Exp K → List (Exp K)
  | zero | one | atom _ => []
  | sum es | prod es | conjunction es | shuffle es | tuple es => es
  | star e | transposition e | lweight _ e | rweight e _ | complement e => [e]

/-- The kinds of nodes, in the order of expressions of one size. -/
inductive Kind where
  | zero | one | atom | sum | prod | conjunction | shuffle | star | transposition | lweight
  | rweight | complement | tuple
  deriving DecidableEq, Repr

namespace Kind

def all : List Kind :=
  [zero, one, atom, sum, prod, conjunction, shuffle, star, transposition, lweight, rweight,
    complement, tuple]

def rank : Kind → Nat
  | zero => 0
  | one => 1
  | atom => 2
  | sum => 3
  | prod => 4
  | conjunction => 5
  | shuffle => 6
  | star => 7
  | transposition => 8
  | lweight => 9
  | rweight => 10
  | complement => 11
  | tuple => 12

def name : Kind → String
  | zero => "zero"
  | one => "one"
  | atom => "atom"
  | sum => "sum"
  | prod => "prod"
  | conjunction => "conjunction"
  | shuffle => "shuffle"
  | star => "star"
  | transposition => "transposition"
  | lweight => "lweight"
  | rweight => "rweight"
  | complement => "complement"
  | tuple => "tuple"

end Kind

def kind : Exp K → Kind
  | zero => .zero
  | one => .one
  | atom _ => .atom
  | sum _ => .sum
  | prod _ => .prod
  | conjunction _ => .conjunction
  | shuffle _ => .shuffle
  | star _ => .star
  | transposition _ => .transposition
  | lweight _ _ => .lweight
  | rweight _ _ => .rweight
  | complement _ => .complement
  | tuple _ => .tuple

mutual

/-- The number of nodes of one kind. -/
def count (k : Kind) : Exp K → Nat
  | zero => if k = .zero then 1 else 0
  | one => if k = .one then 1 else 0
  | atom _ => if k = .atom then 1 else 0
  | sum es => (if k = .sum then 1 else 0) + counts k es
  | prod es => (if k = .prod then 1 else 0) + counts k es
  | conjunction es => (if k = .conjunction then 1 else 0) + counts k es
  | shuffle es => (if k = .shuffle then 1 else 0) + counts k es
  | star e => (if k = .star then 1 else 0) + count k e
  | transposition e => (if k = .transposition then 1 else 0) + count k e
  | lweight _ e => (if k = .lweight then 1 else 0) + count k e
  | rweight e _ => (if k = .rweight then 1 else 0) + count k e
  | complement e => (if k = .complement then 1 else 0) + count k e
  | tuple es => (if k = .tuple then 1 else 0) + counts k es

/-- The number of nodes of one kind in a list of expressions. -/
def counts (k : Kind) : List (Exp K) → Nat
  | [] => 0
  | e :: es => count k e + counts k es

end

def isZero : Exp K → Bool
  | zero => true
  | _ => false

def isOne : Exp K → Bool
  | one => true
  | _ => false

def isLeaf : Exp K → Bool
  | zero | one | atom _ => true
  | _ => false

/-- The expression without its left weight. -/
def bare : Exp K → Exp K
  | lweight _ e => e
  | e => e

/-- The terms of a sum; any other expression is a sum of one term. -/
def terms : Exp K → List (Exp K)
  | sum es => es
  | e => [e]

/-- The left weight, one where there is none. -/
def leftWeight [Weights K] : Exp K → K
  | lweight w _ => w
  | _ => Weights.one

variable {L : Type}

mutual

/-- The order of expressions: by size, then by kind, then by their parts. The weight of a weighted
expression counts last, in the order `weights`. -/
def orderBy (weights : K → L → Ordering) : Exp K → Exp L → Ordering
  | atom a, atom b => a.order b
  | sum es, sum fs => (compare (sizes es) (sizes fs)).then (orderListBy weights es fs)
  | prod es, prod fs => (compare (sizes es) (sizes fs)).then (orderListBy weights es fs)
  | conjunction es, conjunction fs =>
    (compare (sizes es) (sizes fs)).then (orderListBy weights es fs)
  | shuffle es, shuffle fs => (compare (sizes es) (sizes fs)).then (orderListBy weights es fs)
  | tuple es, tuple fs => (compare (sizes es) (sizes fs)).then (orderListBy weights es fs)
  | star e, star f => orderBy weights e f
  | transposition e, transposition f => orderBy weights e f
  | complement e, complement f => orderBy weights e f
  | lweight v e, lweight w f => (orderBy weights e f).then (weights v w)
  | rweight e v, rweight f w => (orderBy weights e f).then (weights v w)
  | e, f => (compare e.size f.size).then (compare e.kind.rank f.kind.rank)

/-- The order of lists of expressions: place by place, a proper beginning first. -/
def orderListBy (weights : K → L → Ordering) : List (Exp K) → List (Exp L) → Ordering
  | [], [] => .eq
  | [], _ :: _ => .lt
  | _ :: _, [] => .gt
  | e :: es, f :: fs => (orderBy weights e f).then (orderListBy weights es fs)

end

variable [Weights K]

/-- The order of expressions with the weights in their own order. -/
def order : Exp K → Exp K → Ordering := orderBy Weights.order

instance : Ord (Exp K) := ⟨order⟩

/-- Whether two expressions are the same tree. -/
def same (e f : Exp K) : Bool := order e f == .eq

end Exp

end WeightedAutomata
