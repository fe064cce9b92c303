import WeightedAutomata.Expression.Build

/-!
Building an expression anew, node by node from the leaves: as it is, or as its mirror image.
-/

namespace WeightedAutomata.ExpressionSet

variable {K : Type} [Weights K]

/-- Combines operands from the left; without operands the result is zero. -/
def chain (op : Exp K → Exp K → Exp K) : List (Exp K) → Exp K
  | [] => .zero
  | e :: es => es.foldl op e

/-- The set of tape `i`, which only sets of tuples have. -/
def requireTape (K : Type) [Weights K] (s : ExpressionSet) (i : Nat) : Result ExpressionSet :=
  match s.tape? i with
  | some tape => .ok tape
  | none => .error (.incompatible "a multi-tape context" (s.contextText K))

mutual

/-- The expression rebuilt from its leaves, with the rules of this set. -/
def normalize (s : ExpressionSet) : Exp K → Result (Exp K)
  | .zero => .ok .zero
  | .one => .ok .one
  | .atom l => .ok (s.atom l)
  | .sum es => return chain s.add (← normalizeEach s es)
  | .prod es => return chain s.mul (← normalizeEach s es)
  | .conjunction es => return chain s.conjunction (← normalizeEach s es)
  | .shuffle es => return chain s.shuffle (← normalizeEach s es)
  | .star e => return s.star (← normalize s e)
  | .transposition e => return s.transposition (← normalize s e)
  | .complement e => do s.complement (← normalize s e)
  | .lweight w e => return s.lweight w (← normalize s e)
  | .rweight e w => return s.rweight (← normalize s e) w
  | .tuple es => do s.tuple (← normalizeTapes s 0 es)

def normalizeEach (s : ExpressionSet) : List (Exp K) → Result (List (Exp K))
  | [] => .ok []
  | e :: es => return (← normalize s e) :: (← normalizeEach s es)

/-- Rebuilds the expressions of the tapes from `i` on. -/
def normalizeTapes (s : ExpressionSet) (i : Nat) : List (Exp K) → Result (List (Exp K))
  | [] => .ok []
  | e :: es => return (← normalize (← s.requireTape K i) e) :: (← normalizeTapes s (i + 1) es)

end

mutual

/-- The mirror image: the transposition pushed down to the labels and weights. -/
def transpose (s : ExpressionSet) : Exp K → Result (Exp K)
  | .zero => .ok .zero
  | .one => .ok .one
  | .atom l => .ok (s.atom l.mirror)
  | .sum es => return chain s.add (← (transposeEach s es).mapM id)
  | .prod es => return chain s.mul (← (transposeEach s es).reverse.mapM id)
  | .conjunction es => return chain s.conjunction (← (transposeEach s es).mapM id)
  | .shuffle es => return chain s.shuffle (← (transposeEach s es).mapM id)
  | .star e => return s.star (← transpose s e)
  | .complement e => do s.complement (← transpose s e)
  | .transposition e => .ok e
  | .lweight w e => return s.rweight (← transpose s e) (← Weights.mirror w)
  | .rweight e w => do
    let w ← Weights.mirror w
    return s.lweight w (← transpose s e)
  | .tuple es => do s.tuple (← transposeTapes s 0 es)

def transposeEach (s : ExpressionSet) : List (Exp K) → List (Result (Exp K))
  | [] => []
  | e :: es => transpose s e :: transposeEach s es

/-- Mirrors the expressions of the tapes from `i` on. -/
def transposeTapes (s : ExpressionSet) (i : Nat) : List (Exp K) → Result (List (Exp K))
  | [] => .ok []
  | e :: es => return (← transpose (← s.requireTape K i) e) :: (← transposeTapes s (i + 1) es)

end

end WeightedAutomata.ExpressionSet
