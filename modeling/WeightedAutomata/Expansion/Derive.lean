import WeightedAutomata.Expansion.Basic

/-!
The expansion of an expression, and its development into weighted monomials.
-/

namespace WeightedAutomata

namespace Expansion

variable {K : Type} [Weights K]

/-- Both sides read the same label. -/
def conjunction (s : ExpressionSet) (x y : Expansion K) : Expansion K :=
  x.polynomials.foldl (fun sum (l, p) =>
    match y.polynomials.get? l with
    | some q => sum.addPolynomial l (p.pairwise s.conjunction q)
    | none => sum) (ofWeight (Weights.mul x.constant y.constant))

/-- Either side reads a label; `e` and `f` are the expressions of the two sides. -/
def shuffle (s : ExpressionSet) (e f : Exp K) (x y : Expansion K) : Expansion K :=
  let left := x.mapPolynomials (Weights.mul x.constant y.constant) (·.map (s.shuffle · f))
  y.polynomials.foldl (fun sum (l, q) => sum.addPolynomial l (q.map (s.shuffle e ·))) left

/-- The shuffle of operands that follow `e`, which has the expansion `x`. -/
def shuffleAll (s : ExpressionSet) : Exp K → Expansion K → List (Exp K × Expansion K) → Expansion K
  | _, x, [] => x
  | e, x, (f, y) :: rest => shuffleAll s (s.shuffle e f) (shuffle s e f x y) rest

/-- The star of `e`, which is the star of an expression with the expansion `x`. -/
def star (s : ExpressionSet) (e : Exp K) (x : Expansion K) : Result (Expansion K) := do
  let c ← Weights.star x.constant
  return x.mapPolynomials c fun p => (p.scaleLeft c).map (s.mul · e)

/-- The labels over which complements are taken. -/
def complementLabels (s : ExpressionSet) : Result (List Label) :=
  match s.labels.isFree, s.labels.generators? with
  | true, some labels => .ok labels
  | _, _ => .error (.precondition "complement"
      ("a free labelset with a closed alphabet, not " ++ s.labels.text))

/-- The complement of an expression with the expansion `x`. -/
def complement (s : ExpressionSet) (labels : List Label) (x : Expansion K) :
    Result (Expansion K) :=
  labels.foldlM (fun sum l => do
    let inner := ((x.polynomials.get? l).map (·.toExp s)).getD .zero
    return sum.addPolynomial l (.monomial (← s.complement inner) Weights.one))
    (ofWeight (Weights.ofBool (Weights.isZero x.constant)))

/-- The ways in which one tape can go on: labels, each with the terms that may follow. The empty
word stands for the end of the tape. -/
def tapeMoves (x : Expansion K) : List (Label × List (Exp K × K)) :=
  let stop := if Weights.isZero x.constant then [] else [(Label.one, [(Exp.one, x.constant)])]
  stop ++ x.polynomials.map fun (l, p) => (l, p.terms)

/-- All ways to choose a move on each tape, the first tape varying slowest: the labels, and the
weighted tuples of what may follow. -/
def jointMoves : List (List (Label × List (Exp K × K))) → List Label → List (List (Exp K) × K) →
    List (List Label × List (List (Exp K) × K))
  | [], labels, terms => [(labels, terms)]
  | moves :: rest, labels, terms =>
    moves.flatMap fun (l, following) =>
      jointMoves rest (labels ++ [l])
        (terms.flatMap fun (es, w) => following.map fun (e, v) => (es ++ [e], Weights.mul w v))

/-- Adds one choice of moves on all tapes. -/
def addJointMove (s : ExpressionSet) (x : Expansion K) (labels : List Label)
    (terms : List (List (Exp K) × K)) : Result (Expansion K) := do
  if labels.all Label.isOne then
    return { x with constant := terms.foldl (fun sum (_, w) => Weights.add sum w) x.constant }
  else if s.labels.contains (.tuple labels) then
    let p ← terms.foldlM (fun (p : Combination K) (es, w) => do
      return p.addTerm (← s.tuple es) w) .zero
    return x.addPolynomial (.tuple labels) p
  else return x

/-- The expansion of a tuple of expressions with these expansions. -/
def tuple (s : ExpressionSet) (tapes : List (Expansion K)) : Result (Expansion K) :=
  (jointMoves (tapes.map tapeMoves) [] [([], Weights.one)]).foldlM
    (fun x (labels, terms) => addJointMove s x labels terms) (ofWeight Weights.zero)

/-- The error for a tuple with more expressions than the labels have tapes. -/
def tapeError (K : Type) [Weights K] (s : ExpressionSet) : Error :=
  match s.labels.tapes? with
  | some tapes => .incompatible (toString tapes.length ++ " tapes") (s.contextText K)
  | none => .incompatible "a multi-tape context" s.labels.text

mutual

/-- The expansion of an expression, with `mirrored` for the expressions below a transposition. -/
def ofExpWith (mirrored : ExpressionSet → Exp K → Result (Expansion K)) (s : ExpressionSet) :
    Exp K → Result (Expansion K)
  | .zero => .ok (ofWeight Weights.zero)
  | .one => .ok (ofWeight Weights.one)
  | .atom l =>
    if l.isOne then .ok (ofWeight Weights.one)
    else .ok ((ofWeight Weights.zero).addPolynomial l (.monomial .one Weights.one))
  | .sum es => return (← ofEach mirrored s es).foldl add (ofWeight Weights.zero)
  | .prod es => ofFactors mirrored s es (ofWeight Weights.one)
  | .star e => do star s (.star e) (← ofExpWith mirrored s e)
  | .lweight k e => return (← ofExpWith mirrored s e).scaleLeft k
  | .rweight e k => return (← ofExpWith mirrored s e).scaleRight s k
  | .conjunction es => do
    match ← ofEach mirrored s es with
    | [] => return ofWeight Weights.zero
    | x :: xs => return xs.foldl (conjunction s) x
  | .shuffle es => do
    match es.zip (← ofEach mirrored s es) with
    | [] => return ofWeight Weights.zero
    | (e, x) :: rest => return shuffleAll s e x rest
  | .complement e => do
    let labels ← complementLabels s
    complement s labels (← ofExpWith mirrored s e)
  | .transposition e => do mirrored s (← s.transpose e)
  | .tuple es =>
    if s.labels.isTuple then do tuple s (← ofTapes mirrored s 0 es)
    else .error (tapeError K s)

def ofEach (mirrored : ExpressionSet → Exp K → Result (Expansion K)) (s : ExpressionSet) :
    List (Exp K) → Result (List (Expansion K))
  | [] => .ok []
  | e :: es => return (← ofExpWith mirrored s e) :: (← ofEach mirrored s es)

/-- The expansion of factors behind what has the expansion `x`. Once that has no constant, the
factors are only appended. -/
def ofFactors (mirrored : ExpressionSet → Exp K → Result (Expansion K)) (s : ExpressionSet) :
    List (Exp K) → Expansion K → Result (Expansion K)
  | [], x => .ok x
  | e :: es, x =>
    if Weights.isZero x.constant then .ok (x.followedBy s (es.foldl s.mul e))
    else do
      let y ← ofExpWith mirrored s e
      let next := (x.followedBy s e).add (y.scaleLeft x.constant)
      ofFactors mirrored s es { next with constant := Weights.mul x.constant y.constant }

/-- The expansions of the expressions on the tapes from `i` on. -/
def ofTapes (mirrored : ExpressionSet → Exp K → Result (Expansion K)) (s : ExpressionSet)
    (i : Nat) : List (Exp K) → Result (List (Expansion K))
  | [] => .ok []
  | e :: es =>
    match s.tape? i with
    | none => .error (tapeError K s)
    | some tape =>
      return (← ofExpWith mirrored tape e) :: (← ofTapes mirrored s (i + 1) es)

end

/-- The expansion of an expression in which transpositions are nested `depth` deep at most. Mirror
images have one transposition less on each way down. -/
def ofExpWithin : Nat → ExpressionSet → Exp K → Result (Expansion K)
  | 0, s, e => ofExpWith (fun _ _ => .ok (ofWeight Weights.zero)) s e
  | depth + 1, s, e => ofExpWith (ofExpWithin depth) s e

/-- The expansion of an expression. -/
def ofExp (s : ExpressionSet) (e : Exp K) : Result (Expansion K) := ofExpWithin e.depth s e

end Expansion

namespace ExpressionSet

variable {K : Type} [Weights K]

/-- The weight of the empty word. -/
def constantTerm (s : ExpressionSet) (e : Exp K) : Result K :=
  return (← Expansion.ofExp s e).constant

mutual

/-- The weighted monomials of an expression. Sums, products, conjunctions and shuffles are
distributed; every other node is a monomial. -/
def develop (s : ExpressionSet) : Exp K → Combination K
  | .zero => .zero
  | .sum es => developSum s es .zero
  | .prod [] | .conjunction [] | .shuffle [] => .zero
  | .prod (e :: es) => developWith s s.mul es (develop s e)
  | .conjunction (e :: es) => developWith s s.conjunction es (develop s e)
  | .shuffle (e :: es) => developWith s s.shuffle es (develop s e)
  | .lweight k e => (develop s e).scaleLeft k
  | .rweight e k => (develop s e).scaleRight s k
  | e => .monomial e Weights.one

/-- Adds the monomials of the terms. -/
def developSum (s : ExpressionSet) : List (Exp K) → Combination K → Combination K
  | [], p => p
  | e :: es, p => developSum s es (p.add (develop s e))

/-- Combines the monomials of the operands. -/
def developWith (s : ExpressionSet) (op : Exp K → Exp K → Exp K) :
    List (Exp K) → Combination K → Combination K
  | [], p => p
  | e :: es, p => developWith s op es (p.pairwise op (develop s e))

end

/-- The sum of the weighted monomials of an expression. -/
def expand (s : ExpressionSet) (e : Exp K) : Exp K := (s.develop e).toExp s

end ExpressionSet

end WeightedAutomata
