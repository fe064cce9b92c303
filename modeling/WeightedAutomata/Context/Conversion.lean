import WeightedAutomata.Context.Basic

/-!
Labels, weights and expressions carried from one context to another. Labels go from letters to
nullable sets and words, weights along the chain of Boolean, integer, rational and real numbers, and
every weight into expressions over its kind.
-/

namespace WeightedAutomata

namespace LabelSet

mutual

/-- Whether the labels of `a` have the shape of labels of `b`, alphabets aside. -/
def sameShape : LabelSet → LabelSet → Bool
  | letters _, letters _ | letters _, nullable _ | letters _, words _ => true
  | nullable _, nullable _ | nullable _, words _ => true
  | words _, words _ => true
  | tuple as, tuple bs => sameShapes as bs
  | _, _ => false

def sameShapes : List LabelSet → List LabelSet → Bool
  | [], [] => true
  | a :: as, b :: bs => sameShape a b && sameShapes as bs
  | _, _ => false

end

/-- The label of `target` for a label of `source`. -/
def cast (target source : LabelSet) (l : Label) : Result Label :=
  if sameShape source target then target.convert source l
  else .error (.incompatible target.text source.text)

end LabelSet

namespace ExpressionSet

variable {K L : Type} [Weights K] [Weights L]

mutual

/-- The expression rebuilt in `target`, from the leaves; `weight` carries the weights. -/
def castExp (weight : K → Result L) (target source : ExpressionSet) : Exp K → Result (Exp L)
  | .zero => .ok .zero
  | .one => .ok .one
  | .atom l => return target.atom (← target.labels.cast source.labels l)
  | .sum es => return chain target.add (← castEach weight target source es)
  | .prod es => return chain target.mul (← castEach weight target source es)
  | .conjunction es => return chain target.conjunction (← castEach weight target source es)
  | .shuffle es => return chain target.shuffle (← castEach weight target source es)
  | .star e => return target.star (← castExp weight target source e)
  | .transposition e => return target.transposition (← castExp weight target source e)
  | .complement e => do target.complement (← castExp weight target source e)
  | .lweight w e => do
    let w ← weight w
    return target.lweight w (← castExp weight target source e)
  | .rweight e w => return target.rweight (← castExp weight target source e) (← weight w)
  | .tuple es => do target.tuple (← castTapes weight target source 0 es)

def castEach (weight : K → Result L) (target source : ExpressionSet) :
    List (Exp K) → Result (List (Exp L))
  | [] => .ok []
  | e :: es => return (← castExp weight target source e) :: (← castEach weight target source es)

/-- Carries the expressions of the tapes from `i` on. -/
def castTapes (weight : K → Result L) (target source : ExpressionSet) (i : Nat) :
    List (Exp K) → Result (List (Exp L))
  | [] => .ok []
  | e :: es =>
    match source.tape? i, target.tape? i with
    | some tape, some tape' =>
      return (← castExp weight tape' tape e) :: (← castTapes weight target source (i + 1) es)
    | _, _ => .error (.incompatible (target.contextText L) (source.contextText K))

end

end ExpressionSet

namespace WeightSet

/-- The number in another set of numbers that contains it. -/
def castScalar? : WeightSet → Scalar → Option Scalar
  | integer, .boolean b => some (.integer (Weights.ofBool b))
  | rational, .boolean b => some (.rational (Weights.ofBool b))
  | real, .boolean b => some (.real (Weights.ofBool b))
  | rational, .integer n => some (.rational n)
  | real, .integer n => some (.real (.ofInt n))
  | real, .rational q => some (.real (.ofRat q))
  | _, _ => none

/-- The weight of `target` for a weight of `source`. What becomes of a number depends on its own
kind, which inside an expression need not be that of `source`. -/
def castAny (target source : WeightSet) (w : AnyWeight) : Result AnyWeight :=
  if source = target then .ok w
  else
    match target, w with
    | expressions s inner, .expression e =>
      match source with
      | expressions s' inner' =>
        .expression <$>
          @ExpressionSet.castExp _ _ inner'.anyWeights inner.anyWeights (castAny inner inner') s s' e
      | source => .error (.incompatible (expressions s inner).text source.text)
    | expressions s inner, w => do
      let w ← castAny inner source w
      return .expression (@ExpressionSet.lweight _ inner.anyWeights s w .one)
    | target, .scalar n =>
      match target.castScalar? n with
      | some n => .ok (.scalar n)
      | none => .error (.incompatible target.text source.text)
    | target, _ => .error (.incompatible target.text source.text)

/-- The weight of `target` for a weight of `source`. -/
def cast (target source : WeightSet) (w : source.Carrier) : Result target.Carrier := do
  match target.take? (← castAny target source (source.hold w)) with
  | some w => .ok w
  | none => .error (.incompatible target.text source.text)

/-- The weight of `target` that has the form of a weight of `source`. -/
def reread? (target source : WeightSet) (w : source.Carrier) : Option target.Carrier :=
  target.take? (source.hold w)

end WeightSet

end WeightedAutomata
