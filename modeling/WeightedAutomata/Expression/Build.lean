import WeightedAutomata.Expression.Basic
import WeightedAutomata.Expression.Identities

/-!
Building expressions. Each operation applies the rules of its level of identities to operands that
have been built at that level, so that its result is again in normal form.
-/

namespace WeightedAutomata

/-- Where expressions are built: the labels of their atoms and the rules in force. -/
structure ExpressionSet where
  labels : LabelSet
  identities : Identities
  deriving DecidableEq, Repr

/-- The result of looking for a place in a sorted list. -/
inductive Place where
  | found (i : Nat)
  | absent (i : Nat)
  deriving DecidableEq, Repr

namespace Place

/-- Halves the stretch of `size` elements from `base` on until one is left. -/
def narrow {α : Type} (order : α → Ordering) (xs : List α) : Nat → Nat → Nat → Nat
  | 0, base, _ => base
  | fuel + 1, base, size =>
    if size ≤ 1 then base
    else
      let middle := base + size / 2
      let next := if xs[middle]?.map order == some .gt then base else middle
      narrow order xs fuel next (size - size / 2)

/-- Binary search for the element that `order` puts at the same place. -/
def search {α : Type} (order : α → Ordering) (xs : List α) : Place :=
  let base := narrow order xs xs.length 0 xs.length
  match xs[base]?.map order with
  | none => absent 0
  | some .eq => found base
  | some .lt => absent (base + 1)
  | some .gt => absent base

end Place

namespace ExpressionSet

variable {K : Type} [Weights K]

/-- The descriptor of the context of the set. -/
def contextText (K : Type) [Weights K] (s : ExpressionSet) : String :=
  s.labels.text ++ ", " ++ Weights.name K

/-- Whether the rules of `lower` are in force. -/
def uses (s : ExpressionSet) (lower : Identities) : Bool := s.identities.includes lower

/-- The set of the expressions on one tape. -/
def tape? (s : ExpressionSet) (i : Nat) : Option ExpressionSet :=
  (s.labels.tape? i).map fun ls => { s with labels := ls }

/-- The expression of a label. -/
def atom (_ : ExpressionSet) (l : Label) : Exp K := if l.isOne then .one else .atom l

/-- The operands of `e` if it is a node of this kind and such nodes are flattened, else `e`. -/
def spread (s : ExpressionSet) (kind : Exp.Kind) (e : Exp K) : List (Exp K) :=
  if s.uses .associative && e.kind = kind then e.children else [e]

/-! ### Sums and left weights -/

/-- A sum of sorted terms as an expression. -/
def ofTerms : List (Exp K) → Exp K
  | [] => .zero
  | [e] => e
  | es => .sum es

/-- Adds one term to sorted terms. Terms that differ only by their left weight are merged, and
`scale` puts the new weight on them. -/
def insertTerm (scale : K → Exp K → Exp K) (terms : List (Exp K)) (t : Exp K) : List (Exp K) :=
  match Place.search (fun x => x.bare.order t.bare) terms with
  | .absent i => terms.insertIdx i t
  | .found i =>
    let w := Weights.add ((terms[i]?.map Exp.leftWeight).getD Weights.zero) t.leftWeight
    if Weights.isZero w then terms.eraseIdx i else terms.set i (scale w t.bare)

/-- The sum of two expressions, with `scale` for the weights of merged terms. -/
def addWith (s : ExpressionSet) (scale : K → Exp K → Exp K) (l r : Exp K) : Exp K :=
  if !s.uses .trivial then .sum [l, r]
  else if l.isZero then r
  else if r.isZero then l
  else if s.uses .linear then ofTerms (r.terms.foldl (insertTerm scale) l.terms)
  else .sum (s.spread .sum l ++ s.spread .sum r)

mutual

/-- The expression with a left weight, with `merge` for the weights of merged terms. -/
def scaleWith (s : ExpressionSet) (merge : K → Exp K → Exp K) : Exp K → K → Exp K
  | e, w =>
    if !s.uses .trivial then .lweight w e
    else if e.isZero || Weights.isOne w then e
    else if Weights.isZero w then .zero
    else
      match e with
      | .lweight h sub => scaleWith s merge sub (Weights.mul w h)
      | .sum es => if s.uses .linear then scaleTerms s merge es w .zero else .lweight w e
      | e => .lweight w e

/-- Adds the terms, each with a left weight, to `acc`. -/
def scaleTerms (s : ExpressionSet) (merge : K → Exp K → Exp K) : List (Exp K) → K → Exp K → Exp K
  | [], _, acc => acc
  | t :: ts, w, acc => scaleTerms s merge ts w (s.addWith merge acc (scaleWith s merge t w))

end

/-- The expression with a left weight. Merged terms lie below the sum that is scaled, so that
nesting deeper than `depth` does not arise in expressions of that size. -/
def scaleWithin (s : ExpressionSet) : Nat → K → Exp K → Exp K
  | 0, w, e => .lweight w e
  | depth + 1, w, e => s.scaleWith (s.scaleWithin depth) e w

/-- `<w>E`. -/
def lweight (s : ExpressionSet) (w : K) (e : Exp K) : Exp K := s.scaleWithin e.size w e

/-- `E+F`. -/
def add (s : ExpressionSet) (l r : Exp K) : Exp K := s.addWith (s.scaleWithin r.size) l r

/-- The sum of a list. -/
def sum (s : ExpressionSet) (es : List (Exp K)) : Exp K := es.foldl s.add .zero

/-! ### Right weights -/

mutual

/-- `E<w>`. -/
def rweight (s : ExpressionSet) : Exp K → K → Exp K
  | e, w =>
    if !s.uses .trivial then .rweight e w
    else if Weights.isZero w then .zero
    else if Weights.isOne w then e
    else if e.isLeaf then s.lweight w e
    else
      match e with
      | .lweight k sub => s.lweight k (rweight s sub w)
      | .rweight sub k => rweight s sub (Weights.mul k w)
      | .sum es =>
        if s.uses .linear then rweightTerms s es w .zero else .rweight e w
      | e =>
        if s.uses .linear && Weights.isCommutative K then s.lweight w e else .rweight e w

/-- Adds the terms, each with a right weight, to `acc`. -/
def rweightTerms (s : ExpressionSet) : List (Exp K) → K → Exp K → Exp K
  | [], _, acc => acc
  | t :: ts, w, acc => rweightTerms s ts w (s.add acc (rweight s t w))

end

/-! ### Products -/

/-- Appends factors; in a set of words, two atoms that meet become one. -/
def joinFactors (s : ExpressionSet) (ls rs : List (Exp K)) : List (Exp K) :=
  match s.labels.isWords, ls.getLast?, rs with
  | true, some (.atom a), .atom b :: rest =>
    match s.labels.concat a b with
    | .ok word => ls.dropLast ++ s.atom word :: rest
    | .error _ => ls ++ rs
  | _, _, _ => ls ++ rs

/-- The product of two expressions, without simplification. -/
def product (s : ExpressionSet) (l r : Exp K) : Exp K :=
  match s.joinFactors (s.spread .prod l) (s.spread .prod r) with
  | [e] => e
  | es => .prod es

/-- The product of expressions none of which is zero or a weighted one: at the linear level their
weights move to the front. -/
def weightedProduct (s : ExpressionSet) (l r : Exp K) : Exp K :=
  if s.uses .linear then
    if Weights.isCommutative K then
      s.lweight (Weights.mul l.leftWeight r.leftWeight) (s.product l.bare r.bare)
    else s.lweight l.leftWeight (s.product l.bare r)
  else s.product l r

/-- The product with units and absorbing elements simplified; `general` is the product of all
other expressions. -/
def mulWith (s : ExpressionSet) (general : Unit → Exp K) (l r : Exp K) : Exp K :=
  if !s.uses .trivial then s.product l r
  else if l.isZero then l
  else if r.isZero then r
  else if r.bare.isOne then s.rweight l r.leftWeight
  else if l.bare.isOne then s.lweight l.leftWeight r
  else general ()

mutual

/-- The product with an expression on the left that is not distributed. -/
def mulRight (s : ExpressionSet) (l : Exp K) : Exp K → Exp K
  | .sum es =>
    s.mulWith (fun _ =>
      if s.uses .distributive then mulRightTerms s l es .zero
      else s.weightedProduct l (.sum es)) l (.sum es)
  | r => s.mulWith (fun _ => s.weightedProduct l r) l r

def mulRightTerms (s : ExpressionSet) (l : Exp K) : List (Exp K) → Exp K → Exp K
  | [], acc => acc
  | t :: ts, acc => mulRightTerms s l ts (s.add acc (mulRight s l t))

end

mutual

/-- `EF`. -/
def mul (s : ExpressionSet) : Exp K → Exp K → Exp K
  | .sum es, r =>
    if s.uses .distributive then s.mulWith (fun _ => mulTerms s es r .zero) (.sum es) r
    else s.mulRight (.sum es) r
  | l, r => s.mulRight l r

def mulTerms (s : ExpressionSet) : List (Exp K) → Exp K → Exp K → Exp K
  | [], _, acc => acc
  | t :: ts, r, acc => mulTerms s ts r (s.add acc (mul s t r))

end

/-- `E{n}`, the `n`-fold product. -/
def powerExact (s : ExpressionSet) (e : Exp K) : Nat → Exp K
  | 0 => .one
  | 1 => e
  | n + 2 => s.mul (powerExact s e (n + 1)) e

/-! ### Other operators -/

/-- `E&F`. -/
def conjunction (s : ExpressionSet) (l r : Exp K) : Exp K :=
  let node := Exp.conjunction (s.spread .conjunction l ++ s.spread .conjunction r)
  if !s.uses .trivial then node
  else if l.isZero then l
  else if r.isZero then r
  else
    match l.bare, r.bare with
    | .one, .one => s.lweight (Weights.mul l.leftWeight r.leftWeight) .one
    | .atom a, .atom b => if a = b then s.rweight l r.leftWeight else .zero
    | .one, .atom _ => .zero
    | .atom _, .one => .zero
    | _, _ => node

/-- `E:F`. -/
def shuffle (s : ExpressionSet) (l r : Exp K) : Exp K :=
  let node := Exp.shuffle (s.spread .shuffle l ++ s.spread .shuffle r)
  if !s.uses .trivial then node
  else if l.isZero then l
  else if r.isZero then r
  else if l.isOne then r
  else if r.isOne then l
  else node

/-- `E*`. -/
def star (s : ExpressionSet) (e : Exp K) : Exp K :=
  if s.uses .trivial && e.isZero then .one else .star e

/-- The complement node of `e`, below its weights if weights are simplified. -/
def complementNode (s : ExpressionSet) : Exp K → Exp K
  | .lweight w e => if s.uses .trivial then complementNode s e else .complement (.lweight w e)
  | .rweight e w => if s.uses .trivial then complementNode s e else .complement (.rweight e w)
  | e => .complement e

/-- `E{c}`, which only Boolean weights have. -/
def complement (s : ExpressionSet) (e : Exp K) : Result (Exp K) :=
  if Weights.isBoolean K then .ok (s.complementNode e)
  else .error (.unsupportedWeights "complement" (Weights.name K))

/-- `E%F`, what is in `E` and not in `F`. -/
def difference (s : ExpressionSet) (l r : Exp K) : Result (Exp K) :=
  return s.conjunction l (← s.complement r)

/-- `E{T}`. -/
def transposition (s : ExpressionSet) (e : Exp K) : Exp K :=
  if !s.uses .trivial then .transposition e
  else
    match e with
    | .zero => .zero
    | .one => .one
    | .atom l => s.atom l.mirror
    | e => .transposition e

/-- The bounds of a repetition, as errors show them. -/
def boundsText (min max : Nat) : String :=
  "\x7b" ++ toString min ++ "," ++ toString max ++ "\x7d"

/-- From `min` to `max` copies of `e`; without `max`, `min` copies or more. -/
def power (s : ExpressionSet) (e : Exp K) (min : Nat) (max : Option Nat) : Result (Exp K) :=
  let base := s.powerExact e min
  match max with
  | none => .ok (s.mul base (s.star e))
  | some max =>
    if max < min then
      .error (.malformed ⟨0, 1⟩ ("invalid repetition bounds: " ++ boundsText min max))
    else if max = min then .ok base
    else .ok (s.mul base (s.powerExact (s.add .one e) (max - min)))

/-- The label of an expression that is one. -/
def labelOf? : Exp K → Option Label
  | .atom l => some l
  | .one => some .one
  | _ => none

/-- Refuses a number of tapes that labels of the set do not have. -/
def requireTapes (K : Type) [Weights K] (s : ExpressionSet) (count : Nat) : Result Unit :=
  match s.labels.tapes? with
  | some sets =>
    if count = sets.length then .ok ()
    else .error (.incompatible (toString sets.length ++ " tapes")
      (toString count ++ " tapes in " ++ s.contextText K))
  | none => .error (.incompatible "a multi-tape context" (s.contextText K))

/-- `E|F` for as many tapes as the labels have. Labels on all tapes make an atom. -/
def joinTapes (s : ExpressionSet) (tapes : List (Exp K)) : Exp K :=
  let node := if s.uses .trivial && tapes.any Exp.isZero then .zero else .tuple tapes
  match tapes.mapM labelOf? with
  | none => node
  | some labels =>
    let l := Label.tuple labels
    if l.isOne then .one else if s.labels.contains l then s.atom l else node

/-- `E|F`, one expression for each tape. -/
def tuple (s : ExpressionSet) (tapes : List (Exp K)) : Result (Exp K) := do
  s.requireTapes K tapes.length
  return s.joinTapes tapes

end ExpressionSet

end WeightedAutomata
