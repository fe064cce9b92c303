import WeightedAutomata.Polynomial.Basic

/-!
Left division of polynomials, and common left divisors.
-/

namespace WeightedAutomata.Polynomial

variable {K : Type} [Weights K]

/-- The rest of `l` after `front`, if `l` starts with it. -/
def stripFront (ls : LabelSet) (front l : Label) : Option Label :=
  if front.letters.isPrefixOf l.letters then
    (ls.word (l.letters.drop front.letters.length)).toOption
  else none

/-- Whether weights can be subtracted. -/
def isRing (K : Type) [Weights K] : Bool :=
  (Weights.sub (Weights.one : K) Weights.one).isSome

/-- What is left of `remainder` after a partial product: the difference where there is one, else
the terms that the product does not have. -/
def reduce (remainder product : Polynomial K) : Polynomial K :=
  if isRing K then
    product.terms.foldl (fun p (l, w) =>
      p.addTerm l ((Weights.sub Weights.zero w).getD Weights.zero)) remainder
  else ⟨product.terms.foldl (fun terms (l, _) => terms.erase l) remainder.terms⟩

/-- What division needs to know of the divisor and the dividend. -/
structure Division (K : Type) where
  labels : LabelSet
  divisor : Polynomial K
  dividend : Polynomial K
  /-- The first term of the divisor. -/
  lead : Label
  leadWeight : K
  /-- The greatest length of a label of the quotient. -/
  bound : Nat

namespace Division

/-- The term of the quotient that the first term of the remainder asks for. -/
def nextTerm (d : Division K) (l : Label) (w : K) : Result (Polynomial K) := do
  match stripFront d.labels d.lead l with
  | none => .error (.notDivisible (d.lead.text ++ " is not a prefix of " ++ l.text))
  | some rest =>
    if rest.length > d.bound then
      .error (.notDivisible
        ("quotient of " ++ d.dividend.text ++ " by " ++ d.divisor.text ++ " is unbounded"))
    else
      match Weights.leftQuotient d.leadWeight w with
      | none => .error (.notDivisible
          (Weights.text d.leadWeight ++ " does not divide " ++ Weights.text w))
      | some quotient => return monomial rest quotient

/-- Takes terms off the remainder until none is left. -/
def run (d : Division K) : Nat → Polynomial K → Polynomial K → Result (Polynomial K)
  | 0, _, _ => .error (.notDivisible "out of steps")
  | fuel + 1, quotient, remainder =>
    match remainder.terms with
    | [] => .ok quotient
    | (l, w) :: _ => do
      let term ← d.nextTerm l w
      let product ← mul d.labels d.divisor term
      run d fuel (quotient.add term) (reduce remainder product)

end Division

/-- The letters of all labels. -/
def letters (p : Polynomial K) : List Char := p.terms.flatMap fun (l, _) => l.letters

/-- More steps than a division takes: each step settles one more word over the letters of both
polynomials that is not longer than the dividend. -/
def divisionFuel (p q : Polynomial K) : Nat :=
  Nat.pow (p.letters.length + q.letters.length + 2) (q.maxLength + 1) + 1

/-- The polynomial `r` with `p * r = q`. -/
def leftQuotient (ls : LabelSet) (p q : Polynomial K) : Result (Polynomial K) :=
  if ls.isTuple then .error (.notDivisible "multi-tape polynomials")
  else
    match p.terms with
    | [] => .error (.notDivisible "division by zero")
    | (lead, leadWeight) :: _ =>
      if !q.isZero && p.maxLength > q.maxLength then
        .error (.notDivisible (p.text ++ " is longer than " ++ q.text))
      else do
        let d : Division K := ⟨ls, p, q, lead, leadWeight, q.maxLength - p.maxLength⟩
        let quotient ← d.run (divisionFuel p q) zero q
        let product ← mul ls p quotient
        if product.same q then return quotient
        else .error (.notDivisible (p.text ++ " does not divide " ++ q.text))

/-- The longest common beginning. -/
def commonFront : List Char → List Char → List Char
  | c :: u, d :: v => if c = d then c :: commonFront u v else []
  | _, _ => []

/-- The longest common beginning of a list of texts. -/
def commonFronts : List (List Char) → List Char
  | [] => []
  | u :: us => us.foldl commonFront u

/-- A common divisor of weights; one for the divisor zero. -/
def commonWeight : List K → K
  | [] => Weights.one
  | w :: ws =>
    let common := ws.foldl Weights.gcd w
    if Weights.isZero common then Weights.one else common

/-- A common left divisor: one of the polynomials if it divides the other, else the longest common
beginning of all labels with a common divisor of all weights. -/
def leftGcd (ls : LabelSet) (p q : Polynomial K) : Result (Polynomial K) := do
  if p.isZero then return q
  else if q.isZero || p.same q || (leftQuotient ls p q).succeeded then return p
  else if (leftQuotient ls q p).succeeded then return q
  else
    let terms := p.terms ++ q.terms
    let front := commonFronts (terms.map fun (l, _) => l.letters)
    let l ← if front.isEmpty then pure ls.one else ls.word front
    return monomial l (commonWeight (terms.map (·.2)))

end WeightedAutomata.Polynomial
