import WeightedAutomata.Label.Set
import WeightedAutomata.Polynomial.Terms
import WeightedAutomata.Weights.Basic

/-!
Polynomials: finite weighted sums of labels. No term has the weight zero.
-/

namespace WeightedAutomata

structure Polynomial (K : Type) where
  terms : Terms Label K

namespace Polynomial

variable {K : Type} [Weights K]

def zero : Polynomial K := ⟨[]⟩

def isZero (p : Polynomial K) : Bool := p.terms.isEmpty

/-- The weight of a label, if it is not zero. -/
def get? (p : Polynomial K) (l : Label) : Option K := p.terms.get? l

/-- The coefficient with `w` added, unless the sum is zero. -/
def plus (w : K) (old : Option K) : Option K :=
  let total := match old with | some v => Weights.add v w | none => w
  if Weights.isZero total then none else some total

/-- Adds `<w>l`. -/
def addTerm (p : Polynomial K) (l : Label) (w : K) : Polynomial K :=
  if Weights.isZero w then p else ⟨p.terms.update l (plus w)⟩

/-- `<w>l`. -/
def monomial (l : Label) (w : K) : Polynomial K := zero.addTerm l w

def add (p q : Polynomial K) : Polynomial K :=
  q.terms.foldl (fun sum (l, w) => sum.addTerm l w) p

/-- The polynomial with the weight of each term changed. -/
def mapWeights (f : K → K) (p : Polynomial K) : Polynomial K :=
  p.terms.foldl (fun sum (l, w) => sum.addTerm l (f w)) zero

/-- `<w>P`. -/
def scaleLeft (w : K) (p : Polynomial K) : Polynomial K := p.mapWeights (Weights.mul w)

/-- `P<w>`. -/
def scaleRight (p : Polynomial K) (w : K) : Polynomial K := p.mapWeights (Weights.mul · w)

/-- The product, with labels concatenated. -/
def mul (ls : LabelSet) (p q : Polynomial K) : Result (Polynomial K) :=
  p.terms.foldlM (fun sum (l, v) =>
    q.terms.foldlM (fun sum (m, w) =>
      return sum.addTerm (← ls.concat l m) (Weights.mul v w)) sum) zero

/-- Whether two polynomials have the same terms. -/
def same (p q : Polynomial K) : Bool :=
  p.terms.length == q.terms.length &&
    (p.terms.zip q.terms).all fun ((l, v), (m, w)) => l == m && Weights.same v w

/-- The length of the longest label. -/
def maxLength (p : Polynomial K) : Nat := p.terms.foldl (fun n (l, _) => max n l.length) 0

/-- The text of one term. -/
def termText (style : Style) (l : Label) (w : K) : String :=
  let label := match style, l with
    | .symbols, .one => "ε"
    | _, l => l.text
  if Weights.isOne w then label
  else
    match style with
    | .ascii => "<" ++ Weights.format style w ++ ">" ++ label
    | .symbols => "⟨" ++ Weights.format style w ++ "⟩" ++ label

/-- The sign for a sum without terms. -/
def zeroText : Style → String
  | .ascii => "\\z"
  | .symbols => "∅"

/-- The terms with `+` between them. -/
def format (style : Style) (p : Polynomial K) : String :=
  if p.isZero then zeroText style
  else " + ".intercalate (p.terms.map fun (l, w) => termText style l w)

def text (p : Polynomial K) : String := p.format .ascii

end Polynomial

end WeightedAutomata
