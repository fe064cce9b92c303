import WeightedAutomata.Expression.Printer
import WeightedAutomata.Expression.Rebuild
import WeightedAutomata.Polynomial.Basic

/-!
Weighted sums of expressions, and expansions: a constant weight and, for each first label, a sum of
what may follow it.
-/

namespace WeightedAutomata

/-- A weighted sum of expressions. No term has the weight zero, is zero or has a left weight. -/
structure Combination (K : Type) where
  terms : Terms (Exp K) K

namespace Combination

variable {K : Type} [Weights K]

def zero : Combination K := ⟨[]⟩

def isZero (p : Combination K) : Bool := p.terms.isEmpty

/-- Adds `<w>e`; a left weight of `e` counts to the weight. -/
def addTerm (p : Combination K) (e : Exp K) (w : K) : Combination K :=
  let total := match e with | .lweight k _ => Weights.mul w k | _ => w
  if Weights.isZero total || e.bare.isZero then p
  else ⟨p.terms.update e.bare (Polynomial.plus total)⟩

/-- `<w>e`. -/
def monomial (e : Exp K) (w : K) : Combination K := zero.addTerm e w

def add (p q : Combination K) : Combination K :=
  q.terms.foldl (fun sum (e, w) => sum.addTerm e w) p

/-- The sum with each term changed. -/
def mapTerms (f : Exp K → K → Exp K × K) (p : Combination K) : Combination K :=
  p.terms.foldl (fun sum (e, w) => let (e, w) := f e w; sum.addTerm e w) zero

/-- The sum with each expression changed. -/
def map (f : Exp K → Exp K) (p : Combination K) : Combination K := p.mapTerms fun e w => (f e, w)

/-- `<k>P`. -/
def scaleLeft (k : K) (p : Combination K) : Combination K :=
  p.mapTerms fun e w => (e, Weights.mul k w)

/-- `P<k>`. Weights that do not commute stay on the right of the expressions. -/
def scaleRight (s : ExpressionSet) (p : Combination K) (k : K) : Combination K :=
  if Weights.isCommutative K then p.mapTerms fun e w => (e, Weights.mul w k)
  else p.mapTerms fun e w => (s.rweight e k, w)

/-- All pairs of terms, with `f` for the expressions and the product of the weights. -/
def pairwise (f : Exp K → Exp K → Exp K) (p q : Combination K) : Combination K :=
  p.terms.foldl (fun sum (e, v) =>
    q.terms.foldl (fun sum (g, w) => sum.addTerm (f e g) (Weights.mul v w)) sum) zero

/-- The sum as an expression. -/
def toExp (s : ExpressionSet) (p : Combination K) : Exp K :=
  s.sum (p.terms.map fun (e, w) => s.lweight w e)

/-- The text of one term. -/
def termText (style : Style) (e : Exp K) (w : K) : String :=
  if Weights.isOne w then e.format style else Exp.weightText style w ++ e.format style

/-- The terms with `+` between them. -/
def format (style : Style) (p : Combination K) : String :=
  if p.isZero then Polynomial.zeroText style
  else " + ".intercalate (p.terms.map fun (e, w) => termText style e w)

end Combination

structure Expansion (K : Type) where
  constant : K
  /-- What follows each first label. No sum is empty. -/
  polynomials : Terms Label (Combination K)

namespace Expansion

variable {K : Type} [Weights K]

/-- A weight without anything to follow. -/
def ofWeight (w : K) : Expansion K := ⟨w, []⟩

def isZero (x : Expansion K) : Bool := Weights.isZero x.constant && x.polynomials.isEmpty

/-- Adds what may follow a label. -/
def addPolynomial (x : Expansion K) (l : Label) (p : Combination K) : Expansion K :=
  if p.isZero then x
  else
    let change (old : Option (Combination K)) : Option (Combination K) :=
      let total := (old.getD .zero).add p
      if total.isZero then none else some total
    { x with polynomials := x.polynomials.update l change }

def add (x y : Expansion K) : Expansion K :=
  y.polynomials.foldl (fun sum (l, p) => sum.addPolynomial l p)
    { x with constant := Weights.add x.constant y.constant }

/-- The expansion with the constant `c` and each polynomial changed. -/
def mapPolynomials (c : K) (f : Combination K → Combination K) (x : Expansion K) : Expansion K :=
  x.polynomials.foldl (fun sum (l, p) => sum.addPolynomial l (f p)) (ofWeight c)

/-- The polynomials that `f` makes, without those that have become empty. -/
def scaled (f : Combination K → Combination K) (x : Expansion K) : Terms Label (Combination K) :=
  (x.polynomials.map fun (l, p) => (l, f p)).filter fun (_, p) => !p.isZero

/-- `<k>X`. -/
def scaleLeft (k : K) (x : Expansion K) : Expansion K :=
  ⟨Weights.mul k x.constant, x.scaled (·.scaleLeft k)⟩

/-- `X<k>`. -/
def scaleRight (s : ExpressionSet) (x : Expansion K) (k : K) : Expansion K :=
  ⟨Weights.mul x.constant k, x.scaled (·.scaleRight s k)⟩

/-- The polynomials with `e` behind them. The constant becomes zero. -/
def followedBy (s : ExpressionSet) (x : Expansion K) (e : Exp K) : Expansion K :=
  x.mapPolynomials Weights.zero (·.map (s.mul · e))

/-- The text of one polynomial with its label. -/
def partText (style : Style) (l : Label) (p : Combination K) : String :=
  match style, l with
  | .symbols, .one => "ε⊙[" ++ p.format style ++ "]"
  | .symbols, l => l.text ++ "⊙[" ++ p.format style ++ "]"
  | .ascii, l => l.text ++ ".[" ++ p.format style ++ "]"

/-- The constant, unless it is zero, and the polynomials, with `+` between them. -/
def format (style : Style) (x : Expansion K) : String :=
  let constant := if Weights.isZero x.constant then [] else [Exp.weightText style x.constant]
  let parts := constant ++ x.polynomials.map fun (l, p) => partText style l p
  if parts.isEmpty then Polynomial.zeroText style else " + ".intercalate parts

end Expansion

end WeightedAutomata
