import WeightedAutomata.Context.Conversion
import WeightedAutomata.Polynomial.Division
import WeightedAutomata.Polynomial.Parser

/-!
Polynomials over a context: series with finitely many terms.
-/

namespace WeightedAutomata

structure Series where
  context : Context
  terms : Polynomial context.Weight

namespace Series

def parse (c : Context) (cs : List Char) : Result Series :=
  return ⟨c, ← Polynomial.parse c.labels cs⟩

/-- The terms of a series over the context `c`; a series over another one is refused. -/
def termsOver (c : Context) (p : Series) : Result (Polynomial c.Weight) :=
  if same : p.context = c then .ok (same ▸ p.terms)
  else .error (.incompatible c.text p.context.text)

/-- Applies an operation to two series over one context. -/
def combine (p q : Series)
    (op : Polynomial p.context.Weight → Polynomial p.context.Weight →
      Result (Polynomial p.context.Weight)) : Result Series := do
  return ⟨p.context, ← op p.terms (← q.termsOver p.context)⟩

def add (p q : Series) : Result Series := p.combine q fun p q => .ok (p.add q)

def mul (p q : Series) : Result Series := p.combine q (Polynomial.mul p.context.labels)

/-- The series `r` with `p * r = q`. -/
def leftQuotient (p q : Series) : Result Series :=
  p.combine q (Polynomial.leftQuotient p.context.labels)

/-- A common divisor on the left. -/
def leftGcd (p q : Series) : Result Series := p.combine q (Polynomial.leftGcd p.context.labels)

/-- Whether two series are over one context and have the same terms. -/
def same (p q : Series) : Bool :=
  match q.termsOver p.context with
  | .ok terms => p.terms.same terms
  | .error _ => false

end Series

end WeightedAutomata
