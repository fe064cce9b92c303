import WeightedAutomata.Automaton.Derivation
import WeightedAutomata.Automaton.Standard
import WeightedAutomata.Context.Machine
import WeightedAutomata.Expression.Posix

/-!
Expressions over a context, with the identities by which they are simplified.
-/

namespace WeightedAutomata

/-- The ways to write expressions. -/
inductive Dialect where
  /-- The form in which expressions are printed. -/
  | canonical
  | posix (p : Posix)
  deriving DecidableEq, Repr

/-- An expression together with its weight set and the set it was built in. -/
structure Expression where
  weights : WeightSet
  set : ExpressionSet
  exp : Exp weights.Carrier

namespace Expression

def context (e : Expression) : Context := ⟨e.set.labels, e.weights⟩

def identities (e : Expression) : Identities := e.set.identities

def parse (c : Context) (ids : Identities) (dialect : Dialect) (cs : List Char) :
    Result Expression :=
  let set : ExpressionSet := ⟨c.labels, ids⟩
  match dialect with
  | .canonical => return ⟨c.weights, set, ← set.parse cs⟩
  | .posix p => return ⟨c.weights, set, ← set.parsePosix p cs⟩

/-- The tree of an expression over the context `c`; an expression over another one is refused. -/
def treeOver (c : Context) (e : Expression) : Result (Exp c.Weight) :=
  if same : e.context = c then
    have weights : e.weights = c.weights := congrArg Context.weights same
    .ok (show Exp c.weights.Carrier from weights ▸ e.exp)
  else .error (.incompatible c.text e.context.text)

/-- Applies an operation to two expressions over one context, with the rules of the first. -/
def combine (a b : Expression)
    (op : Exp a.weights.Carrier → Exp a.weights.Carrier → Result (Exp a.weights.Carrier)) :
    Result Expression := do
  return { a with exp := ← op a.exp (← b.treeOver a.context) }

def add (a b : Expression) : Result Expression := a.combine b fun x y => .ok (a.set.add x y)

def mul (a b : Expression) : Result Expression := a.combine b fun x y => .ok (a.set.mul x y)

def conjunction (a b : Expression) : Result Expression :=
  a.combine b fun x y => .ok (a.set.conjunction x y)

def shuffle (a b : Expression) : Result Expression :=
  a.combine b fun x y => .ok (a.set.shuffle x y)

def difference (a b : Expression) : Result Expression := a.combine b a.set.difference

def complement (e : Expression) : Result Expression :=
  return { e with exp := ← e.set.complement e.exp }

/-- The expression under a sign for its mirror image. -/
def transposition (e : Expression) : Expression := { e with exp := e.set.transposition e.exp }

/-- The mirror image itself. -/
def transpose (e : Expression) : Result Expression :=
  return { e with exp := ← e.set.transpose e.exp }

def star (e : Expression) : Expression := { e with exp := e.set.star e.exp }

/-- The sum of weighted monomials with the same meaning. -/
def expand (e : Expression) : Expression := { e with exp := e.set.expand e.exp }

/-- A weight of another weight set as one for the expression, if it has the same form. -/
def adopt (e : Expression) (source : WeightSet) (w : source.Carrier) : Result e.weights.Carrier :=
  match e.weights.reread? source w with
  | some w => .ok w
  | none => .error (.incompatible e.weights.text ("weight " ++ Weights.text w))

/-- `<w>E`, with a weight of the set `source`. -/
def scaleLeft (e : Expression) (source : WeightSet) (w : source.Carrier) : Result Expression :=
  return { e with exp := e.set.lweight (← e.adopt source w) e.exp }

/-- `E<w>`, with a weight of the set `source`. -/
def scaleRight (e : Expression) (source : WeightSet) (w : source.Carrier) : Result Expression :=
  return { e with exp := e.set.rweight e.exp (← e.adopt source w) }

/-- From `min` to `max` copies; without `max`, `min` copies or more. -/
def power (e : Expression) (min : Nat) (max : Option Nat) : Result Expression :=
  return { e with exp := ← e.set.power e.exp min max }

/-- The trees of expressions over the tapes of a context. -/
def tapeTrees (c : Context) : List LabelSet → List Expression → Result (List (Exp c.Weight))
  | ls :: sets, e :: es =>
    return (← e.treeOver ⟨ls, c.weights⟩) :: (← tapeTrees c sets es)
  | _, _ => .ok []

/-- The expression with one operand for each tape of the context. The rules are those of the first
operand. -/
def tuple (c : Context) (tapes : List Expression) : Result Expression := do
  let ids := (tapes.head?.map identities).getD .linear
  let set : ExpressionSet := ⟨c.labels, ids⟩
  let trees ← tapeTrees c ((c.labels.tapes?).getD []) tapes
  set.requireTapes c.Weight tapes.length
  return ⟨c.weights, set, set.joinTapes trees⟩

/-- The expression rebuilt with other rules. -/
def normalize (e : Expression) (ids : Identities) : Result Expression :=
  let set : ExpressionSet := { e.set with identities := ids }
  return ⟨e.weights, set, ← set.normalize e.exp⟩

/-- The expression rebuilt over another context. -/
def cast (e : Expression) (c : Context) (ids : Identities) : Result Expression :=
  let set : ExpressionSet := ⟨c.labels, ids⟩
  return ⟨c.weights, set, ← set.castExp (c.weights.cast e.weights) e.set e.exp⟩

/-- The order of the trees of two expressions. -/
def order (a b : Expression) : Ordering :=
  Exp.orderBy (WeightSet.order a.weights b.weights) a.exp b.exp

/-- Whether two expressions are over one context, with the same rules and the same tree. -/
def same (a b : Expression) : Bool :=
  a.context == b.context && a.identities == b.identities && a.order b == .eq

def text (e : Expression) : String := e.exp.text

def constantTerm (e : Expression) : Result e.weights.Carrier := e.set.constantTerm e.exp

def expansion (e : Expression) : Result (Expansion e.weights.Carrier) :=
  Expansion.ofExp e.set e.exp

/-- The derived-term automaton, if it has at most `steps` states. -/
def derivation (steps : Nat) (e : Expression) : Option (Result (Derivation e.weights.Carrier)) :=
  Derivation.ofExp e.set steps e.exp

/-- The standard automaton. -/
def standard (e : Expression) : Result Machine :=
  return ⟨e.weights, ← Automaton.standard e.set.labels e.exp⟩

end Expression

end WeightedAutomata
