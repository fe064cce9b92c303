import WeightedAutomata.Context.WeightSet

/-!
Contexts: a label set with a weight set.
-/

namespace WeightedAutomata

structure Context where
  labels : LabelSet
  weights : WeightSet
  deriving DecidableEq, Repr

namespace Context

/-- The weights of a context. -/
abbrev Weight (c : Context) : Type := c.weights.Carrier

/-- The descriptor of a context. -/
def text (c : Context) : String := c.labels.text ++ ", " ++ c.weights.text

/-- The context without the empty word. -/
def proper (c : Context) : Context := { c with labels := c.labels.proper }

/-- The context with the empty word. -/
def withOne (c : Context) : Context := { c with labels := c.labels.withOne }

def parseLabel (c : Context) (cs : List Char) : Result Label := c.labels.parseLabel cs

def parseWeight (c : Context) (cs : List Char) : Result c.Weight := Weights.parse cs

/-- Joins the weight sets of contexts to `ws`. -/
def joinWeights (ws : WeightSet) : List Context → Result WeightSet
  | [] => .ok ws
  | c :: cs =>
    match ws.join c.weights with
    | some joined => joinWeights joined cs
    | none => .error (.incompatible ws.text c.weights.text)

/-- The context of tuples of labels, one of each context, with the weight sets joined. -/
def product : List Context → Result Context
  | [] => .error (.precondition "product" "needs at least one context")
  | c :: cs => return ⟨.tuple ((c :: cs).map labels), ← joinWeights c.weights cs⟩

/-- The smallest context that both embed into. -/
def join (a b : Context) : Result Context :=
  let mismatch := Error.incompatible a.text b.text
  let labels? := if a.labels.embedsInto b.labels then some b.labels
    else if b.labels.embedsInto a.labels then some a.labels
    else none
  match labels?, a.weights.join b.weights with
  | some labels, some weights => .ok ⟨labels, weights⟩
  | _, _ => .error mismatch

/-- Refuses every context but `a`. -/
def requireSame (a b : Context) : Result Unit :=
  if a = b then .ok () else .error (.incompatible a.text b.text)

end Context

end WeightedAutomata
