import WeightedAutomata.Automaton.Copy
import WeightedAutomata.Expression.Basic

/-!
Standard automata of expressions: one initial state that no transition enters, and one state for
each atom. Operators join the automata of their operands without spontaneous transitions.
-/

namespace WeightedAutomata

/-- The automaton of a part of the expression, within a larger one. -/
structure Piece where
  initial : State
  finals : List State

namespace Piece

variable {K : Type}

/-- The piece without the final states that have lost their weight. -/
def prune (a : Automaton K) (p : Piece) : Automaton K × Piece :=
  (a, { p with finals := p.finals.filter a.isFinal })

variable [Weights K]

/-- A piece with one state, which is not final. -/
def none (a : Automaton K) : Automaton K × Piece := (a.newState, ⟨a.nextState, []⟩)

/-- A piece with one state, which is initial and final. -/
def unit (a : Automaton K) : Automaton K × Piece :=
  let s := a.nextState
  (a.newState.setFinal s Weights.one, ⟨s, [s]⟩)

/-- A piece that reads one label. -/
def atom (l : Label) (a : Automaton K) : Automaton K × Piece :=
  let s := a.nextState
  let a := a.newState
  let t := a.nextState
  let a := a.newState.setTransition s t l Weights.one
  (a.setFinal t Weights.one, ⟨s, [t]⟩)

/-- Lets the initial state of `q` be that of `p`. -/
def sum (a : Automaton K) (p q : Piece) : Automaton K × Piece :=
  let a := (a.lookUp (a.allOut q.initial)).foldl (fun a tr =>
    a.addTransition p.initial tr.target tr.label tr.weight) a
  let a := a.deleteState q.initial
  prune a ⟨p.initial, p.initial :: p.finals.filter (· != p.initial) ++
    q.finals.filter (· != q.initial)⟩

/-- Lets the final state `f` go on with the transitions `next`, by its final weight. -/
def continueFrom (next : List (Transition K)) (a : Automaton K) (f : State) : Automaton K :=
  let w := a.finalWeight f
  next.foldl (fun a tr => a.addTransition f tr.target tr.label (Weights.mul w tr.weight))
    (a.setFinal f Weights.zero)

/-- Lets every final state of `p` go on with the transitions of the initial state of `q`. -/
def product (a : Automaton K) (p q : Piece) : Automaton K × Piece :=
  let next := a.lookUp (a.allOut q.initial)
  let (a, finals) := p.finals.foldl (fun (a, finals) f =>
    let a := continueFrom next a f
    (a, if a.isFinal f then finals ++ [f] else finals)) (a, [])
  (a.deleteState q.initial, ⟨p.initial, finals ++ q.finals.filter (· != q.initial)⟩)

/-- Lets every other final state `f` go on with the transitions `next` of the initial state, and
stay final by the star `c` of the constant term. -/
def loopFrom (c : K) (next : List (Transition K)) (a : Automaton K) (f : State) : Automaton K :=
  let w := a.finalWeight f
  let a := next.foldl (fun a tr =>
    a.addTransition f tr.target tr.label (Weights.mul w tr.weight)) a
  a.setFinal f (Weights.mul w c)

/-- Lets every final state start again. -/
def star (a : Automaton K) (p : Piece) : Result (Automaton K × Piece) := do
  let c ← Weights.star (a.finalWeight p.initial)
  let a := (a.outgoing p.initial).foldl (fun a (t, tr) =>
    a.setWeight t (Weights.mul c tr.weight)) a
  let a := a.setFinal p.initial c
  let others := p.finals.filter (· != p.initial)
  let a := others.foldl (loopFrom c (a.successors p.initial)) a
  return prune a ⟨p.initial, p.initial :: others⟩

/-- Scales the transitions of the initial state from the left. -/
def scaleLeft (w : K) (a : Automaton K) (p : Piece) : Automaton K × Piece :=
  let a := (a.allOut p.initial).foldl (fun a t =>
    match a.transition? t with
    | some tr => a.setWeight t (Weights.mul w tr.weight)
    | .none => a) a
  prune a p

/-- Scales the final weights from the right. -/
def scaleRight (a : Automaton K) (p : Piece) (w : K) : Automaton K × Piece :=
  let a := p.finals.foldl (fun a f => a.setFinal f (Weights.mul (a.finalWeight f) w)) a
  prune a p

mutual

/-- Adds the automaton of an expression to `a`. -/
def ofExp : Exp K → Automaton K → Result (Automaton K × Piece)
  | .zero, a => .ok (none a)
  | .one, a => .ok (unit a)
  | .atom l, a => .ok (atom l a)
  | .sum [], a | .prod [], a => .ok (none a)
  | .sum (e :: es), a => do
    let (a, p) ← ofExp e a
    ofOperands sum es a p
  | .prod (e :: es), a => do
    let (a, p) ← ofExp e a
    ofOperands product es a p
  | .star e, a => do
    let (a, p) ← ofExp e a
    star a p
  | .lweight w e, a => do
    let (a, p) ← ofExp e a
    return scaleLeft w a p
  | .rweight e w, a => do
    let (a, p) ← ofExp e a
    return scaleRight a p w
  | e, _ => .error (.precondition "standard" ("operator " ++ e.kind.name ++ " not supported"))

/-- Adds the automata of operands and joins each to the piece `p`. -/
def ofOperands (join : Automaton K → Piece → Piece → Automaton K × Piece) :
    List (Exp K) → Automaton K → Piece → Result (Automaton K × Piece)
  | [], a, p => .ok (a, p)
  | e :: es, a, p => do
    let (a, q) ← ofExp e a
    let (a, p) := join a p q
    ofOperands join es a p

end

end Piece

/-- The standard automaton of an expression, for the operators that keep to it: sums, products,
stars and weights. -/
def Automaton.standard {K : Type} [Weights K] (labels : LabelSet) (e : Exp K) :
    Result (Automaton K) := do
  let (a, p) ← Piece.ofExp e (Automaton.empty labels)
  return (a.setInitial p.initial Weights.one).restrict fun _ => true

end WeightedAutomata
