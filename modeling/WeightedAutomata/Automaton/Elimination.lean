import WeightedAutomata.Automaton.Shape

/-!
Removing spontaneous transitions, one state after the other. Backward elimination takes away the
spontaneous transitions that enter a state and copies those that leave it to where they came from;
forward elimination does the same on the mirror image.
-/

namespace WeightedAutomata

/-- The side of the states whose transitions are copied. -/
inductive Direction where
  | backward
  | forward
  deriving DecidableEq, Repr

structure Elimination where
  direction : Direction
  /-- Whether states are deleted that lose their last transition. -/
  prune : Bool
  deriving DecidableEq, Repr

namespace Elimination

variable {K : Type}

/-- The transitions of `s` on the side where spontaneous ones are removed. -/
def near (e : Elimination) (a : Automaton K) (s : State) : List Nat :=
  match e.direction with
  | .backward => a.allIn s
  | .forward => a.allOut s

/-- The transitions of `s` on the side where transitions are copied. -/
def far (e : Elimination) (a : Automaton K) (s : State) : List Nat :=
  match e.direction with
  | .backward => a.allOut s
  | .forward => a.allIn s

/-- Whether the transition of this number is spontaneous. -/
def isSpontaneous (a : Automaton K) (t : Nat) : Bool :=
  (a.transition? t).any Transition.isSpontaneous

def spontaneousIn (a : Automaton K) (ts : List Nat) : List Nat := ts.filter (isSpontaneous a)

/-- What makes a state come early: few spontaneous transitions on the far side, then few
transitions there, then few spontaneous ones to remove, then a small number. -/
def cost (e : Elimination) (a : Automaton K) (s : State) : List Nat :=
  [(spontaneousIn a (e.far a s)).length, (e.far a s).length,
    (spontaneousIn a (e.near a s)).length, s]

/-- The state with the least cost. -/
def cheapest (e : Elimination) (a : Automaton K) : List State → Option State
  | [] => none
  | s :: ss =>
    match cheapest e a ss with
    | none => some s
    | some t => if List.lex (e.cost a t) (e.cost a s) then some t else some s

/-- The next state to lose its spontaneous transitions. -/
def next? (e : Elimination) (a : Automaton K) : Option State :=
  e.cheapest a (a.stateList.filter fun s => !(spontaneousIn a (e.near a s)).isEmpty)

variable [Weights K]

/-- Takes the spontaneous loop of `s` away and tells the star of its weight. -/
def takeLoop (a : Automaton K) (s : State) : Result (Automaton K × K) :=
  match a.find? s a.labels.one s with
  | none => .ok (a, Weights.one)
  | some t =>
    let w := a.weightBetween s a.labels.one s
    match Weights.star w with
    | .ok star => .ok (a.deleteTransition t, star)
    | .error _ => .error (.spontaneousCycle s.number (Weights.text w))

/-- The far ends and the weights of spontaneous transitions on the near side. -/
def removed (e : Elimination) (a : Automaton K) (ts : List Nat) : List (State × K) :=
  (a.lookUp ts).map fun tr =>
    match e.direction with
    | .backward => (tr.source, tr.weight)
    | .forward => (tr.target, tr.weight)

/-- Scales the transition `t` of the far side by the star of the loop, and copies it to the ends of
the removed transitions. -/
def copyTransition (e : Elimination) (star : K) (ends : List (State × K)) (a : Automaton K)
    (t : Nat) : Automaton K :=
  match a.transition? t with
  | none => a
  | some tr =>
    match e.direction with
    | .backward =>
      let k := if Weights.isOne star then tr.weight else Weights.mul star tr.weight
      ends.foldl (fun a (s, h) => a.addTransition s tr.target tr.label (Weights.mul h k))
        (a.setWeight t k)
    | .forward =>
      let k := if Weights.isOne star then tr.weight else Weights.mul tr.weight star
      ends.foldl (fun a (s, h) => a.addTransition tr.source s tr.label (Weights.mul k h))
        (a.setWeight t k)

/-- Removes the spontaneous transitions on the near side of `s`. -/
def eliminate (e : Elimination) (a : Automaton K) (s : State) : Result (Automaton K) := do
  let (a, star) ← takeLoop a s
  let spontaneous := spontaneousIn a (e.near a s)
  let ends := e.removed a spontaneous
  let a := spontaneous.foldl Automaton.deleteTransition a
  let a := (e.far a s).foldl (e.copyTransition star ends) a
  return if e.prune && (e.near a s).isEmpty then a.deleteState s else a

/-- Eliminates states until no spontaneous transition is left. -/
def run (e : Elimination) : Nat → Automaton K → Result (Automaton K)
  | 0, a => .ok a
  | fuel + 1, a =>
    match e.next? a with
    | none => .ok a
    | some s => do run e fuel (← e.eliminate a s)

end Elimination

namespace Automaton

variable {K : Type} [Weights K]

/-- The automaton without spontaneous transitions. Each state is eliminated once at most. -/
def proper (a : Automaton K) (e : Elimination) : Result (Automaton K) := do
  let done ← e.run a.states.size a
  let labels := a.labels.proper
  done.copyInto labels (fun _ => true) fun l w => return (← labels.convert a.labels l, w)

/-- Whether the spontaneous transitions can be removed. -/
def isValid (a : Automaton K) : Bool := a.isProper || (a.proper ⟨.backward, true⟩).succeeded

end Automaton

end WeightedAutomata
