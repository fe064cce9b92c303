import WeightedAutomata.Automaton.Transition

/-!
Weighted automata. States and transitions are numbered in the order in which they are made, and the
numbers of deleted ones are not used again. Two states are always there: a transition from `pre`
makes a state initial, one to `post` makes it final, both with the special label.
-/

namespace WeightedAutomata

/-- The transitions at a state, in the order in which they were made. -/
structure Links where
  outgoing : List Nat
  incoming : List Nat
  deriving Repr, Inhabited

/-- The index and the transitions change together, so that it always finds them. -/
structure Automaton (K : Type) where
  labels : LabelSet
  states : Array (Option Links)
  transitions : Array (Option (Transition K))
  index : Index
  finds : index.Finds transitions

namespace Automaton

variable {K : Type}

/-- The automaton without states and transitions. -/
def empty (labels : LabelSet) : Automaton K where
  labels := labels
  states := #[some ⟨[], []⟩, some ⟨[], []⟩]
  transitions := #[]
  index := .empty
  finds := .empty

/-! ### States -/

/-- Adds a state; its number is the number of states ever made. -/
def newState (a : Automaton K) : Automaton K := { a with states := a.states.push (some ⟨[], []⟩) }

/-- The number of the next state to be made. -/
def nextState (a : Automaton K) : State := a.states.size

/-- The transitions at a state that has not been deleted. -/
def links? (a : Automaton K) (s : State) : Option Links := a.states[s]?.join

def hasState (a : Automaton K) (s : State) : Bool := (a.links? s).isSome

/-- The states that have not been deleted, without `pre` and `post`. -/
def stateList (a : Automaton K) : List State :=
  (List.range a.states.size).filter fun s => !State.isSentinel s && a.hasState s

def stateCount (a : Automaton K) : Nat := a.stateList.length

/-! ### Transitions -/

/-- A transition that has not been deleted. -/
def transition? (a : Automaton K) (t : Nat) : Option (Transition K) := a.transitions[t]?.join

/-- The transitions that leave a state, those to `post` included. -/
def allOut (a : Automaton K) (s : State) : List Nat := ((a.links? s).map (·.outgoing)).getD []

/-- The transitions that enter a state, those from `pre` included. -/
def allIn (a : Automaton K) (s : State) : List Nat := ((a.links? s).map (·.incoming)).getD []

/-- The transitions with these numbers. -/
def lookUp (a : Automaton K) (ts : List Nat) : List (Transition K) := ts.filterMap a.transition?

/-- The transitions that leave a state for another state than `post`, with their numbers. -/
def outgoing (a : Automaton K) (s : State) : List (Nat × Transition K) :=
  (a.allOut s).filterMap fun t =>
    (a.transition? t).bind fun tr => if tr.target = State.post then none else some (t, tr)

/-- The transitions that enter a state from another state than `pre`, with their numbers. -/
def incoming (a : Automaton K) (s : State) : List (Nat × Transition K) :=
  (a.allIn s).filterMap fun t =>
    (a.transition? t).bind fun tr => if tr.source = State.pre then none else some (t, tr)

/-- The transitions that leave a state for another state than `post`. -/
def successors (a : Automaton K) (s : State) : List (Transition K) := (a.outgoing s).map (·.2)

/-- All transitions with their numbers. -/
def allTransitions (a : Automaton K) : List (Nat × Transition K) :=
  (List.range a.transitions.size).filterMap fun t => (a.transition? t).map (t, ·)

/-- The transitions that neither leave `pre` nor enter `post`. -/
def innerTransitions (a : Automaton K) : List (Transition K) :=
  (a.allTransitions.map (·.2)).filter fun tr => tr.source != State.pre && tr.target != State.post

/-- The number of the transition with these ends and this label. -/
def find? (a : Automaton K) (source : State) (label : Label) (target : State) : Option Nat :=
  a.index.find? ⟨source, label, target⟩

/-- Changes the transitions at a state, unless it has been deleted. -/
def modifyLinks (a : Automaton K) (s : State) (change : Links → Links) : Automaton K :=
  { a with states := a.states.modify s (·.map change) }

/-- Deletes a transition. -/
def deleteTransition (a : Automaton K) (t : Nat) : Automaton K :=
  match present : a.transition? t with
  | none => a
  | some tr =>
    let a := { a with
      transitions := a.transitions.modify t fun _ => none
      index := a.index.erase tr.arc
      finds := a.finds.delete present }
    let a := a.modifyLinks tr.source fun links =>
      { links with outgoing := links.outgoing.filter (· != t) }
    a.modifyLinks tr.target fun links => { links with incoming := links.incoming.filter (· != t) }

/-- Deletes a state with all its transitions. The states `pre` and `post` stay. -/
def deleteState (a : Automaton K) (s : State) : Automaton K :=
  if State.isSentinel s || !a.hasState s then a
  else
    let a := (a.allOut s ++ a.allIn s).foldl deleteTransition a
    { a with states := a.states.modify s fun _ => none }

variable [Weights K]

/-- Changes the weight of a transition; one with the weight zero is deleted. -/
def setWeight (a : Automaton K) (t : Nat) (w : K) : Automaton K :=
  if Weights.isZero w then a.deleteTransition t
  else { a with
    transitions := a.transitions.modify t (·.map fun tr : Transition K => { tr with weight := w })
    finds := a.finds.reweigh t w }

/-- Makes a new transition. -/
def pushTransition (a : Automaton K) (tr : Transition K)
    (absent : a.find? tr.source tr.label tr.target = none) : Automaton K :=
  let t := a.transitions.size
  let a := { a with
    transitions := a.transitions.push (some tr)
    index := a.index.insert tr.arc t
    finds := a.finds.push absent }
  let a := a.modifyLinks tr.source fun links => { links with outgoing := links.outgoing ++ [t] }
  a.modifyLinks tr.target fun links => { links with incoming := links.incoming ++ [t] }

/-- Gives the transition with these ends and this label the weight `w`. -/
def setTransition (a : Automaton K) (source target : State) (label : Label) (w : K) :
    Automaton K :=
  match found : a.find? source label target with
  | some t => a.setWeight t w
  | none => if Weights.isZero w then a else a.pushTransition ⟨source, target, label, w⟩ found

/-- The weight of the transition with these ends and this label, zero where there is none. -/
def weightBetween (a : Automaton K) (source : State) (label : Label) (target : State) : K :=
  (((a.find? source label target).bind a.transition?).map (·.weight)).getD Weights.zero

/-- Adds `w` to the weight of the transition with these ends and this label. -/
def addTransition (a : Automaton K) (source target : State) (label : Label) (w : K) :
    Automaton K :=
  match (a.find? source label target).bind a.transition? with
  | some tr => a.setTransition source target label (Weights.add tr.weight w)
  | none => a.setTransition source target label w

/-! ### Initial and final states -/

def setInitial (a : Automaton K) (s : State) (w : K) : Automaton K :=
  a.setTransition State.pre s .special w

def addInitial (a : Automaton K) (s : State) (w : K) : Automaton K :=
  a.addTransition State.pre s .special w

def setFinal (a : Automaton K) (s : State) (w : K) : Automaton K :=
  a.setTransition s State.post .special w

def addFinal (a : Automaton K) (s : State) (w : K) : Automaton K :=
  a.addTransition s State.post .special w

def initialWeight (a : Automaton K) (s : State) : K := a.weightBetween State.pre .special s

def finalWeight (a : Automaton K) (s : State) : K := a.weightBetween s .special State.post

omit [Weights K]

def isInitial (a : Automaton K) (s : State) : Bool := (a.find? State.pre .special s).isSome

def isFinal (a : Automaton K) (s : State) : Bool := (a.find? s .special State.post).isSome

/-- The transitions that leave `pre`. -/
def initialTransitions (a : Automaton K) : List (Transition K) := a.lookUp (a.allOut State.pre)

/-- The transitions that enter `post`. -/
def finalTransitions (a : Automaton K) : List (Transition K) := a.lookUp (a.allIn State.post)

def initialStates (a : Automaton K) : List State := a.initialTransitions.map (·.target)

def finalStates (a : Automaton K) : List State := a.finalTransitions.map (·.source)

end Automaton

end WeightedAutomata
