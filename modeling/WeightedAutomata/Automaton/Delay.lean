import WeightedAutomata.Automaton.Shape

/-!
Synchronizing the tapes of an automaton. Letters that one tape reads ahead of the others wait in a
buffer until every tape has as many; what still waits at the end of a path is read by one last
transition.
-/

namespace WeightedAutomata.Automaton

variable {K : Type}

/-- The letters that wait on each tape. -/
abbrev Buffer := List (List Char)

/-- The letters that a label reads on each tape. -/
def lettersOn (count : Nat) : Label → List (List Char)
  | .tuple ls => ls.map Label.letters
  | _ => List.replicate count []

/-- How many letters more than the first tape each tape reads. -/
def delayOf (count : Nat) (l : Label) : List Int :=
  let lengths := (lettersOn count l).map fun u => (u.length : Int)
  lengths.map (· - lengths.headD 0)

/-- Refuses automata of one tape. -/
def requireTapes (a : Automaton K) (operation : String) : Result (List LabelSet) :=
  match a.labels with
  | .tuple tapes => .ok tapes
  | ls => .error (.precondition operation ("a multi-tape labelset, not " ++ ls.text))

/-- The error for a cycle on which one tape reads more than another. -/
def unboundedDelay (s : State) : Error :=
  .precondition "synchronize"
    ("a bounded delay, but a cycle through state " ++ s.text ++ " has a non-zero delay")

/-- Gives each target of a transition within the component the delay of its source and the
transition; two delays at one state are an error. -/
def spreadDelays (count : Nat) (component : List State) (here : List Int) :
    List (Transition K) → List State → List (State × List Int) →
    Result (List State × List (State × List Int))
  | [], queue, delays => .ok (queue, delays)
  | tr :: rest, queue, delays =>
    if !component.contains tr.target then spreadDelays count component here rest queue delays
    else
      let there := List.zipWith (· + ·) here (delayOf count tr.label)
      match delays.lookup tr.target with
      | some known =>
        if known = there then spreadDelays count component here rest queue delays
        else .error (unboundedDelay tr.target)
      | none =>
        spreadDelays count component here rest (queue ++ [tr.target])
          ((tr.target, there) :: delays)

/-- Finds the delays of all states of a component. -/
def componentDelays (a : Automaton K) (count : Nat) (component : List State) :
    Nat → List State → List (State × List Int) → Result Unit
  | 0, _, _ => .ok ()
  | _, [], _ => .ok ()
  | fuel + 1, s :: queue, delays => do
    let here := (delays.lookup s).getD []
    let (queue, delays) ← spreadDelays count component here (a.successors s) queue delays
    componentDelays a count component fuel queue delays

/-- Refuses cycles on which one tape reads more letters than another. -/
def checkDelays (a : Automaton K) (count : Nat) : Result Unit :=
  a.stronglyConnected.forM fun component =>
    match component with
    | [] => .ok ()
    | s :: _ =>
      a.componentDelays count component component.length [s] [(s, List.replicate count 0)]

/-- The label that reads these words on the tapes. -/
def labelOn (tapes : List LabelSet) (words : Buffer) : Result Label :=
  return .tuple (← (tapes.zip words).mapM fun (tape, u) => tape.word u)

/-- Appends what a label reads to the letters that wait. -/
def extendBuffer : Buffer → List (List Char) → Buffer
  | u :: us, v :: vs => (u ++ v) :: extendBuffer us vs
  | us, _ => us

/-- The number of letters that wait on every tape. -/
def commonLength (buffer : Buffer) : Nat := ((buffer.map List.length).min?).getD 0

/-- A synchronized automaton under construction. -/
structure Synchronizing (K : Type) where
  result : Automaton K
  /-- The states made so far, each for a state with a buffer. -/
  made : List ((State × Buffer) × State)
  /-- Those whose transitions are still to be made. -/
  queue : List ((State × Buffer) × State)

namespace Synchronizing

/-- The state for a state with a buffer, which is made if it is new. -/
def state (b : Synchronizing K) (key : State × Buffer) : State × Synchronizing K :=
  match b.made.lookup key with
  | some s => (s, b)
  | none =>
    let s := b.result.nextState
    (s, ⟨b.result.newState, (key, s) :: b.made, b.queue ++ [(key, s)]⟩)

variable [Weights K]

/-- Makes the states for the initial states. -/
def addInitial (count : Nat) (b : Synchronizing K) (tr : Transition K) : Synchronizing K :=
  let (s, b) := b.state (tr.target, List.replicate count [])
  { b with result := b.result.addInitial s tr.weight }

/-- Makes the transition for `tr`, from the state `s` with a buffer. -/
def addTransition (tapes : List LabelSet) (s : State) (buffer : Buffer) (b : Synchronizing K)
    (tr : Transition K) : Result (Synchronizing K) := do
  let pending := extendBuffer buffer (lettersOn tapes.length tr.label)
  let n := commonLength pending
  let label ← labelOn tapes (pending.map (·.take n))
  let (d, b) := b.state (tr.target, pending.map (·.drop n))
  return { b with result := b.result.addTransition s d label tr.weight }

/-- Makes the state final, or a last transition that reads what still waits. -/
def addFinal (tapes : List LabelSet) (s : State) (buffer : Buffer) (w : K)
    (b : Synchronizing K) : Result (Synchronizing K) := do
  if buffer.all List.isEmpty then return { b with result := b.result.setFinal s w }
  else
    let f := b.result.nextState
    let label ← labelOn tapes buffer
    return { b with
      result := (b.result.newState.addTransition s f label w).setFinal f Weights.one }

/-- Makes the transitions of all states in the queue. -/
def run (a : Automaton K) (tapes : List LabelSet) : Nat → Synchronizing K → Result (Automaton K)
  | 0, b => .ok b.result
  | fuel + 1, b =>
    match b.queue with
    | [] => .ok b.result
    | ((q, buffer), s) :: queue => do
      let b ← (a.successors q).foldlM (addTransition tapes s buffer) { b with queue := queue }
      let b ← if a.isFinal q then b.addFinal tapes s buffer (a.finalWeight q) else pure b
      run a tapes fuel b

end Synchronizing

/-- The greatest length of a label. -/
def maxLabelLength (a : Automaton K) : Nat :=
  (a.allTransitions.map fun (_, tr) => tr.label.length).foldl max 0

/-- Steps that suffice for synchronizing: one for each state with a buffer. No tape waits with more
letters than a path without cycles reads, and all of them come from the labels. -/
def synchronizeFuel (a : Automaton K) (count : Nat) : Nat :=
  let size := a.graphBound + 1
  let letters := a.transitions.size * (a.maxLabelLength + 1) * (count + 1) + 2
  size * Nat.pow letters (count * (size * (a.maxLabelLength + 1) + 1)) + 1

variable [Weights K]

/-- An automaton whose transitions read as many letters on every tape, but for the last ones of
paths. -/
def synchronize (a : Automaton K) : Result (Automaton K) := do
  let tapes := (← a.requireTapes "synchronize").map LabelSet.allWords
  a.checkDelays tapes.length
  let start : Synchronizing K := ⟨empty (.tuple tapes), [], []⟩
  let start := a.initialTransitions.foldl (Synchronizing.addInitial tapes.length) start
  Synchronizing.run a tapes (a.synchronizeFuel tapes.length) start

/-- Whether every transition reads as many letters on every tape or leads to a state that nothing
but `post` follows. -/
def isSynchronized (a : Automaton K) : Result Bool := do
  let tapes ← a.requireTapes "is_synchronized"
  return a.innerTransitions.all fun tr =>
    let lengths := (lettersOn tapes.length tr.label).map List.length
    lengths.all (· == lengths.headD 0) || (a.targets tr.target).all (· == State.post)

end WeightedAutomata.Automaton
