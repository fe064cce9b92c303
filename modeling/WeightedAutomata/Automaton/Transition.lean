import WeightedAutomata.Label.Set
import WeightedAutomata.Weights.Basic

/-!
The transitions of weighted automata, and the index that finds them by their ends and their label.
-/

namespace WeightedAutomata

abbrev State := Nat

namespace State

/-- The state before every initial state. -/
def pre : State := 0

/-- The state after every final state. -/
def post : State := 1

/-- Whether the state is `pre` or `post`. -/
def isSentinel (s : State) : Bool := s < 2

/-- The number that is shown: the first state that is made is `0`. -/
def number (s : State) : Nat := s - 2

def text (s : State) : String :=
  if s = pre then "pre" else if s = post then "post" else toString s.number

end State

structure Transition (K : Type) where
  source : State
  target : State
  label : Label
  weight : K

/-- Whether the transition reads nothing; those of `pre` and `post` do not count. -/
def Transition.isSpontaneous {K : Type} (tr : Transition K) : Bool :=
  !tr.label.isSpecial && tr.label.isOne

/-- Compares labels, then weights. -/
def Transition.order {K : Type} [Weights K] (t u : Transition K) : Ordering :=
  (t.label.order u.label).then (Weights.order t.weight u.weight)

/-- The ends and the label of a transition. -/
structure Arc where
  source : State
  label : Label
  target : State
  deriving DecidableEq

def Transition.arc {K : Type} (tr : Transition K) : Arc := ⟨tr.source, tr.label, tr.target⟩

/-! ### The index -/

/-- The numbers of transitions, by their ends and their labels. -/
structure Index where
  entries : List (Arc × Nat)

namespace Index

def empty : Index := ⟨[]⟩

def find? (index : Index) (arc : Arc) : Option Nat := index.entries.lookup arc

def erase (index : Index) (arc : Arc) : Index :=
  ⟨index.entries.filter fun entry => entry.1 != arc⟩

/-- Gives the arc the number `t`, in place of the one that it had. -/
def insert (index : Index) (arc : Arc) (t : Nat) : Index :=
  ⟨(arc, t) :: (index.erase arc).entries⟩

theorem find?_cons (arc first : Arc) (t : Nat) (entries : List (Arc × Nat)) :
    find? ⟨(first, t) :: entries⟩ arc = if arc = first then some t else find? ⟨entries⟩ arc := by
  unfold find?
  rw [List.lookup_cons]
  by_cases here : arc = first
  · rw [if_pos here, here, beq_self_eq_true]
  · rw [if_neg here, beq_false_of_ne here]

theorem find?_erase (index : Index) (arc arc' : Arc) :
    (index.erase arc).find? arc' = if arc' = arc then none else index.find? arc' := by
  obtain ⟨entries⟩ := index
  unfold erase
  induction entries with
  | nil => exact (ite_self none).symm
  | cons entry entries ih =>
    obtain ⟨first, t⟩ := entry
    dsimp only at ih ⊢
    rw [find?_cons]
    by_cases gone : first = arc
    · rw [List.filter_cons_of_neg (by simp [gone]), ih, gone]
      split <;> rfl
    · rw [List.filter_cons_of_pos (by simp [gone]), find?_cons, ih]
      by_cases here : arc' = first
      · rw [if_pos here, if_pos here, here, if_neg gone]
      · rw [if_neg here, if_neg here]

theorem find?_insert (index : Index) (arc arc' : Arc) (t : Nat) :
    (index.insert arc t).find? arc' = if arc' = arc then some t else index.find? arc' := by
  unfold insert
  rw [find?_cons]
  by_cases same : arc' = arc
  · rw [if_pos same, if_pos same]
  · rw [if_neg same, if_neg same]
    exact (find?_erase index arc arc').trans (if_neg same)

variable {K : Type} {index : Index} {transitions : Array (Option (Transition K))}
  {t : Nat} {tr : Transition K}

/-- The index finds the transitions that have not been deleted, and nothing else. -/
def Finds (index : Index) (transitions : Array (Option (Transition K))) : Prop :=
  ∀ arc t, index.find? arc = some t ↔ transitions[t]?.join.map Transition.arc = some arc

theorem Finds.empty : Finds (K := K) Index.empty #[] := by
  intro arc t
  simp [find?, Index.empty]

/-- A transition with a new arc is found once the index has it. -/
theorem Finds.push (finds : index.Finds transitions) (absent : index.find? tr.arc = none) :
    (index.insert tr.arc transitions.size).Finds (transitions.push (some tr)) := by
  intro arc u
  rw [find?_insert, Array.getElem?_push]
  by_cases last : u = transitions.size
  · subst last
    have unused : index.find? arc ≠ some transitions.size := by
      rw [Ne, finds]
      simp
    by_cases same : arc = tr.arc
    · simp [same]
    · simp [same, unused, Ne.symm same]
  · rw [if_neg last, ← finds]
    by_cases same : arc = tr.arc
    · simp [same, absent, Ne.symm last]
    · rw [if_neg same]

/-- A deleted transition is no longer found once the index has lost its arc. -/
theorem Finds.delete (finds : index.Finds transitions) (present : transitions[t]?.join = some tr) :
    (index.erase tr.arc).Finds (transitions.modify t fun _ => none) := by
  have own : index.find? tr.arc = some t := by
    rw [finds, present]
    rfl
  intro arc u
  rw [find?_erase, Array.getElem?_modify]
  by_cases deleted : t = u
  · subst deleted
    have other (differ : arc ≠ tr.arc) : index.find? arc ≠ some t := by
      rw [Ne, finds, present]
      exact fun same => differ (Option.some.inj same).symm
    rw [if_pos rfl]
    cases transitions[t]? <;> by_cases same : arc = tr.arc <;> simp [same, other]
  · rw [if_neg deleted, ← finds]
    by_cases same : arc = tr.arc
    · simp [same, own, deleted]
    · rw [if_neg same]

/-- The weights do not matter for what is found. -/
theorem Finds.reweigh (finds : index.Finds transitions) (t : Nat) (w : K) :
    index.Finds (transitions.modify t (·.map fun tr => { tr with weight := w })) := by
  intro arc u
  rw [finds, Array.getElem?_modify]
  split
  · cases transitions[u]? with
    | none => rfl
    | some slot => cases slot <;> rfl
  · rfl

end Index

end WeightedAutomata
