import WeightedAutomata.Automaton.Derivation
import WeightedAutomata.Proofs.Automaton.Steady
import WeightedAutomata.Proofs.Expansion.Finiteness

/-!
Derived-term automata are finite: what follows a letter is always a residue of the expression that
the automaton is made of.
-/

set_option linter.unusedSectionVars false

namespace WeightedAutomata

open scoped Weights

variable {K : Type} [Weights K] [Weights.Lawful K]

theorem Automaton.stateCount_le (a : Automaton K) : a.stateCount ≤ a.nextState - 2 := by
  have inner : a.stateList ⊆ List.range' 2 (a.nextState - 2) := by
    intro s member
    obtain ⟨below, kept⟩ := List.mem_filter.mp member
    have notSentinel : State.isSentinel s = false := by
      simpa using (Bool.and_eq_true_iff.mp kept).1
    have least : 2 ≤ s := Nat.le_of_not_lt (of_decide_eq_false notSentinel)
    have most : s < a.nextState := List.mem_range.mp below
    refine List.mem_range'_1.mpr ⟨least, ?_⟩
    rwa [Nat.add_sub_of_le (Nat.le_of_lt (Nat.lt_of_le_of_lt least most))]
  have distinct : a.stateList.Nodup := List.nodup_range.filter _
  have counted := (distinct.subperm inner).length_le
  rwa [List.length_range'] at counted

namespace Derivation

variable {allowed : List (Exp K)} {taken : Nat} {d d' : Derivation K} {e : Exp K} {s t : State}

/-- What holds of an automaton under construction when `taken` states have left the queue: its
states stand for different expressions, which are all among the allowed ones. -/
structure Confined (allowed : List (Exp K)) (taken : Nat) (d : Derivation K) : Prop where
  size : d.automaton.nextState = d.origins.length + 2
  distinct : (d.origins.map (·.2)).Nodup
  known : ∀ entry ∈ d.origins, entry.2 ∈ allowed
  queued : ∀ entry ∈ d.queue, entry.2 ∈ allowed
  balance : d.origins.length = d.queue.length + taken

theorem Confined.length_le (confined : Confined allowed taken d) :
    d.origins.length ≤ allowed.length := by
  have subset : d.origins.map (·.2) ⊆ allowed := by
    intro e member
    obtain ⟨entry, listed, rfl⟩ := List.mem_map.mp member
    exact confined.known entry listed
  rw [← List.length_map (·.2)]
  exact (confined.distinct.subperm subset).length_le

theorem Confined.stateCount_le (confined : Confined allowed taken d) :
    d.automaton.stateCount ≤ allowed.length := by
  have count := d.automaton.stateCount_le
  rw [confined.size, Nat.add_sub_cancel] at count
  exact Nat.le_trans count confined.length_le

/-- The sizes are all that counts of the automaton. -/
theorem Confined.withAutomaton {a : Automaton K} (confined : Confined allowed taken d)
    (size : a.nextState = d.automaton.nextState) :
    Confined allowed taken { d with automaton := a } :=
  { confined with size := size.trans confined.size }

/-- A state is made only for an expression that has none. -/
theorem Confined.state (confined : Confined allowed taken d) (member : e ∈ allowed) :
    Confined allowed taken (d.state e).2 := by
  unfold Derivation.state
  split
  · exact confined
  · rename_i absent
    refine ⟨?_, ?_, ?_, ?_, ?_⟩
    · exact (Automaton.nextState_newState _).trans (congrArg (· + 1) confined.size)
    · refine List.nodup_cons.mpr ⟨fun known => ?_, confined.distinct⟩
      obtain ⟨entry, listed, same⟩ := List.mem_map.mp known
      exact List.find?_eq_none.mp absent entry listed (Exp.same_iff.mpr same)
    · exact List.forall_mem_cons.mpr ⟨member, confined.known⟩
    · exact List.forall_mem_append.mpr ⟨confined.queued, List.forall_mem_singleton.mpr member⟩
    · have balance := confined.balance
      simp only [List.length_cons, List.length_append, List.length_nil]
      omega

theorem Confined.addTransition (confined : Confined allowed taken d) (member : e ∈ allowed)
    (s : State) (l : Label) (w : K) : Confined allowed taken (d.addTransition s l e w) :=
  (confined.state member).withAutomaton (Automaton.nextState_addTransition _ _ _ _ _)

theorem Confined.addInitial (confined : Confined allowed taken d) (member : e ∈ allowed) (w : K) :
    Confined allowed taken (d.addInitial e w) :=
  (confined.state member).withAutomaton (Automaton.nextState_addTransition _ _ _ _ _)

/-- What is done to each member of a list keeps the bound. -/
theorem Confined.foldl {α : Type} {step : Derivation K → α → Derivation K} {xs : List α}
    (each : ∀ x ∈ xs, ∀ d, Confined allowed taken d → Confined allowed taken (step d x))
    (confined : Confined allowed taken d) : Confined allowed taken (xs.foldl step d) := by
  induction xs generalizing d with
  | nil => exact confined
  | cons x xs ih =>
    obtain ⟨head, tail⟩ := List.forall_mem_cons.mp each
    exact ih tail (head d confined)

theorem Confined.addExpansion {x : Expansion K} (confined : Confined allowed taken d)
    (within : x.Within (· ∈ allowed)) (s : State) :
    Confined allowed taken (d.addExpansion s x) :=
  .foldl (fun entry member _ => .foldl fun term listed _ confined =>
      confined.addTransition (within entry member term listed) s entry.1 term.2)
    (confined.withAutomaton (Automaton.nextState_setTransition _ _ _ _ _))

theorem Confined.start (set : ExpressionSet) (member : e.bare ∈ allowed) :
    Confined allowed 0 (Derivation.start set e) := by
  have empty : Confined allowed 0 (⟨Automaton.empty (K := K) set.labels, [], []⟩ : Derivation K) :=
    ⟨rfl, .nil, nofun, nofun, rfl⟩
  have terms : (Combination.monomial e (Weights.one : K)).Within (· ∈ allowed) :=
    Combination.within_zero.addTerm member Weights.one
  exact .foldl (fun term listed _ confined => confined.addInitial (terms term listed) term.2) empty

/-! ### The worklist -/

variable {set : ExpressionSet} {steps : Nat}

/-- What expansions of allowed expressions are like: no other expressions follow in them, and they
fail only at stars. -/
structure Supports (set : ExpressionSet) (allowed : List (Exp K)) : Prop where
  within {e : Exp K} {x : Expansion K} : e ∈ allowed → Expansion.ofExp set e = .ok x →
    x.Within (· ∈ allowed)
  notStarable {e : Exp K} {error : Error} : e ∈ allowed → Expansion.ofExp set e = .error error →
    ∃ text, error = .notStarable text

/-- The outcome of a construction. -/
def Settles (bound : Nat) (r : Result (Derivation K)) : Prop :=
  (∃ text, r = .error (.notStarable text)) ∨ ∃ d, r = .ok d ∧ d.automaton.stateCount ≤ bound

theorem Confined.run (steps : Nat) (supports : Supports set allowed)
    (confined : Confined allowed taken d) (enough : allowed.length ≤ steps + taken) :
    ∃ r, Derivation.run set steps d = some r ∧ Settles allowed.length r := by
  induction steps generalizing d taken with
  | zero =>
    obtain ⟨a, origins, queue⟩ := d
    cases queue with
    | nil => exact ⟨.ok ⟨a, origins, []⟩, rfl, .inr ⟨_, rfl, confined.stateCount_le⟩⟩
    | cons entry queue =>
      -- More states would have been made than there are expressions.
      have balance := confined.balance
      have most := confined.length_le
      simp only [List.length_cons] at balance most
      omega
  | succ steps ih =>
    obtain ⟨a, origins, queue⟩ := d
    cases queue with
    | nil => exact ⟨.ok ⟨a, origins, []⟩, rfl, .inr ⟨_, rfl, confined.stateCount_le⟩⟩
    | cons entry queue =>
      obtain ⟨s, e⟩ := entry
      obtain ⟨member, queued⟩ := List.forall_mem_cons.mp confined.queued
      rw [Derivation.run]
      cases expanded : Expansion.ofExp set e with
      | error error =>
        obtain ⟨text, rfl⟩ := supports.notStarable member expanded
        exact ⟨_, rfl, .inl ⟨text, rfl⟩⟩
      | ok x =>
        have taking : Confined allowed (taken + 1) (⟨a, origins, queue⟩ : Derivation K) := by
          refine { confined with queued := queued, balance := confined.balance.trans ?_ }
          exact Nat.succ_add_eq_add_succ queue.length taken
        exact ih (taking.addExpansion (supports.within member expanded) s) (by omega)

theorem run_add {r : Result (Derivation K)} (done : Derivation.run set steps d = some r)
    (more : Nat) : Derivation.run set (steps + more) d = some r := by
  induction steps generalizing d with
  | zero =>
    obtain ⟨a, origins, queue⟩ := d
    cases queue with
    | nil => rwa [Derivation.run] at done ⊢
    | cons => cases done
  | succ steps ih =>
    obtain ⟨a, origins, queue⟩ := d
    cases queue with
    | nil => rwa [Derivation.run] at done ⊢
    | cons entry queue =>
      rw [Nat.add_right_comm]
      rw [Derivation.run] at done ⊢
      cases expanded : Expansion.ofExp set entry.2 with
      | error => rwa [expanded] at done
      | ok x =>
        rw [expanded] at done
        exact ih done

/-! ### The expressions of the states -/

variable [Weights.Ordered K]

/-- The expression and the products of its residues. -/
def reachable (e : Exp K) : List (Exp K) := e :: e.residues.map Exp.ofFactors

theorem length_reachable (e : Exp K) : (reachable e).length ≤ 1 + e.count .atom := by
  rw [reachable, List.length_cons, List.length_map, Nat.add_comm]
  exact Nat.add_le_add_left (Exp.length_residues e) 1

/-- No others follow than the residues of the whole expression. -/
theorem supports_reachable (listed : Exp.Listed set) [Weights.PartialStar K]
    (regular : Exp.Regular set .sum e) : Supports set (reachable e) := by
  have inside {f : Exp K} (member : f ∈ reachable e) :
      Exp.Regular set .sum f ∧ f.residues ⊆ e.residues := by
    rcases List.mem_cons.mp member with rfl | residue
    · exact ⟨regular, List.Subset.refl _⟩
    · obtain ⟨p, listed', rfl⟩ := List.mem_map.mp residue
      refine ⟨listed.regular_ofFactors (regular.residues listed'), fun q behind => ?_⟩
      rw [Exp.residues_ofFactors] at behind
      exact Exp.residues_subset e listed' behind
  constructor
  · intro f x member expanded
    obtain ⟨regular', subset⟩ := inside member
    refine (Expansion.within_ofExp listed regular' expanded).mono ?_
    rintro g ⟨p, residue, rfl⟩
    exact List.mem_cons_of_mem _ (List.mem_map_of_mem (subset residue))
  · exact fun member => Expansion.notStarable_of_ofExp (inside member).1

theorem regular_bare (regular : Exp.Regular set .sum e) : Exp.Regular set .sum e.bare := by
  cases e with
  | lweight => exact regular.of_lweight
  | _ => exact regular

theorem count_bare (e : Exp K) : e.bare.count .atom ≤ e.count .atom := by
  cases e with
  | lweight => exact Nat.le_add_left _ _
  | _ => exact Nat.le_refl _

end Derivation

end WeightedAutomata
