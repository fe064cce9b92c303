import WeightedAutomata.Proofs.Automaton.Moves
import WeightedAutomata.Proofs.Automaton.Runs
import WeightedAutomata.Proofs.Expansion.Tuples

/-! Expansions and derived-term automata over several tapes: the runs that read a tuple of words add
up to the weight that the expression gives to it. -/

set_option linter.unusedSectionVars false

namespace WeightedAutomata

open scoped Weights

variable {K : Type} [Weights K] [Weights.Lawful K]

/-! ### The terms of an expansion -/

namespace Labelling

variable {s : ExpressionSet} {A : Type} [Semiring A] [Algebra K A] {L : Labelling K s A}
variable {x : Expansion K} {f : A} {value : Exp K → A}

/-- Whether the label can stand in front, the expression has a value, and both with the weight make
`f`. -/
def MoveDenotes (L : Labelling K s A) (move : Label × Exp K × K) (f : A) : Prop :=
  L.Valid move.1 ∧ ∃ g, L.Denotes move.2.1 g ∧ f = move.2.2 • (L.ofLabel move.1 * g)

/-- What a weighted sum behind one label adds up to, term by term. -/
theorem folds_behind {l : Label} {terms : Terms (Exp K) K} (valid : L.Valid l)
    (denotes : Folds (Combination.TermDenotes L.toSemantics) (· + ·) 0 terms f) :
    Folds L.MoveDenotes (· + ·) 0 (terms.map fun (e, w) => (l, e, w)) (L.ofLabel l * f) := by
  induction terms generalizing f with
  | nil =>
    rw [Folds.nil_iff.mp denotes, mul_zero]
    exact Folds.nil_iff.mpr rfl
  | cons term terms ih =>
    obtain ⟨_, g, ⟨h, found, rfl⟩, others, rfl⟩ := Folds.cons_iff.mp denotes
    rw [List.map_cons, mul_add]
    exact Folds.cons ⟨valid, h, found, mul_smul_comm _ _ _⟩ (ih others)

/-- What an expansion adds up to, term by term. -/
theorem Splits.moves (splits : L.Splits x f) :
    ∃ g, Folds L.MoveDenotes (· + ·) 0 x.moves g ∧ f = x.constant • 1 + g := by
  obtain ⟨g, parts, rfl⟩ := splits
  refine ⟨g, ?_, rfl⟩
  unfold Expansion.moves
  generalize x.polynomials = polynomials at parts
  induction polynomials generalizing g with
  | nil => exact Folds.nil_iff.mpr (Folds.nil_iff.mp parts)
  | cons part rest ih =>
    obtain ⟨_, k, ⟨valid, h, denotes, rfl⟩, tail, rfl⟩ := Folds.cons_iff.mp parts
    rw [List.flatMap_cons]
    exact Folds.append (folds_behind valid denotes) (ih _ tail)

/-- What the terms of an expansion add up to, given the values of expressions. -/
theorem Splits.worth (splits : L.Splits x f) (values : ∀ {e g}, L.Denotes e g → g = value e) :
    (∀ move ∈ x.moves, L.Valid move.1 ∧ ∃ g, L.Denotes move.2.1 g) ∧
      f = x.worth 1 fun l e => L.ofLabel l * value e := by
  obtain ⟨g, folds, rfl⟩ := splits.moves
  refine ⟨fun move member => ?_, ?_⟩
  · obtain ⟨_, valid, g, denotes, _⟩ := folds.exists_of_mem member
    exact ⟨valid, g, denotes⟩
  · refine congrArg (x.constant • 1 + ·) (folds.eq_sum ?_)
    rintro move _ ⟨_, g, denotes, rfl⟩
    rw [values denotes]

end Labelling

/-! ### Derived terms -/

namespace Derivation

variable {s : ExpressionSet} {alphabets : List Alphabet} {e : Exp K} {f : TupleSeries K}
variable {labels : s.labels = .tuple (alphabets.map .nullable)} {d : Derivation K} {l : Label}

open Expansion (splits_ofExp)

/-- Labels that can stand in an expansion read something. -/
theorem spells_of_valid (valid : (Labelling.joint K labels).Valid l) :
    l ≠ .special ∧ l.Spells alphabets.length := by
  obtain ⟨member, notOne⟩ := valid
  cases l with
  | tuple ls =>
    refine ⟨by simp, ls, rfl, ?_, fun empty => ?_⟩
    · rw [LabelSet.length_of_containsEach member, List.length_map]
    · have ones := LabelSet.allOne_of_letters member fun l listed =>
        empty _ (List.mem_map_of_mem listed)
      exact Bool.false_ne_true (notOne.symm.trans ones)
  | _ => cases member

/-- In a finished automaton the series of the states are what their transitions make of them. -/
theorem produces_of_stage {moves : List (Label × Exp K × K)} {V : State → TupleSeries K}
    {value : Exp K → TupleSeries K}
    (stage : Stage s (fun e => ∃ g, (Labelling.joint K labels).Denotes e g)
      (Labelling.joint K labels).Valid moves d) (done : d.queue = [])
    (expanded : ∀ {e g}, (Labelling.joint K labels).Denotes e g → g = value e ∧
      ∃ x, Expansion.ofExp s e = .ok x ∧ g = x.worth 1 fun l e => TupleSeries.ofLabel l * value e)
    (known : ∀ entry ∈ d.origins, V entry.1 = value entry.2)
    (unknown : ∀ s, s ∉ d.origins.map (·.1) → V s = 0) : d.automaton.Produces V where
  balance s notPre notPost := by
    by_cases made : s ∈ d.origins.map (·.1)
    · obtain ⟨entry, member, rfl⟩ := List.mem_map.mp made
      obtain ⟨g, denotes⟩ := stage.orderly.fit entry member
      obtain ⟨same, x, built, total⟩ := expanded denotes
      have agrees : d.Agrees (fun l y => if y = State.post then 1 else TupleSeries.ofLabel l * V y)
          fun l e => TupleSeries.ofLabel l * value e := by
        intro other listed l
        dsimp only
        rw [if_neg (stage.orderly.ne_post listed), known other listed]
      obtain ⟨x', built', row⟩ := stage.row_eq done agrees member
      cases built.symm.trans built'
      rw [known entry member, ← same, total, row, if_pos rfl]
    · rw [unknown s made, stage.orderly.row_eq_zero notPre made]
  post := by
    refine unknown _ fun made => ?_
    obtain ⟨entry, member, same⟩ := List.mem_map.mp made
    exact stage.orderly.ne_post member same

end Derivation

end WeightedAutomata
