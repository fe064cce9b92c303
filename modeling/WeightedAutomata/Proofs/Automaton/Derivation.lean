import WeightedAutomata.Proofs.Automaton.Evaluation
import WeightedAutomata.Proofs.Automaton.Moves
import WeightedAutomata.Proofs.Expansion.Soundness
import WeightedAutomata.Proofs.Expression.Built

/-! Derived-term automata: each state gives to words what the expression of the state does. -/

set_option linter.unusedSectionVars false

namespace WeightedAutomata

open scoped Weights

open Interpretation (language)

variable {K : Type} [Weights K] [Weights.Lawful K]
variable {set : ExpressionSet}

/-! ### The terms of an expansion -/

section Terms

variable {A : Type} [Semiring A] [Algebra K A] {I : Semantics K set A}
variable {x : Expansion K} {F : Char → A}

/-- The terms that read the letter `c` are worth what follows it. -/
theorem Follows.worth_moves (follows : Follows I x.polynomials F) {value : Exp K → A}
    (values : ∀ {e g}, I.Denotes e g → g = value e) (c : Char) :
    worth (fun l e => if l = .letter c then value e else 0) x.moves = F c := by
  unfold Expansion.moves
  generalize x.polynomials = polynomials at follows
  induction polynomials generalizing F with
  | nil => exact (Folds.nil_iff.mp (follows.after c)).symm
  | cons entry rest ih =>
    obtain ⟨l, p⟩ := entry
    obtain ⟨d, rfl, first, others⟩ := follows.uncons
    rw [List.flatMap_cons, worth_append, ih others]
    by_cases same : c = d
    · subst same
      rw [if_pos rfl, add_zero]
      exact worth_terms first fun denotes => (values denotes).trans (if_pos rfl).symm
    · rw [if_neg same, worth_eq_zero, zero_add]
      intro move member
      have behind := (denotes_of_mem_terms first move member).1
      exact if_neg fun reads => same (Label.letter.inj (reads.symm.trans behind))

theorem Follows.fit (follows : Follows I x.polynomials F) :
    ∀ move ∈ x.moves, (∃ c, move.1 = .letter c) ∧ ∃ g, I.Denotes move.2.1 g := by
  unfold Expansion.moves
  generalize x.polynomials = polynomials at follows
  induction polynomials generalizing F with
  | nil => exact nofun
  | cons entry rest ih =>
    obtain ⟨l, p⟩ := entry
    obtain ⟨d, rfl, first, others⟩ := follows.uncons
    rw [List.flatMap_cons]
    refine List.forall_mem_append.mpr ⟨fun move member => ?_, ih others⟩
    obtain ⟨label, denotes⟩ := denotes_of_mem_terms first move member
    exact ⟨⟨d, label⟩, denotes⟩

end Terms

/-! ### The automaton -/

namespace Derivation

variable {single : set.labels.isTuple = false} {d : Derivation K} {e : Exp K}
variable {moves : List (Label × Exp K × K)} {V : State → WordSeries K} {value : Exp K → WordSeries K}

/-- In a finished automaton the series of the states split into what their transitions read. -/
theorem solves_of_stage (letterized : set.labels.isLetterized = true)
    (stage : Stage set (fun e => ∃ f, (language K set single).Denotes e f)
      (fun l => ∃ c, l = .letter c) moves d) (done : d.queue = [])
    (values : ∀ {e f}, (language K set single).Denotes e f → f = value e)
    (known : ∀ entry ∈ d.origins, V entry.1 = value entry.2)
    (unknown : ∀ s, s ∉ d.origins.map (·.1) → V s = 0) : d.automaton.Solves V where
  final s notPre := by
    have row : d.automaton.finalWeight s =
        d.automaton.row s fun l y => if l = .special ∧ y = State.post then 1 else 0 := by
      rw [Automaton.finalWeight, Automaton.weightBetween_eq_total, Automaton.row]
      exact Automaton.total_congr fun _ => ite_and _ _ _ _
    rw [row]
    by_cases made : s ∈ d.origins.map (·.1)
    · obtain ⟨entry, member, rfl⟩ := List.mem_map.mp made
      obtain ⟨f, denotes⟩ := stage.orderly.fit entry member
      have agrees : d.Agrees (fun l y => if l = .special ∧ y = State.post then (1 : K) else 0)
          fun _ _ => 0 :=
        fun other listed l => if_neg fun ends => stage.orderly.ne_post listed ends.2
      obtain ⟨x, expanded, total⟩ := stage.row_eq done agrees member
      have expands := Expansion.expands_ofExp letterized denotes expanded
      rw [total, Expansion.worth, worth_eq_zero fun _ _ => rfl, if_pos ⟨rfl, rfl⟩, add_zero,
        known entry member, ← values denotes, ← expands.constant]
      exact mul_one _
    · rw [unknown s made, stage.orderly.row_eq_zero notPre made]
      rfl
  follow s c notPre := by
    have row : (d.automaton.total fun x l y => if x = s ∧ l = .letter c then V y else 0) =
        d.automaton.row s fun l y => if l = .letter c then V y else 0 :=
      Automaton.total_congr fun _ => ite_and _ _ _ _
    rw [row]
    by_cases made : s ∈ d.origins.map (·.1)
    · obtain ⟨entry, member, rfl⟩ := List.mem_map.mp made
      obtain ⟨f, denotes⟩ := stage.orderly.fit entry member
      have agrees : d.Agrees (fun l y => if l = .letter c then V y else 0)
          fun l e => if l = .letter c then value e else 0 := by
        intro other listed l
        dsimp only
        rw [known other listed]
      obtain ⟨x, expanded, total⟩ := stage.row_eq done agrees member
      have expands := Expansion.expands_ofExp letterized denotes expanded
      rw [total, Expansion.worth, expands.follows.worth_moves values, if_neg (by simp), smul_zero,
        zero_add, known entry member, ← values denotes]
    · rw [unknown s made, stage.orderly.row_eq_zero notPre made]
      rfl

/-- The derived-term automaton of an expression gives to every word what the expression does. -/
theorem eval_ofExp {set : ExpressionSet} {e : Exp K} {f : WordSeries K} {steps : Nat}
    {d : Derivation K} {u : List Char}
    (single : set.labels.isTuple = false) (letterized : set.labels.isLetterized = true)
    (built : set.Built e) (defined : e.meaning set.labels = some f)
    (derived : Derivation.ofExp set steps e = some (.ok d))
    (visible : ∀ c ∈ u, Letter.Visible c) :
    d.automaton.eval (Automaton.wordText u) = .ok (f u) := by
  let value (e : Exp K) : WordSeries K := (e.meaning set.labels).getD 0
  have values {e : Exp K} {g : WordSeries K} (denotes : (language K set single).Denotes e g) :
      g = value e := by
    change g = (e.meaning set.labels).getD 0
    rw [denotes.1, Option.getD_some]
  have denotes : (language K set single).Denotes e f := ⟨defined, built.tidy single⟩
  obtain ⟨fits, initial⟩ := worth_initialMoves denotes values
  have closed {e : Exp K} {x : Expansion K} (known : ∃ g, (language K set single).Denotes e g)
      (expanded : Expansion.ofExp set e = .ok x) (move : Label × Exp K × K)
      (member : move ∈ x.moves) : (move.1 ≠ .special ∧ ∃ c, move.1 = .letter c) ∧
        ∃ g, (language K set single).Denotes move.2.1 g := by
    obtain ⟨g, denotes⟩ := known
    have expands := Expansion.expands_ofExp letterized denotes expanded
    obtain ⟨⟨c, letter⟩, found⟩ := expands.follows.fit move member
    exact ⟨⟨by rw [letter]; simp, c, letter⟩, found⟩
  obtain ⟨stage, done⟩ := (Stage.start (P := fun e => ∃ g, (language K set single).Denotes e g)
    (Q := fun l => ∃ c, l = .letter c) set fits).run closed derived
  obtain ⟨V, known, unknown⟩ := stage.orderly.exists_values value
  have reads : d.automaton.readsLetters = true := by
    unfold Automaton.readsLetters
    rw [stage.labels]
    cases labels : set.labels with
    | letters _ | nullable _ => rfl
    | words _ => simp [labels, LabelSet.isLetterized] at letterized
    | tuple _ => simp [labels, LabelSet.isTuple, LabelSet.tapes?] at single
  have proper : d.automaton.isProper = true := by
    refine Automaton.isProper_of_not_spontaneous fun {t tr} present => ?_
    unfold Transition.isSpontaneous
    rcases stage.orderly.labels present with special | ⟨c, letter⟩
    · rw [special]
      rfl
    · rw [letter]
      rfl
  rw [Automaton.eval_wordText stage.orderly.wellFormed reads proper
    (solves_of_stage letterized stage done values known unknown) visible]
  have total : d.automaton.row State.pre (fun _ y => V y) = f :=
    (stage.starts fun entry member _ => known entry member).trans initial
  rw [← total, Automaton.row, Automaton.total_apply]
  congr 1
  refine Automaton.total_congr fun present => ?_
  split <;> rfl

theorem eval_ofExp_of_doubled_star :
    let set : ExpressionSet := ⟨.letters (.ofLetters false ['a', 'b']), .linear⟩
    let e : Exp Int :=
      set.mul (set.lweight 2 (set.atom (.letter 'a'))) (set.star (set.atom (.letter 'b')))
    ∃ f d, set.Built e ∧ e.meaning set.labels = some f ∧
      Derivation.ofExp set 9 e = some (.ok d) ∧
      d.automaton.eval (Automaton.wordText ['a', 'b', 'b']) = .ok (f ['a', 'b', 'b']) ∧
      f ['a', 'b', 'b'] = 2 := by
  intro set e
  have built : set.Built e := .mul (.lweight 2 (.atom _)) (.star (.atom _))
  have visible : ∀ c ∈ ['a', 'b', 'b'], Letter.Visible c := by
    simp [Letter.Visible]
  obtain ⟨f, defined, doubled⟩ : ∃ f, e.meaning set.labels = some f ∧ f ['a', 'b', 'b'] = 2 :=
    ⟨_, rfl, rfl⟩
  have finishes : (Derivation.ofExp set 9 e).any Except.isOk = true := by decide +kernel
  obtain ⟨_ | d, derived, ok⟩ := (Option.any_eq_true _ _).mp finishes
  · cases ok
  exact ⟨f, d, built, defined, derived,
    eval_ofExp rfl rfl built defined derived visible, doubled⟩

end Derivation

end WeightedAutomata
