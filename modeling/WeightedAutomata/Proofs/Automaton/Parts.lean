import WeightedAutomata.Proofs.Automaton.Isomorphism
import WeightedAutomata.Proofs.Automaton.Renumbering

/-! The part of an automaton with some of its states has the transitions between them. It gives to
words what the automaton does, if no state outside it gives anything. -/

set_option linter.unusedSectionVars false

namespace WeightedAutomata.Automaton

open scoped Weights

variable {K : Type} [Weights K]
variable {a : Automaton K} {keep : State → Bool} {s x y : State} {l : Label}

theorem edge_part (nonzero : a.Nonzero) (source : a.Stays keep x) (target : a.Stays keep y) :
    (a.restrict keep).Edge (a.placedIn keep x) l (a.placedIn keep y) ↔ a.Edge x l y := by
  constructor
  · rintro ⟨t, new, present, first, label, last⟩
    obtain ⟨u, tr, old, place⟩ := (exists_part_iff nonzero).mp ⟨t, present⟩
    obtain ⟨⟨source', target'⟩, rfl⟩ := placed?_eq_some.mp place
    exact ⟨u, tr, old, (placed_inj source' source).mp first, label,
      (placed_inj target' target).mp last⟩
  · rintro ⟨t, tr, present, rfl, rfl, rfl⟩
    obtain ⟨u, new⟩ := (exists_part_iff nonzero).mpr
      ⟨t, tr, present, placed?_eq_some.mpr ⟨⟨source, target⟩, rfl⟩⟩
    exact ⟨u, _, new, rfl, rfl, rfl⟩

/-! ### States of the part -/

/-- A renaming of the states with `P`, which takes the transitions between them to those of `b`,
with labels and weights as they are. It leaves `pre` and `post` as they are, between which and the
states initial and final transitions lead. -/
structure PartOf (a b : Automaton K) (P : State → Prop) (f : State → State) : Prop where
  labels : b.labels = a.labels
  bijective : Set.BijOn f {s | P s} {s | s ∈ b.stateList}
  pre : f State.pre = State.pre
  post : f State.post = State.post
  transitions (new : Transition K) : (∃ t, b.transition? t = some new) ↔
    ∃ t tr, a.transition? t = some tr ∧ ((State.isSentinel tr.source = true ∨ P tr.source) ∧
      (State.isSentinel tr.target = true ∨ P tr.target)) ∧
      ⟨f tr.source, f tr.target, tr.label, tr.weight⟩ = new

theorem bijOn_placed {kept : List State} (inner : ∀ s ∈ kept, State.isSentinel s = false)
    (distinct : kept.Nodup) :
    Set.BijOn (placed kept) {s | s ∈ kept} {s | s ∈ List.range' 2 kept.length} := by
  have place {s : State} (member : s ∈ kept) : ∃ i, kept[i]? = some s ∧ placed kept s = i + 2 := by
    obtain ⟨notPre, notPost⟩ := isSentinel_eq_false.mp (inner s member)
    exact ((placed_cases (.inr member)).2.resolve_left fun first => notPre first.1).resolve_left
      fun last => notPost last.1
  refine ⟨fun s member => ?_, fun x left y right => ?_, fun n member => ?_⟩
  · obtain ⟨i, found, number⟩ := place member
    refine List.mem_range'_1.mpr ⟨number ▸ Nat.le_add_left 2 i, ?_⟩
    rw [Nat.add_comm]
    exact placed_lt (.inr member)
  · exact (placed_inj (.inr left) (.inr right)).mp
  · obtain ⟨above, below⟩ := List.mem_range'_1.mp member
    obtain ⟨i, rfl⟩ := Nat.exists_eq_add_of_le' above
    have inside : i < kept.length := Nat.lt_of_add_lt_add_left (Nat.add_comm i 2 ▸ below)
    obtain ⟨j, found, number⟩ := place (List.getElem_mem inside)
    obtain ⟨_, equal⟩ := List.getElem?_eq_some_iff.mp found
    obtain rfl : j = i := distinct.getElem_inj_iff.mp equal
    exact ⟨kept[j], List.getElem_mem inside, number⟩

/-- The part with some states is made of these states and of the transitions between them. -/
theorem partOf_restrict (nonzero : a.Nonzero) (keep : State → Bool) :
    PartOf a (a.restrict keep) (fun s => s ∈ a.stateList ∧ keep s = true) (a.placedIn keep) where
  labels := labels_part a keep
  bijective := by
    have bijective : Set.BijOn (a.placedIn keep) {s | s ∈ a.keptStates keep}
        {s | s ∈ List.range' 2 (a.keptStates keep).length} :=
      bijOn_placed (fun s member => (mem_stateList.mp (mem_keptStates.mp member).1).1)
        (nodup_stateList.filter keep)
    simpa only [mem_keptStates, ← stateList_part] using bijective
  pre := rfl
  post := rfl
  transitions new := by
    simp only [exists_part_iff nonzero, placed?_eq_some, Kept, mem_keptStates]
    rfl

/-! ### Words -/

section

variable [Weights.Lawful K]
variable (lost : ∀ {x : State} {l : Label} {y : State}, a.Edge x l y → a.Stays keep x →
  ¬a.Stays keep y → ∀ u, a.reading u y = 0)

include lost

/-- If what does not stay gives nothing to words, a state that stays gives to words in the part what
it gives in the automaton. -/
theorem reading_part (u : List Char) (stays : a.Stays keep s) :
    (a.restrict keep).reading u (a.placedIn keep s) = a.reading u s := by
  induction u generalizing s with
  | nil => exact weightBetween_part (y := State.post) stays (.inl rfl)
  | cons c u ih =>
    rw [reading, reading, total_part]
    refine total_congr fun {t tr} present => ?_
    have edge : a.Edge tr.source tr.label tr.target := ⟨t, tr, present, rfl, rfl, rfl⟩
    by_cases source : a.Stays keep tr.source
    · by_cases target : a.Stays keep tr.target
      · rw [if_pos ⟨source, target⟩, ih target]
        exact if_congr (and_congr_left fun _ => placed_inj source stays) rfl rfl
      · rw [if_neg fun both => target both.2, lost edge source target, ite_self]
    · rw [if_neg fun both => source both.1, if_neg]
      rintro ⟨rfl, _⟩
      exact source stays

theorem weightOf_part (wellFormed : a.WellFormed) (u : List Char) :
    (a.restrict keep).weightOf (u.map Label.letter) = a.weightOf (u.map Label.letter) := by
  rw [weightOf_eq (steady_part wellFormed keep).wellFormed (solves_reading _),
    weightOf_eq wellFormed (solves_reading _), total_part]
  refine total_congr fun {t tr} present => ?_
  have edge : a.Edge tr.source tr.label tr.target := ⟨t, tr, present, rfl, rfl, rfl⟩
  by_cases stay : a.Stays keep tr.source ∧ a.Stays keep tr.target
  · rw [if_pos stay]
    exact if_congr (placed_eq_pre stay.1) (reading_part lost u stay.2) rfl
  · rw [if_neg stay]
    split
    · rename_i first
      have source : a.Stays keep tr.source := .inl (first ▸ rfl)
      exact (lost edge source (fun target => stay ⟨source, target⟩) u).symm
    · rfl

end

end WeightedAutomata.Automaton
