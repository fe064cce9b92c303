import WeightedAutomata.Proofs.Automaton.Renumbering
import WeightedAutomata.Proofs.Context.Descriptor
import WeightedAutomata.Proofs.Dot.Drawing
import WeightedAutomata.Proofs.Dot.Transitions

/-! The description of an automaton is read back as the automaton, with its states numbered anew. -/

set_option linter.unusedSectionVars false

namespace WeightedAutomata

namespace Automaton

open scoped Weights

/-! ### The automaton of the drawn transitions -/

section

variable {K : Type} [Weights K] [Weights.Lawful K] {a : Automaton K} {s x y : State} {l : Label}

/-- The states of `b` are those of `a`, in order, with the same transitions between them. -/
structure Copies (a b : Automaton K) : Prop where
  labels : b.labels = a.labels
  steady : b.Steady
  stateCount : b.stateCount = a.stateCount
  initialWeight {i : Nat} {x x' : State} : a.stateList[i]? = some x → b.stateList[i]? = some x' →
    b.initialWeight x' = a.initialWeight x
  finalWeight {i : Nat} {x x' : State} : a.stateList[i]? = some x → b.stateList[i]? = some x' →
    b.finalWeight x' = a.finalWeight x
  weightBetween {i j : Nat} {x x' y y' : State} (l : Label) :
    a.stateList[i]? = some x → b.stateList[i]? = some x' →
    a.stateList[j]? = some y → b.stateList[j]? = some y' →
    b.weightBetween x' l y' = a.weightBetween x l y
  apart : b.weightBetween State.pre .special State.post =
    a.weightBetween State.pre .special State.post

/-- The drawn transitions, between states with new numbers. -/
def redrawn (a : Automaton K) : Automaton K :=
  addAll (a.drawn.map a.moved) (withStates a.labels a.stateCount)

theorem steady_redrawn (steady : a.Steady) : a.redrawn.Steady := by
  refine (steady_withStates _ _).addAll fun tr member => ?_
  obtain ⟨old, drawn, rfl⟩ := List.mem_map.mp member
  obtain ⟨t, present⟩ := (mem_drawn steady).mp drawn
  exact accepts_moved steady.wellFormed present fun s => hasState_withStates _ _

theorem total_redrawn (steady : a.Steady) (c : State → Label → State → K) :
    a.redrawn.total c = a.total fun x l y => c (a.renamed x) l (a.renamed y) := by
  have shares : (a.drawn.map a.moved).map (Transition.share c) =
      a.drawn.map (Transition.share fun x l y => c (a.renamed x) l (a.renamed y)) := by
    rw [List.map_map]
    rfl
  unfold redrawn
  rw [total_addAll, total_withStates, zero_add, shares, ((perm_drawn steady).map _).sum_eq,
    List.map_map]
  exact sum_allTransitions _

theorem weightBetween_redrawn (steady : a.Steady) (left : a.hasState x = true)
    (right : a.hasState y = true) (l : Label) :
    a.redrawn.weightBetween (a.renamed x) l (a.renamed y) = a.weightBetween x l y := by
  rw [weightBetween_eq_total, total_redrawn steady,
    weightBetween_eq_total]
  refine total_congr fun {t tr} present => ?_
  have source : a.hasState tr.source = true := steady.wellFormed.hasState_at present .source
  have target : a.hasState tr.target = true := steady.wellFormed.hasState_at present .target
  simp only [renamed_inj source left, renamed_inj target right]

theorem stateList_redrawn (a : Automaton K) :
    a.redrawn.stateList = List.range' 2 a.stateCount :=
  stateList_addAll_withStates _ _

/-- The copy has the states of the automaton in order. -/
theorem copies_redrawn (steady : a.Steady) : a.Copies a.redrawn := by
  have places {i : Nat} {x x' : State} (old : a.stateList[i]? = some x)
      (new : a.redrawn.stateList[i]? = some x') : a.hasState x = true ∧ a.renamed x = x' := by
    obtain ⟨inner, live⟩ := mem_stateList.mp (List.mem_of_getElem? old)
    obtain ⟨notPre, notPost⟩ := isSentinel_eq_false.mp inner
    refine ⟨live, ?_⟩
    rcases (renamed_cases live).2 with ⟨rfl, _⟩ | ⟨rfl, _⟩ | ⟨j, place, number⟩
    · exact absurd rfl notPre
    · exact absurd rfl notPost
    · have inside : i < a.stateCount := (List.getElem?_eq_some_iff.mp old).1
      obtain rfl : i = j := (List.getElem?_inj inside nodup_stateList).mp (old.trans place.symm)
      rw [stateList_redrawn, List.getElem?_range' inside, one_mul, Nat.add_comm] at new
      exact number.trans (Option.some.inj new)
  have pre := steady.wellFormed.hasState_sentinel (s := State.pre) rfl
  have post := steady.wellFormed.hasState_sentinel (s := State.post) rfl
  refine {
    labels := labels_addAll.trans (labels_withStates _ _)
    steady := steady_redrawn steady
    stateCount := ?_
    initialWeight := fun old new => ?_
    finalWeight := fun old new => ?_
    weightBetween := fun l old new old' new' => ?_
    apart := weightBetween_redrawn steady pre post .special }
  · unfold stateCount
    rw [stateList_redrawn, List.length_range']
    rfl
  · obtain ⟨live, rfl⟩ := places old new
    exact weightBetween_redrawn steady pre live .special
  · obtain ⟨live, rfl⟩ := places old new
    exact weightBetween_redrawn steady live post .special
  · obtain ⟨live, rfl⟩ := places old new
    obtain ⟨live', rfl⟩ := places old' new'
    exact weightBetween_redrawn steady live live' l

end

/-! ### Drawing -/

section

variable {ws : WeightSet} [Weights.Lawful ws.Carrier] [Weights.Legible ws.Carrier]
variable {a : Automaton ws.Carrier} {s : State} {tr : Transition ws.Carrier}
variable {names : List (List Char × State)}

open Dot

/-- An automaton whose description names every label and weight, and has nothing else to show. -/
structure Drawable (a : Automaton ws.Carrier) : Prop where
  steady : a.Steady
  apart : ¬a.Edge State.pre .special State.post
  writable {t : Nat} {tr : Transition ws.Carrier} : a.transition? t = some tr →
    Weights.Legible.Writable tr.weight
  entry {t : Nat} {tr : Transition ws.Carrier} : a.transition? t = some tr →
    tr.label ≠ .special → Entry a.labels tr
  context : Context.parse a.contextText.toList = .ok ⟨a.labels, ws⟩

/-- Whether the names are those of the states of the automaton. -/
def Names (a : Automaton ws.Carrier) (names : List (List Char × State)) : Prop :=
  ∀ s ∈ a.stateList, Stands names s.text.toList (.inner (a.renamed s))

theorem adds_departures (drawable : a.Drawable) (known : a.Names names) (listed : s ∈ a.stateList) :
    Adds names a.labels (a.departures s) ((a.drawnFrom s).map a.moved) := by
  have wellFormed := drawable.steady.wellFormed
  unfold departures drawnFrom
  rw [List.map_append]
  refine Adds.append ?_ ?_
  · split
    · rename_i final
      obtain ⟨t, tr, present, rfl, label, target⟩ := Automaton.isFinal_iff_edge.mp final
      have weight := weightBetween_of_present present
      rw [label, target] at weight
      refine adds_final (known _ listed) (by simp) ?_
      rw [finalWeight, weight]
      exact drawable.writable present
    · exact adds_nil
  · rw [List.map_eq_flatMap, List.map_flatMap]
    refine adds_flatMap fun d followed => ?_
    obtain ⟨tr, member, rfl⟩ := mem_ends.mp followed
    have group : ∀ tr' ∈ (a.successors s).filter (·.target == tr.target),
        tr' ∈ a.successors s ∧ tr'.target = tr.target := by
      intro tr' grouped
      rwa [List.mem_filter, beq_iff_eq] at grouped
    obtain ⟨⟨t, present, here⟩, inside⟩ := (mem_successors wellFormed).mp member
    have edge : a.Edge s tr.label tr.target := ⟨t, tr, present, here, rfl, rfl⟩
    have moved : (sorted ((a.successors s).filter (·.target == tr.target))).map a.moved =
        (sorted ((a.successors s).filter (·.target == tr.target))).map fun tr' =>
          ⟨a.renamed s, a.renamed tr.target, tr'.label, tr'.weight⟩ := by
      refine List.map_congr_left fun tr' grouped => ?_
      obtain ⟨found, target⟩ := mem_group.mp grouped
      obtain ⟨⟨_, _, source⟩, _⟩ := (mem_successors wellFormed).mp found
      rw [Automaton.moved, source, target]
    rw [moved]
    refine adds_inner (known s listed) (known _ (edge.mem_stateList wellFormed inside)) ?_ ?_
    · exact List.ne_nil_of_mem (List.mem_filter.mpr ⟨member, beq_self_eq_true _⟩)
    · intro tr' grouped
      obtain ⟨⟨t', present', here'⟩, inside'⟩ :=
        (mem_successors wellFormed).mp (group tr' grouped).1
      refine drawable.entry present' fun special => ?_
      rcases (wellFormed.special present').mp special with first | last
      · rw [here'] at first
        exact (isSentinel_eq_false.mp (mem_stateList.mp listed).1).1 first
      · exact inside' last

theorem adds_initials (drawable : a.Drawable) (known : a.Names names) :
    Adds names a.labels (a.initialStates.map fun s =>
      outerSaying ("I" ++ s.text) s.text (coefficient .ascii (a.initialWeight s)))
      (a.initialTransitions.map a.moved) := by
  have wellFormed := drawable.steady.wellFormed
  unfold initialStates
  rw [List.map_map]
  refine adds_map fun tr member => ?_
  obtain ⟨t, present, first⟩ := (mem_initialTransitions wellFormed).mp member
  have special : tr.label = .special := (wellFormed.special present).mpr (.inl first)
  have edge : a.Edge State.pre .special tr.target := ⟨t, tr, present, first, special, rfl⟩
  have inside : tr.target ≠ State.post := fun last => drawable.apart (last ▸ edge)
  have weight := weightBetween_of_present present
  rw [first, special] at weight
  have writable : Weights.Legible.Writable (a.initialWeight tr.target) := by
    rw [initialWeight, weight]
    exact drawable.writable present
  have moved : a.moved tr =
      ⟨State.pre, a.renamed tr.target, .special, a.initialWeight tr.target⟩ := by
    rw [Automaton.moved, first, special, initialWeight, weight]
    rfl
  rw [moved]
  exact adds_initial (by simp) (known _ (edge.mem_stateList wellFormed inside)) writable

/-- What is said about an automaton draws it again. -/
theorem draws_dotSayings (drawable : a.Drawable) : ∃ names,
    Draws a.dotSayings ⟨none, []⟩ ⟨some ⟨ws, a.redrawn⟩, names⟩ := by
  have inner : ∀ s ∈ a.stateList, State.isSentinel s = false :=
    fun s listed => (mem_stateList.mp listed).1
  obtain ⟨names, states, places, _⟩ := exists_draws_states ws [] a.labels nodup_stateList
    inner 0 fun _ _ => rfl
  have known : a.Names names := by
    intro s listed
    obtain ⟨notPre, notPost⟩ := isSentinel_eq_false.mp (inner s listed)
    refine stands_inner (inner_text (inner s listed)) ?_
    rcases (renamed_cases (mem_stateList.mp listed).2).2 with ⟨rfl, _⟩ | ⟨rfl, _⟩ | ⟨i, place, number⟩
    · exact absurd rfl notPre
    · exact absurd rfl notPost
    · rw [places i s place, number, Nat.zero_add]
  have context : Draws [.setting "vcsn_context".toList a.contextText.toList] ⟨none, []⟩
      ⟨some ⟨ws, withStates a.labels 0⟩, []⟩ :=
    draws_context drawable.context
  have direction : Draws [.setting "rankdir".toList "LR".toList]
      ⟨some ⟨ws, withStates a.labels 0⟩, []⟩ ⟨some ⟨ws, withStates a.labels 0⟩, []⟩ :=
    draws_setting (by decide)
  have initials : Draws (a.initialStates.map fun s => .chain [("I" ++ s.text).toList] none)
      ⟨some ⟨ws, withStates a.labels 0⟩, []⟩ ⟨some ⟨ws, withStates a.labels 0⟩, []⟩ :=
    draws_each fun s _ => (stands_before (by simp)).draws
  have finals : Draws (a.finalStates.map fun s => .chain [("F" ++ s.text).toList] none)
      ⟨some ⟨ws, withStates a.labels 0⟩, []⟩ ⟨some ⟨ws, withStates a.labels 0⟩, []⟩ :=
    draws_each fun s _ => (stands_after (by simp)).draws
  have edges : Draws _ ⟨some ⟨ws, withStates a.labels (0 + a.stateList.length)⟩, names⟩ _ :=
    ((adds_initials drawable known).append (adds_flatMap fun s listed =>
      adds_departures drawable known listed)) _ (labels_withStates a.labels _)
  have whole : addAll (a.initialTransitions.map a.moved ++
      a.stateList.flatMap fun s => (a.drawnFrom s).map a.moved)
      (withStates a.labels (0 + a.stateList.length)) = a.redrawn := by
    rw [← List.map_flatMap, ← List.map_append, Nat.zero_add]
    rfl
  rw [whole] at edges
  have opening := context.append direction
  exact ⟨names, opening.append (initials.append (finals.append (states.append edges)))⟩

theorem ofDot_of_drawable (drawable : a.Drawable) :
    Machine.ofDot (a.dot {}).toList = .ok ⟨ws, a.redrawn⟩ := by
  obtain ⟨sts, outline, said⟩ := a.outline_dot
  obtain ⟨names, draws⟩ := draws_dotSayings drawable
  unfold Machine.ofDot
  rw [outline]
  dsimp only [bind, Except.bind]
  rw [draws sts said]
  rfl

end

end Automaton

open Automaton

/-- The description of an automaton is read as the automaton, its states being numbered in order. -/
theorem Machine.ofDot_dot {ws : WeightSet} [ws.Exact] {a : Automaton ws.Carrier} (built : a.Built)
    (apart : ¬a.Edge State.pre .special State.post) (shallow : a.labels.Shallow)
    (listed : a.labels.Lists Letter.Visible) (visible : a.All fun tr => tr.label.Visible)
    (fits : a.All fun tr => ws.Fits tr.weight) :
    ∃ b, Machine.ofDot (a.dot {}).toList = .ok ⟨ws, b⟩ ∧ a.Copies b := by
  have steady := built.steady
  have writable {t : Nat} {tr : Transition ws.Carrier} (present : a.transition? t = some tr) :
      Weights.Legible.Writable tr.weight := ⟨fits present, steady.nonzero present⟩
  have drawable : a.Drawable := {
    steady := steady
    apart := apart
    writable := writable
    entry := fun {t tr} present plain => by
      have member := (built.sound.labelled present).resolve_left plain
      exact {
        writable := writable present
        barred := LabelSet.barred_text shallow member (visible present)
        reads := LabelSet.parseLabel_text shallow member (visible present) }
    context := Context.parse_text_of_exact ws
      (listed.imp fun c visible => Letter.Visible.named visible) }
  exact ⟨a.redrawn, ofDot_of_drawable drawable, copies_redrawn steady⟩

theorem Machine.ofDot_dot_of_deleted_state :
    let tapes : List LabelSet :=
      [.nullable (.ofLetters true [',', '<']), .words (.ofLetters false ['"', '\\'])]
    let states : Automaton (WeightSet.tropical .min).Carrier :=
      (Automaton.empty (.tuple tapes)).newState.newState.newState
    let edges := ((states.addTransition 2 3 (.tuple [.one, .one]) (.finite 1)).addTransition 2 4
      (.tuple [.letter '<', .word ['"', '\\']]) (.finite (-1))).addTransition 2 4
      (.tuple [.letter ',', .one]) (.finite 0)
    let a := ((edges.deleteState 3).setInitial 2 (.finite 3)).setFinal 4 (.finite 0)
    ∃ b, Machine.ofDot (a.dot {}).toList = .ok ⟨.tropical .min, b⟩ ∧ a.Copies b ∧
      b.stateCount = 2 := by
  intro tapes states edges a
  have start : states.Built := .newState (.newState (.newState (.empty _)))
  have built : a.Built := by
    refine .setFinal _ (.setInitial _ (.deleteState 3 ?_) (by decide +kernel) (by decide))
      (by decide +kernel) (by decide)
    exact .addTransition _ (.addTransition _ (.addTransition _ start (by decide +kernel)
      (by decide +kernel) (by decide +kernel)) (by decide +kernel) (by decide +kernel)
      (by decide +kernel)) (by decide +kernel) (by decide +kernel) (by decide +kernel)
  have labels : a.labels = .tuple tapes := by
    decide +kernel
  have transitions : (a.allTransitions.map fun entry =>
      ((entry.2.label, entry.2.weight) : Label × Tropical .min)) =
      [(.tuple [.letter '<', .word ['"', '\\']], .finite (-1)), (.tuple [.letter ',', .one], .finite 0),
        (.special, .finite 3), (.special, .finite 0)] := by
    decide +kernel
  have initial : a.initialStates = [2] := by decide +kernel
  have count : a.stateCount = 2 := by decide +kernel
  clear_value a
  have entries {t : Nat} {tr : Transition (Tropical .min)} (present : a.transition? t = some tr) :
      (tr.label, tr.weight) ∈ [(.tuple [.letter '<', .word ['"', '\\']], .finite (-1)),
        (.tuple [.letter ',', .one], .finite 0), (.special, .finite 3), (.special, .finite 0)] :=
    transitions ▸ List.mem_map_of_mem (mem_allTransitions.mpr present)
  simp only [List.mem_cons, Prod.mk.injEq, List.not_mem_nil, or_false] at entries
  have visible : a.All fun tr => tr.label.Visible := by
    intro t tr present
    rcases entries present with ⟨same, _⟩ | ⟨same, _⟩ | ⟨same, _⟩ | ⟨same, _⟩ <;> rw [same] <;>
      simp [Label.Visible, Label.AllVisible, Letter.Visible]
  have fits : a.All fun tr => (WeightSet.tropical .min).Fits tr.weight := by
    intro t tr present
    rcases entries present with ⟨_, same⟩ | ⟨_, same⟩ | ⟨_, same⟩ | ⟨_, same⟩ <;> rw [same] <;>
      exact ⟨by decide, by decide⟩
  have apart : ¬a.Edge State.pre .special State.post := by
    rw [← mem_initialStates built.steady.wellFormed, initial]
    decide
  have shallow : a.labels.Shallow := by
    rw [labels]
    exact ⟨by simp [tapes], by decide⟩
  have listed : a.labels.Lists Letter.Visible := by
    have first : ∀ c ∈ [',', '<'], Letter.Visible c := by simp [Letter.Visible]
    have second : ∀ c ∈ ['"', '\\'], Letter.Visible c := by simp [Letter.Visible]
    rw [labels]
    exact ⟨by simp [tapes], first, second, trivial⟩
  obtain ⟨b, read, copies⟩ := Machine.ofDot_dot built apart shallow listed visible fits
  exact ⟨b, read, copies, copies.stateCount.trans count⟩

end WeightedAutomata
