import WeightedAutomata.Proofs.Automaton.Delays
import WeightedAutomata.Proofs.Automaton.Pairs

/-! Cycles at one state that read the same labels. If they differ they part somewhere, so that a
pair of equal states and a pair of different ones reach each other, and they never leave the
strongly connected component of the state. -/

namespace WeightedAutomata.Automaton

open Label (wordAt)

variable {K : Type} {a : Automaton K} {x y z : Pair} {p q r s : State} {l : Label} {d : Bool}
variable {labels ls ms : List Label} {component : List State} {u v : State × State}

/-! ### Pairs along the way -/

theorem Follows.differ (follows : a.Follows x l y) (old : x.differ = true) : y.differ = true := by
  obtain ⟨tr, _, tr', _, _, _, rfl⟩ := follows
  exact Bool.or_eq_true_iff.mpr (.inl old)

namespace Leads

/-- Walks that differ go on to differ. -/
theorem differ (leads : a.Leads x ls y) (old : x.differ = true) : y.differ = true := by
  induction ls generalizing x with
  | nil => exact leads ▸ old
  | cons l ls ih =>
    obtain ⟨z, follows, rest⟩ := leads
    exact ih rest (follows.differ old)

theorem marked (leads : a.Leads x ls y) (marked : x.Marked) : y.Marked := by
  induction ls generalizing x with
  | nil => exact leads ▸ marked
  | cons l ls ih =>
    obtain ⟨z, follows, rest⟩ := leads
    exact ih rest follows.marked

/-- The first states of the pairs are on a way, and so are the second ones. -/
theorem reaches (leads : a.Leads x ls y) :
    Graph.Reaches a.next x.first y.first ∧ Graph.Reaches a.next x.second y.second := by
  induction ls generalizing x with
  | nil => exact leads ▸ ⟨.refl, .refl⟩
  | cons l ls ih =>
    obtain ⟨z, ⟨tr, listed, tr', listed', _, _, rfl⟩, rest⟩ := leads
    obtain ⟨first, second⟩ := ih rest
    exact ⟨.head (List.mem_map_of_mem listed) first, .head (List.mem_map_of_mem listed') second⟩

/-- Walks that come to differ are at different states somewhere. -/
theorem exists_apart (leads : a.Leads x ls y) (together : x.first = x.second)
    (same : x.differ = false) (differ : y.differ = true) :
    ∃ ls' ms z, a.Leads x ls' z ∧ a.Leads z ms y ∧ z.first ≠ z.second := by
  induction ls generalizing x with
  | nil =>
    obtain rfl : x = y := leads
    rw [same] at differ
    cases differ
  | cons l ls ih =>
    obtain ⟨z, follows, rest⟩ := leads
    by_cases parted : z.first = z.second
    · have still : z.differ = false := by
        obtain ⟨tr, _, tr', _, _, _, rfl⟩ := follows
        rw [same, Bool.false_or]
        exact bne_eq_false_iff_eq.mpr parted
      obtain ⟨ls', ms, z', before, after, apart⟩ := ih rest parted still
      exact ⟨l :: ls', ms, z', ⟨z, follows, before⟩, after, apart⟩
    · exact ⟨[l], ls, z, leads_singleton.mpr follows, rest, parted⟩

end Leads

/-! ### One component -/

theorem mem_componentPairs : v ∈ a.componentPairs component u ↔
    ∃ l, a.Follows ⟨u.1, u.2, d⟩ l ⟨v.1, v.2, d || v.1 != v.2⟩ ∧ v.1 ∈ component ∧
      v.2 ∈ component := by
  obtain ⟨q, r⟩ := v
  simp only [componentPairs, List.mem_flatMap, List.mem_map, List.mem_filter, Bool.and_eq_true,
    decide_eq_true_eq, List.contains_iff_mem]
  constructor
  · rintro ⟨tr, listed, tr', ⟨listed', ⟨same, inside⟩, inside'⟩, equal⟩
    obtain ⟨rfl, rfl⟩ := Prod.mk.inj equal
    exact ⟨tr.label, ⟨tr, listed, tr', listed', rfl, same.symm, rfl⟩, inside, inside'⟩
  · rintro ⟨_, ⟨tr, listed, tr', listed', rfl, same, equal⟩, inside, inside'⟩
    obtain ⟨rfl, rfl, _⟩ := Pair.mk.inj equal
    exact ⟨tr, listed, tr', ⟨listed', ⟨same.symm, inside⟩, inside'⟩, rfl⟩

/-- What is reached within a component is reached by labels. -/
theorem exists_leads (way : Graph.Reaches (a.componentPairs component) u v) (d : Bool) :
    ∃ ls d', a.Leads ⟨u.1, u.2, d⟩ ls ⟨v.1, v.2, d'⟩ := by
  induction way using Relation.ReflTransGen.head_induction_on generalizing d with
  | refl => exact ⟨[], d, rfl⟩
  | head edge _ ih =>
    obtain ⟨l, follows, _⟩ := (mem_componentPairs (d := d)).mp edge
    obtain ⟨ls, d', leads⟩ := ih (d || _)
    exact ⟨l :: ls, d', _, follows, leads⟩

/-- Labels that lead from one pair of states of a strongly connected component to another do so
within it. -/
theorem Leads.reaches_componentPairs {nodes : List State} {components : List (List State)}
    (decomposes : Graph.Decomposes a.next nodes components) (listed : component ∈ components)
    (leads : a.Leads x ls y) (start : x.first ∈ component) (start' : x.second ∈ component)
    (stop : y.first ∈ component) (stop' : y.second ∈ component) :
    Graph.Reaches (a.componentPairs component) (x.first, x.second) (y.first, y.second) := by
  induction ls generalizing x with
  | nil => exact leads ▸ .refl
  | cons l ls ih =>
    obtain ⟨z, follows, rest⟩ := leads
    have before := (leads_singleton.mpr follows).reaches
    have after := rest.reaches
    have inside := decomposes.mem_of_between listed start stop before.1 after.1
    have inside' := decomposes.mem_of_between listed start' stop' before.2 after.2
    refine .head ((mem_componentPairs (d := x.differ)).mpr ⟨l, ?_, inside, inside'⟩)
      (ih rest inside inside')
    obtain ⟨tr, listed, tr', listed', same, same', rfl⟩ := follows
    exact ⟨tr, listed, tr', listed', same, same', rfl⟩

/-- The search finds a pair of equal states and a pair of different ones that reach each other. -/
theorem hasAmbiguousCycle_iff : a.hasAmbiguousCycle component = true ↔
    ∃ p ∈ component, ∃ q r, q ≠ r ∧ Graph.Reaches (a.componentPairs component) (p, p) (q, r) ∧
      Graph.Reaches (a.componentPairs component) (q, r) (p, p) := by
  unfold hasAmbiguousCycle
  dsimp only
  generalize shape : (component.flatMap fun p => component.map fun q => (p, q)) = pairs
  have mem_pairs {u : State × State} : u ∈ pairs ↔ u.1 ∈ component ∧ u.2 ∈ component := by
    obtain ⟨p, q⟩ := u
    rw [← shape]
    simp
  have inside (u v : State × State) (edge : v ∈ a.componentPairs component u) : v ∈ pairs := by
    obtain ⟨_, _, first, second⟩ := (mem_componentPairs (d := false)).mp edge
    exact mem_pairs.mpr ⟨first, second⟩
  have decomposes : Graph.Decomposes (a.componentPairs component) pairs
      (Graph.components pairs.length pairs (a.componentPairs component)) :=
    Graph.decomposes_components (T := pairs.toFinset) (fun u => List.mem_toFinset.mpr)
      (fun u _ v edge => List.mem_toFinset.mpr (inside u v edge)) (List.toFinset_card_le pairs)
  simp only [List.any_eq_true, Bool.and_eq_true, decide_eq_true_eq]
  constructor
  · rintro ⟨c, listed, ⟨⟨p, p'⟩, member, same⟩, ⟨q, r⟩, member', apart⟩
    obtain rfl : p = p' := same
    obtain ⟨there, back⟩ := (decomposes.mem_iff listed member).mp member'
    have known : (p, p) ∈ pairs := decomposes.forall_mem (fun _ => id) inside listed member
    exact ⟨p, (mem_pairs.mp known).1, q, r, apart, there, back⟩
  · rintro ⟨p, member, q, r, apart, there, back⟩
    have known : (p, p) ∈ pairs := mem_pairs.mpr ⟨member, member⟩
    obtain ⟨c, listed, here⟩ := decomposes.exists_component known
    exact ⟨c, listed, ⟨(p, p), here, rfl⟩, (q, r),
      (decomposes.mem_iff listed here).mpr ⟨there, back⟩, apart⟩

/-! ### The answer -/

/-- Whether two different walks from the state back to it read the labels. -/
def CycleTwice (a : Automaton K) (p : State) (labels : List Label) : Prop :=
  ∃ ts us, ts ≠ us ∧ a.Walk p ts p ∧ a.Walk p us p ∧ a.labelsAlong ts = labels ∧
    a.labelsAlong us = labels

theorem cycleTwice_iff (wellFormed : a.WellFormed) (member : p ∈ a.stateList) :
    a.CycleTwice p labels ↔ a.Leads ⟨p, p, false⟩ labels ⟨p, p, true⟩ := by
  obtain ⟨start, stop⟩ := isSentinel_eq_false.mp (mem_stateList.mp member).1
  rw [leads_iff wellFormed (fun apart => absurd rfl apart) start start stop stop]
  constructor
  · rintro ⟨ts, us, differ, walk, walk', read, read'⟩
    exact ⟨ts, us, walk, walk', read, read', iff_of_true rfl (.inr differ)⟩
  · rintro ⟨ts, us, walk, walk', read, read', differ⟩
    exact ⟨ts, us, (differ.mp rfl).resolve_left Bool.false_ne_true, walk, walk', read, read'⟩

/-- Labels that two different walks read are not empty. -/
theorem CycleTwice.ne_nil (twice : a.CycleTwice p labels) (wellFormed : a.WellFormed)
    (member : p ∈ a.stateList) : labels ≠ [] := by
  rintro rfl
  cases (cycleTwice_iff wellFormed member).mp twice

/-- Two different cycles read the same labels if some component has such cycles. -/
theorem any_hasAmbiguousCycle (wellFormed : a.WellFormed) :
    a.stronglyConnected.any a.hasAmbiguousCycle = true ↔
      ∃ p ∈ a.stateList, ∃ labels, a.CycleTwice p labels := by
  have decomposes := decomposes wellFormed
  rw [List.any_eq_true]
  constructor
  · rintro ⟨component, listed, found⟩
    obtain ⟨p, inside, q, r, apart, there, back⟩ := hasAmbiguousCycle_iff.mp found
    have member : p ∈ a.stateList := by
      refine decomposes.forall_mem (fun _ => id) (fun x y edge => ?_) listed inside
      obtain ⟨tr, listed, rfl⟩ := List.mem_map.mp edge
      exact target_of_mem_successors wellFormed listed
    obtain ⟨ls, d, first⟩ := exists_leads there false
    obtain rfl : d = true := first.marked (fun differ => absurd rfl differ) apart
    obtain ⟨ms, d', second⟩ := exists_leads back true
    obtain rfl : d' = true := second.differ rfl
    exact ⟨p, member, ls ++ ms, (cycleTwice_iff wellFormed member).mpr
      (leads_append.mpr ⟨_, first, second⟩)⟩
  · rintro ⟨p, member, labels, twice⟩
    obtain ⟨component, listed, here⟩ := decomposes.exists_component member
    -- The walks part at a pair of different states, which lies between two states that are `p`.
    obtain ⟨ls, ms, z, before, after, apart⟩ :=
      ((cycleTwice_iff wellFormed member).mp twice).exists_apart rfl rfl rfl
    have inside := decomposes.mem_of_between listed here here before.reaches.1 after.reaches.1
    have inside' := decomposes.mem_of_between listed here here before.reaches.2 after.reaches.2
    exact ⟨component, listed, hasAmbiguousCycle_iff.mpr ⟨p, here, z.first, z.second, apart,
      before.reaches_componentPairs decomposes listed here here inside inside',
      after.reaches_componentPairs decomposes listed inside inside' here here⟩⟩

/-- The search for two cycles that read one word succeeds if there are a state and labels that two
different walks from the state back to it read. Unless there is no tape at all, labels are the same
if they spell the same word on each tape. -/
theorem isCycleAmbiguous_spec (sound : a.Sound) (free : a.labels.isFree = true) :
    (a.isCycleAmbiguous = .ok true ↔
      ∃ p ∈ a.stateList, ∃ labels, labels ≠ [] ∧ a.CycleTwice p labels) ∧
    ((¬∃ p ∈ a.stateList, ∃ labels, labels ≠ [] ∧ a.CycleTwice p labels) →
      a.isCycleAmbiguous = .ok false) ∧
    (a.labels.tapeCount ≠ 0 → ∀ ts us, a.labelsAlong ts = a.labelsAlong us ↔
      ∀ i < a.labels.tapeCount,
        wordAt (a.labelsAlong ts) i = wordAt (a.labelsAlong us) i) := by
  have result : a.isCycleAmbiguous = .ok (a.stronglyConnected.any a.hasAmbiguousCycle) := by
    rw [isCycleAmbiguous, requireFree, if_pos free]
    rfl
  have found : a.stronglyConnected.any a.hasAmbiguousCycle = true ↔
      ∃ p ∈ a.stateList, ∃ labels, labels ≠ [] ∧ a.CycleTwice p labels := by
    rw [any_hasAmbiguousCycle sound.wellFormed]
    refine exists_congr fun p => and_congr_right fun member => exists_congr fun labels => ?_
    exact (and_iff_right_of_imp fun twice => twice.ne_nil sound.wellFormed member).symm
  rw [result, Except.ok.injEq, Except.ok.injEq, ← found, Bool.not_eq_true]
  exact ⟨Iff.rfl, id, fun tapes => sound.labelsAlong_eq_iff free tapes⟩

/-- Two cycles of three transitions that part after the first one, in an automaton without initial
and final states. -/
theorem isCycleAmbiguous_of_parting_cycles :
    let step (a : Automaton (Tropical .min)) (s : State) (c : Char) (s' : State) :=
      a.addTransition s s' (.letter c) (.finite 1)
    let states : Automaton (Tropical .min) :=
      (empty (.letters (.ofLetters false ['a', 'b']))).newState.newState.newState.newState
    let a := step (step (step (step (step states 2 'a' 3) 3 'b' 4) 3 'b' 5) 4 'a' 2) 5 'a' 2
    a.Built ∧ a.labels.isFree = true ∧ a.isCycleAmbiguous = .ok true ∧
      ∃ p ∈ a.stateList, ∃ labels, labels ≠ [] ∧ a.CycleTwice p labels := by
  intro step states a
  have built : a.Built := by
    have start : states.Built := .newState (.newState (.newState (.newState (.empty _))))
    have stepped {b : Automaton (Tropical .min)} {s s' : State} {c : Char} (built : b.Built)
        (here : s ∈ b.stateList) (there : s' ∈ b.stateList)
        (member : b.labels.contains (.letter c) = true) : (step b s c s').Built :=
      .addTransition _ built here there member
    exact stepped (stepped (stepped (stepped (stepped start (by decide +kernel) (by decide +kernel)
      (by decide +kernel)) (by decide +kernel) (by decide +kernel) (by decide +kernel))
      (by decide +kernel) (by decide +kernel) (by decide +kernel)) (by decide +kernel)
      (by decide +kernel) (by decide +kernel)) (by decide +kernel) (by decide +kernel)
      (by decide +kernel)
  have free : a.labels.isFree = true := by decide +kernel
  have found : a.isCycleAmbiguous = .ok true := by decide +kernel
  exact ⟨built, free, found, (isCycleAmbiguous_spec built.sound free).1.mp found⟩

end WeightedAutomata.Automaton
