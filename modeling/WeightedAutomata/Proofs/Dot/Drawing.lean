import WeightedAutomata.Proofs.Automaton.Copy
import WeightedAutomata.Proofs.Dot.Entries
import WeightedAutomata.Proofs.Dot.Writer

/-! Statements of a graph description make states and transitions. -/

set_option linter.unusedSectionVars false

namespace WeightedAutomata.Dot

open Automaton (withStates)

variable {d e f : Drawing} {sayings others : List Saying} {saying : Saying}

/-- Whatever statements say `sayings`, they lead from one drawing to the other. -/
def Draws (sayings : List Saying) (d e : Drawing) : Prop :=
  ∀ sts : List Statement, sts.map Statement.saying = sayings → sts.foldlM Drawing.add d = .ok e

theorem draws_nil : Draws [] d d := by
  intro sts same
  obtain rfl := List.map_eq_nil_iff.mp same
  rfl

theorem Draws.append (first : Draws sayings d e) (second : Draws others e f) :
    Draws (sayings ++ others) d f := by
  intro sts same
  obtain ⟨front, back, rfl, left, right⟩ := List.map_eq_append_iff.mp same
  rw [List.foldlM_append, first front left]
  exact second back right

/-- Statements that change nothing. -/
theorem draws_each {α : Type} {xs : List α} {f : α → Saying} (each : ∀ x ∈ xs, Draws [f x] d d) :
    Draws (xs.map f) d d := by
  induction xs with
  | nil => exact draws_nil
  | cons x xs ih =>
    obtain ⟨first, others⟩ := List.forall_mem_cons.mp each
    exact first.append (ih others)

theorem draws_single (add : ∀ st : Statement, st.saying = saying → d.add st = .ok e) :
    Draws [saying] d e := by
  intro sts same
  obtain ⟨st, rest, rfl, here, nothing⟩ := List.map_eq_cons_iff.mp same
  obtain rfl := List.map_eq_nil_iff.mp nothing
  rw [List.foldlM_cons, add st here]
  rfl

/-! ### Settings -/

theorem draws_context {value : List Char} {c : Context} (read : Context.parse value = .ok c) :
    Draws [.setting "vcsn_context".toList value] d ⟨some (Machine.empty c), d.names⟩ := by
  refine draws_single fun st same => ?_
  cases st with
  | chain => cases same
  | «attribute» name value span =>
    cases same
    rw [Drawing.add, if_pos rfl, read]

theorem draws_setting {name value : List Char} (other : name ≠ "vcsn_context".toList) :
    Draws [.setting name value] d d := by
  refine draws_single fun st same => ?_
  cases st with
  | chain => cases same
  | «attribute» name value span =>
    cases same
    rw [Drawing.add, if_neg other]

/-! ### Nodes -/

variable {ws : WeightSet} [Weights.Lawful ws.Carrier] {a b : Automaton ws.Carrier}
variable {names : List (List Char × State)}
variable {n m : List Char} {source target : Endpoint} {label : Option (List Char)}

/-- The node stands for the endpoint, and drawing it changes nothing. -/
def Stands (names : List (List Char × State)) (n : List Char) (source : Endpoint) : Prop :=
  ∀ (node : Node) (m : Machine), node.name = n →
    Drawing.endpoint ⟨some m, names⟩ node = .ok (source, ⟨some m, names⟩)

theorem stands_before (initial : n.head? = some 'I') : Stands names n .before := by
  rintro node ⟨ws, a⟩ rfl
  unfold Drawing.endpoint
  simp only [initial]

theorem stands_after (final : n.head? = some 'F') : Stands names n .after := by
  rintro node ⟨ws, a⟩ rfl
  unfold Drawing.endpoint
  simp only [final]

/-- The name of a state. -/
def Inner (n : List Char) : Prop := n.head? ≠ some 'I' ∧ n.head? ≠ some 'F'

theorem stands_inner {s : State} (inner : Inner n) (known : names.lookup n = some s) :
    Stands names n (.inner s) := by
  rintro node ⟨ws, a⟩ rfl
  unfold Drawing.endpoint
  dsimp only
  split
  · exact absurd ‹_› inner.1
  · exact absurd ‹_› inner.2
  · rw [known]

theorem draws_chain {names' : List (List Char)} {label : Option (List Char)}
    (add : ∀ first rest, first.name :: rest.map Node.name = names' →
      d.add (.chain first rest label) = .ok e) : Draws [.chain names' label] d e := by
  refine draws_single fun st same => ?_
  cases st with
  | «attribute» => cases same
  | chain first rest label =>
    obtain ⟨listed, rfl⟩ := Saying.chain.inj same
    exact add first rest listed

/-- A node by itself. -/
theorem draws_node (made : ∀ node : Node, node.name = n → d.endpoint node = .ok (source, e)) :
    Draws [.chain [n] none] d e := by
  refine draws_chain fun first rest same => ?_
  obtain ⟨named, nothing⟩ := List.cons.inj same
  obtain rfl := List.map_eq_nil_iff.mp nothing
  have ends : Drawing.endpoints [first] d = .ok ([source], e) := by
    rw [Drawing.endpoints, made first named]
    rfl
  rw [Drawing.add, ends]
  obtain ⟨machine, names⟩ := e
  cases machine <;> rfl

/-- A node that stands for something already. -/
theorem Stands.draws (stands : Stands names n source) :
    Draws [.chain [n] none] ⟨some ⟨ws, a⟩, names⟩ ⟨some ⟨ws, a⟩, names⟩ :=
  draws_node fun node named => stands node ⟨ws, a⟩ named

/-- An edge between two nodes. -/
theorem Stands.draws_edge (from' : Stands names n source) (to' : Stands names m target)
    (added : ∀ span, addEdges span label [source, target] a = .ok b) :
    Draws [.chain [n, m] label] ⟨some ⟨ws, a⟩, names⟩ ⟨some ⟨ws, b⟩, names⟩ := by
  refine draws_chain fun first rest same => ?_
  obtain ⟨rfl, others⟩ := List.cons.inj same
  obtain ⟨second, rest, rfl, rfl, nothing⟩ := List.map_eq_cons_iff.mp others
  obtain rfl := List.map_eq_nil_iff.mp nothing
  have ends : Drawing.endpoints [first, second] ⟨some ⟨ws, a⟩, names⟩ =
      .ok ([source, target], ⟨some ⟨ws, a⟩, names⟩) := by
    rw [Drawing.endpoints, from' first ⟨ws, a⟩ rfl]
    dsimp only [bind, Except.bind]
    rw [Drawing.endpoints, to' second ⟨ws, a⟩ rfl]
    rfl
  rw [Drawing.add, ends]
  dsimp only [bind, Except.bind]
  rw [added]
  rfl

/-- The node of a new state. -/
theorem draws_newState (inner : Inner n) (unknown : names.lookup n = none) :
    Draws [.chain [n] none] ⟨some ⟨ws, a⟩, names⟩
      ⟨some ⟨ws, a.newState⟩, (n, a.nextState) :: names⟩ := by
  have made (node : Node) (named : node.name = n) : Drawing.endpoint ⟨some ⟨ws, a⟩, names⟩ node =
      .ok (.inner a.nextState, ⟨some ⟨ws, a.newState⟩, (n, a.nextState) :: names⟩) := by
    subst named
    unfold Drawing.endpoint
    dsimp only
    split
    · exact absurd ‹_› inner.1
    · exact absurd ‹_› inner.2
    · rw [unknown]
  exact draws_node made

/-! ### All states -/

theorem toList_text {s : State} (inner : State.isSentinel s = false) :
    s.text.toList = Nat.toDigits 10 s.number := by
  obtain ⟨notPre, notPost⟩ := Automaton.isSentinel_eq_false.mp inner
  rw [State.text, if_neg notPre, if_neg notPost]
  exact Nat.toList_repr

theorem inner_text {s : State} (inner : State.isSentinel s = false) : Inner s.text.toList := by
  have digit : ∀ c ∈ s.text.toList.head?, Text.isDigit c = true := by
    intro c first
    rw [toList_text inner] at first
    exact Text.isDigit_of_mem_toDigits (List.mem_of_mem_head? first)
  constructor
  · intro first
    exact absurd (digit _ first) (by decide)
  · intro first
    exact absurd (digit _ first) (by decide)

theorem text_inj {s t : State} (left : State.isSentinel s = false)
    (right : State.isSentinel t = false) (same : s.text.toList = t.text.toList) : s = t := by
  rw [toList_text left, toList_text right] at same
  have numbers : s.number = t.number := by
    rw [← Text.decimalValue_toDigits s.number, same, Text.decimalValue_toDigits]
  have bounds : 1 < s ∧ 1 < t := by
    exact ⟨by simpa [State.isSentinel] using left, by simpa [State.isSentinel] using right⟩
  exact tsub_left_inj bounds.1 bounds.2 |>.mp numbers

variable (ws names) in
/-- Nodes with new names make a state each, with numbers that go on from `k`. -/
theorem exists_draws_states {l : List State} (labels : LabelSet) (distinct : l.Nodup)
    (inner : ∀ s ∈ l, State.isSentinel s = false) (k : Nat)
    (unknown : ∀ s ∈ l, names.lookup s.text.toList = none) : ∃ names',
      Draws (l.map fun s => .chain [s.text.toList] none) ⟨some ⟨ws, withStates labels k⟩, names⟩
        ⟨some ⟨ws, withStates labels (k + l.length)⟩, names'⟩ ∧
      (∀ i s, l[i]? = some s → names'.lookup s.text.toList = some (k + i + 2)) ∧
      ∀ n, (∀ s ∈ l, n ≠ s.text.toList) → names'.lookup n = names.lookup n := by
  induction l generalizing k names with
  | nil => exact ⟨names, draws_nil, nofun, fun _ _ => rfl⟩
  | cons s l ih =>
    obtain ⟨first, others⟩ := List.forall_mem_cons.mp inner
    obtain ⟨new, rest⟩ := List.forall_mem_cons.mp unknown
    obtain ⟨fresh, distinct⟩ := List.nodup_cons.mp distinct
    have other : ∀ t ∈ l, t.text.toList ≠ s.text.toList := by
      intro t member same
      exact fresh (text_inj (others t member) first same ▸ member)
    have number : (withStates labels k : Automaton ws.Carrier).nextState = k + 2 :=
      Automaton.nextState_withStates labels k
    have made : Draws [.chain [s.text.toList] none] ⟨some ⟨ws, withStates labels k⟩, names⟩
        ⟨some ⟨ws, withStates labels (k + 1)⟩, (s.text.toList, k + 2) :: names⟩ := by
      rw [← number]
      exact draws_newState (inner_text first) new
    have skip {n : List Char} (differ : n ≠ s.text.toList) :
        List.lookup n ((s.text.toList, k + 2) :: names) = names.lookup n := by
      rw [List.lookup_cons, beq_eq_false_iff_ne.mpr differ]
    obtain ⟨names', drawn, places, kept⟩ := ih _ distinct others (k + 1) fun t member =>
      (skip (other t member)).trans (rest t member)
    have count : k + (s :: l).length = k + 1 + l.length := by
      rw [List.length_cons]
      omega
    refine ⟨names', ?_, ?_, ?_⟩
    · rw [count]
      exact made.append drawn
    · intro i t place
      cases i with
      | zero =>
        obtain rfl : s = t := Option.some.inj place
        rw [kept _ fun t member => (other t member).symm]
        exact List.lookup_cons_self
      | succ i =>
        rw [places i t place]
        exact congrArg some (by omega)
    · intro n differ
      obtain ⟨here, later⟩ := List.forall_mem_cons.mp differ
      rw [kept n later, skip here]

/-! ### Edges -/

/-- Once the states have names, what is said adds the transitions. -/
def Adds (names : List (List Char × State)) (labels : LabelSet) (sayings : List Saying)
    (trs : List (Transition ws.Carrier)) : Prop :=
  ∀ b : Automaton ws.Carrier, b.labels = labels →
    Draws sayings ⟨some ⟨ws, b⟩, names⟩ ⟨some ⟨ws, Automaton.addAll trs b⟩, names⟩

variable {labels : LabelSet} {trs us : List (Transition ws.Carrier)}

theorem adds_nil : Adds names labels [] ([] : List (Transition ws.Carrier)) :=
  fun _ _ => draws_nil

theorem Adds.append (first : Adds names labels sayings trs) (second : Adds names labels others us) :
    Adds names labels (sayings ++ others) (trs ++ us) := by
  intro b same
  have both := (first b same).append (second _ (Automaton.labels_addAll.trans same))
  rwa [Automaton.addAll, Automaton.addAll, ← List.foldl_append] at both

theorem adds_flatMap {α : Type} {xs : List α} {f : α → List Saying}
    {g : α → List (Transition ws.Carrier)} (each : ∀ x ∈ xs, Adds names labels (f x) (g x)) :
    Adds names labels (xs.flatMap f) (xs.flatMap g) := by
  induction xs with
  | nil => exact adds_nil
  | cons x xs ih =>
    obtain ⟨first, others⟩ := List.forall_mem_cons.mp each
    exact first.append (ih others)

theorem adds_map {α : Type} {xs : List α} {f : α → Saying} {g : α → Transition ws.Carrier}
    (each : ∀ x ∈ xs, Adds names labels [f x] [g x]) :
    Adds names labels (xs.map f) (xs.map g) := by
  rw [← List.flatMap_singleton' (xs.map f), ← List.flatMap_singleton' (xs.map g), List.flatMap_map,
    List.flatMap_map]
  exact adds_flatMap each

section

variable [Weights.Legible ws.Carrier] {s t : State} {x : ws.Carrier} {from' to' : String}

theorem adds_initial (invisible : from'.toList.head? = some 'I')
    (stands : Stands names to'.toList (.inner s)) (writable : Weights.Legible.Writable x) :
    Adds names labels [outerSaying from' to' (Automaton.coefficient .ascii x)]
      [⟨State.pre, s, .special, x⟩] := by
  intro b _
  refine (stands_before invisible).draws_edge stands fun span => ?_
  rw [addEdges_two, entries_outer writable, List.foldlM_cons, addEntry_initial span writable]
  rfl

theorem adds_final (stands : Stands names from'.toList (.inner s))
    (invisible : to'.toList.head? = some 'F') (writable : Weights.Legible.Writable x) :
    Adds names labels [outerSaying from' to' (Automaton.coefficient .ascii x)]
      [⟨s, State.post, .special, x⟩] := by
  intro b _
  refine stands.draws_edge (stands_after invisible) fun span => ?_
  rw [addEdges_two, entries_outer writable, List.foldlM_cons, addEntry_final span writable]
  rfl

theorem adds_inner (start : Stands names from'.toList (.inner s))
    (stop : Stands names to'.toList (.inner t)) (nonempty : trs ≠ [])
    (each : ∀ tr ∈ trs, Entry labels tr) : Adds names labels
      [.chain [from'.toList, to'.toList] (some (Automaton.edgeLabel .ascii trs).toList)]
      ((sorted trs).map fun tr => ⟨s, t, tr.label, tr.weight⟩) := by
  intro b same
  exact start.draws_edge stop fun span => addEdges_edgeLabel span nonempty (same ▸ each)

end

end WeightedAutomata.Dot
