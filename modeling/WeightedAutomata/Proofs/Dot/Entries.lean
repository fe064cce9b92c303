import WeightedAutomata.Dot.Reader
import WeightedAutomata.Dot.Writer
import WeightedAutomata.Proofs.Automaton.Steady
import WeightedAutomata.Proofs.Label.Text
import WeightedAutomata.Proofs.Text.Reading
import WeightedAutomata.Proofs.Weights.Spelling

/-! The label of an edge is read as the transitions that share the edge. -/

set_option linter.unusedSectionVars false

namespace WeightedAutomata

theorem Text.trim_blank_cons (cs : List Char) : Text.trim (' ' :: cs) = Text.trim cs := by
  have front : Text.skipBlanks (' ' :: cs) = Text.skipBlanks cs :=
    List.dropWhile_cons_of_pos (by decide)
  unfold Text.trim
  rw [front]

namespace Dot

open Letter (Glyph Barred)

variable {t u w : List Char} {ts : List (List Char)}

/-! ### Commas -/

theorem prepend_nil (nonempty : ts ≠ []) : prepend [] ts = ts := by
  cases ts with
  | nil => exact absurd rfl nonempty
  | cons first rest => rfl

theorem prepend_append (t u : List Char) (ts : List (List Char)) :
    prepend (t ++ u) ts = prepend t (prepend u ts) := by
  cases ts with
  | nil => rfl
  | cons first rest =>
    change (t ++ u ++ first) :: rest = _
    rw [List.append_assoc]
    rfl

theorem splitEntries_ne_nil (depth : Nat) (cs : List Char) : splitEntries depth cs ≠ [] := by
  have prepended (cs : List Char) (ts : List (List Char)) : prepend cs ts ≠ [] := by
    cases ts <;> exact List.cons_ne_nil _ _
  fun_cases splitEntries depth cs <;> first | exact List.cons_ne_nil _ _ | exact prepended _ _

/-- No split is made in the text. -/
def Whole (t : List Char) : Prop :=
  ∀ rest, splitEntries 0 (t ++ rest) = prepend t (splitEntries 0 rest)

theorem whole_nil : Whole [] := fun _ => (prepend_nil (splitEntries_ne_nil 0 _)).symm

theorem Whole.append (left : Whole t) (right : Whole u) : Whole (t ++ u) := by
  intro rest
  rw [List.append_assoc, left, right, prepend_append]

theorem splitEntries_cons {depth : Nat} {c : Char} (rest : List Char) (backslash : c ≠ '\\')
    (opening : c ≠ '<') (closing : c ≠ '>') (comma : ¬(c = ',' ∧ depth = 0)) :
    splitEntries depth (c :: rest) = prepend [c] (splitEntries depth rest) := by
  rw [splitEntries]
  · rw [if_neg opening, if_neg closing, if_neg comma]
  · simp [backslash]

theorem whole_glyph {p : List Char} (glyph : Glyph p) : Whole p := by
  intro rest
  cases glyph with
  | escaped =>
    change splitEntries 0 ('\\' :: _ :: rest) = _
    rw [splitEntries]
  | @plain c _ other =>
    have differ (d : Char) (operator : d ∈ Letter.operators) : c ≠ d :=
      fun same => other (same ▸ operator)
    exact splitEntries_cons rest (differ _ (by decide)) (differ _ (by decide))
      (differ _ (by decide)) fun same => differ ',' (by decide) same.1

theorem whole_barred (barred : Barred t) : Whole t := by
  obtain ⟨ps, rfl, -, glyphs⟩ := barred
  induction ps with
  | nil => exact whole_nil
  | cons p ps ih =>
    obtain ⟨first, others⟩ := List.forall_mem_cons.mp glyphs
    have front : Whole p := by
      rcases first with glyph | rfl
      · exact whole_glyph glyph
      · exact fun rest => splitEntries_cons rest (by decide) (by decide) (by decide) (by decide)
    exact front.append (ih others)

/-- A label is no weight. -/
theorem head?_ne (barred : Barred t) : t.head? ≠ some '<' :=
  barred.head?_ne (by decide) (by decide)

/-- Commas inside a weight do not count. -/
theorem whole_weight (plain : ∀ c ∈ w, c ∉ Weights.brackets) : Whole ('<' :: (w ++ ['>'])) := by
  intro rest
  have inside : splitEntries 1 (w ++ '>' :: rest) =
      prepend (w ++ ['>']) (splitEntries 0 rest) := by
    induction w with
    | nil => rw [List.nil_append, splitEntries, if_neg (by decide), if_pos rfl]; rfl; simp
    | cons c w ih =>
      obtain ⟨first, others⟩ := List.forall_mem_cons.mp plain
      have differ (d : Char) (bracket : d ∈ Weights.brackets) : c ≠ d :=
        fun same => first (same ▸ bracket)
      rw [List.cons_append, splitEntries_cons _ (differ _ (by decide)) (differ _ (by decide))
        (differ _ (by decide)) (by simp), ih others]
      exact (prepend_append [c] _ _).symm
  have text : '<' :: (w ++ ['>']) ++ rest = '<' :: (w ++ '>' :: rest) := by simp
  rw [text, splitEntries, if_pos rfl, inside, ← prepend_append]
  · rfl
  · simp

theorem splitEntries_joined (first : Whole t) (others : ∀ t ∈ ts, Whole t) :
    splitEntries 0 (t ++ ts.flatMap fun t => ',' :: ' ' :: t) = t :: ts.map (' ' :: ·) := by
  induction ts generalizing t with
  | nil =>
    rw [List.flatMap_nil, first]
    exact congrArg (· :: []) (List.append_nil t)
  | cons u ts ih =>
    obtain ⟨second, rest⟩ := List.forall_mem_cons.mp others
    have comma (cs : List Char) : splitEntries 0 (',' :: ' ' :: cs) =
        [] :: prepend [' '] (splitEntries 0 cs) := by
      rw [splitEntries, if_neg (by decide), if_neg (by decide), if_pos ⟨rfl, rfl⟩,
        splitEntries_cons cs (by decide) (by decide) (by decide) (by decide)]
      simp
    rw [List.flatMap_cons, first, List.cons_append, List.cons_append, comma, ih second rest]
    exact congrArg (· :: _) (List.append_nil t)

theorem intercalate_cons (t : List Char) (ts : List (List Char)) :
    [',', ' '].intercalate (t :: ts) = t ++ ts.flatMap fun t => ',' :: ' ' :: t :=
  Text.intercalate_cons [',', ' '] t ts

/-- The entries that commas join are read one by one. -/
theorem entries_joined (whole : ∀ t ∈ ts, Whole t) (solid : ∀ t ∈ ts, Text.trim t = t)
    (nonempty : ts ≠ []) : entries (some ([',', ' '].intercalate ts)) = ts := by
  cases ts with
  | nil => exact absurd rfl nonempty
  | cons t ts =>
    obtain ⟨first, others⟩ := List.forall_mem_cons.mp whole
    obtain ⟨front, rest⟩ := List.forall_mem_cons.mp solid
    change (splitEntries 0 _).map Text.trim = _
    rw [intercalate_cons, splitEntries_joined first others, List.map_cons, List.map_map, front]
    refine congrArg (t :: ·) ((List.map_congr_left fun u member => ?_).trans ts.map_id)
    exact (Text.trim_blank_cons u).trans (rest u member)

/-! ### One entry -/

section

variable {K : Type} [Weights K] [Weights.Lawful K] [Weights.Legible K]
variable {a : Automaton K} {l : Label} {x : K} {s d : State} {span : Span}

open Automaton (coefficient)

/-- The weight in front of an entry. -/
theorem toList_coefficient (x : K) : Weights.isOne x = true ∧ (coefficient .ascii x).toList = [] ∨
    (coefficient .ascii x).toList = '<' :: ((Weights.format .ascii x).toList ++ ['>']) := by
  unfold coefficient
  cases one : Weights.isOne x with
  | true => exact .inl ⟨rfl, by simp⟩
  | false => exact .inr (by simp)

theorem whole_coefficient (writable : Weights.Legible.Writable x) :
    Whole (coefficient .ascii x).toList := by
  rcases toList_coefficient x with ⟨_, same⟩ | same <;> rw [same]
  · exact whole_nil
  · exact whole_weight fun c member => Weights.Legible.not_bracket .ascii writable member

theorem splitWeight_plain (opening : t.head? ≠ some '<') : splitWeight t = (none, Text.trim t) := by
  unfold splitWeight
  split
  · exact absurd rfl opening
  · rfl

theorem splitWeight_bracket (found : Text.Reader.splitDelimited '<' '>' u 0 = some (w, t)) :
    splitWeight ('<' :: u) = (some w, Text.trim t) := by
  simp only [splitWeight, found]

/-- The weight of an entry and its label. -/
theorem splitWeight_coefficient (writable : Weights.Legible.Writable x)
    (solid : ∀ c ∈ t, Text.isBlank c = false) (opening : t.head? ≠ some '<') : ∃ weight?,
      splitWeight ((coefficient .ascii x).toList ++ t) = (weight?, t) ∧
        (weight? = none ∧ x = Weights.one ∨ ∃ cs, weight? = some cs ∧ Weights.parse cs = .ok x) := by
  have trimmed : Text.trim t = t := Text.trim_of_solid solid
  rcases toList_coefficient x with ⟨one, same⟩ | same <;> rw [same]
  · refine ⟨none, ?_, .inl ⟨rfl, Weights.isOne_iff.mp one⟩⟩
    rw [List.nil_append, splitWeight_plain opening, trimmed]
  · have plain : ∀ c ∈ (Weights.format .ascii x).toList, c ≠ '<' ∧ c ≠ '>' ∧ c ≠ '\\' := by
      intro c member
      have other := Weights.Legible.not_bracket .ascii writable member
      refine ⟨?_, ?_, ?_⟩ <;> rintro rfl <;> exact other (by decide)
    have split := Text.Reader.splitDelimited_append (by decide) (by decide) plain t
    refine ⟨_, ?_, .inr ⟨_, rfl, Weights.Legible.reads .ascii writable⟩⟩
    rw [List.cons_append, List.append_assoc, List.singleton_append, splitWeight_bracket split,
      trimmed]

/-- What an entry with a weight in front of its label adds. -/
theorem addEntry_coefficient (span : Span) (source target : Endpoint)
    (writable : Weights.Legible.Writable x) (solid : ∀ c ∈ t, Text.isBlank c = false)
    (opening : t.head? ≠ some '<') :
    addEntry span source target a ((coefficient .ascii x).toList ++ t) = (do
      match source, target with
      | .before, .inner s => return a.addInitial s x
      | .inner s, .after => return a.addFinal s x
      | .inner s, .inner d =>
        if t.isEmpty then throw (.malformed span "missing transition label")
        else return a.addTransition s d (← a.labels.parseLabel t) x
      | _, _ => throw (.malformed span "invalid edge between pseudo nodes")) := by
  obtain ⟨weight?, split, weight⟩ := splitWeight_coefficient writable solid opening
  unfold addEntry
  rw [split]
  rcases weight with ⟨rfl, rfl⟩ | ⟨cs, rfl, read⟩
  · rfl
  · dsimp only
    rw [read]
    rfl

theorem addEntry_initial (span : Span) (writable : Weights.Legible.Writable x) :
    addEntry span .before (.inner s) a (coefficient .ascii x).toList = .ok (a.addInitial s x) := by
  have added := addEntry_coefficient (a := a) (t := []) span .before (.inner s) writable (by simp)
    (by simp)
  rwa [List.append_nil] at added

theorem addEntry_final (span : Span) (writable : Weights.Legible.Writable x) :
    addEntry span (.inner s) .after a (coefficient .ascii x).toList = .ok (a.addFinal s x) := by
  have added := addEntry_coefficient (a := a) (t := []) span (.inner s) .after writable (by simp)
    (by simp)
  rwa [List.append_nil] at added

theorem addEntry_inner (span : Span) (writable : Weights.Legible.Writable x) (barred : Barred t)
    (label : a.labels.parseLabel t = .ok l) :
    addEntry span (.inner s) (.inner d) a ((coefficient .ascii x).toList ++ t) =
      .ok (a.addTransition s d l x) := by
  have filled : ¬t.isEmpty = true := by simpa using barred.ne_nil
  rw [addEntry_coefficient span _ _ writable barred.not_blank (head?_ne barred)]
  dsimp only
  rw [if_neg filled, label]
  rfl

/-! ### Edges -/

theorem addEdges_two (span : Span) (label : Option (List Char)) (source target : Endpoint) :
    addEdges span label [source, target] a =
      (entries label).foldlM (addEntry span source target) a := by
  rw [addEdges]
  cases (entries label).foldlM (addEntry span source target) a <;> rfl

theorem trim_coefficient_append (solid : ∀ c ∈ t, Text.isBlank c = false) (x : K) :
    Text.trim ((coefficient .ascii x).toList ++ t) = (coefficient .ascii x).toList ++ t := by
  rcases toList_coefficient x with ⟨_, same⟩ | same <;> rw [same]
  · exact Text.trim_of_solid solid
  · refine Text.trim_of_solid_ends (fun c first => ?_) fun c last => ?_
    · obtain rfl : '<' = c := Option.some.inj first
      decide
    · cases t with
      | nil =>
        rw [List.append_nil, ← List.cons_append, List.getLast?_concat] at last
        obtain rfl : '>' = c := Option.some.inj last
        decide
      | cons d t =>
        rw [List.getLast?_append_of_ne_nil _ (List.cons_ne_nil d t)] at last
        exact solid c (List.mem_of_mem_getLast? last)

/-- The label of an edge from or to an invisible node. -/
theorem entries_outer (writable : Weights.Legible.Writable x) :
    entries (if (coefficient .ascii x).isEmpty then none else some (coefficient .ascii x).toList) =
      [(coefficient .ascii x).toList] := by
  split
  · rename_i empty
    have same : (coefficient .ascii x).toList = [] := by simpa using empty
    rw [same]
    rfl
  · have joined := entries_joined (List.forall_mem_singleton.mpr (whole_coefficient writable))
      (List.forall_mem_singleton.mpr ?_) (List.cons_ne_nil _ [])
    · rwa [intercalate_cons, List.flatMap_nil, List.append_nil] at joined
    · have trimmed := trim_coefficient_append (t := []) nofun x
      rwa [List.append_nil] at trimmed

/-- A transition whose label and weight are read back from their texts. -/
structure Entry (labels : LabelSet) (tr : Transition K) : Prop where
  writable : Weights.Legible.Writable tr.weight
  barred : Barred tr.label.text.toList
  reads : labels.parseLabel tr.label.text.toList = .ok tr.label

theorem foldlM_addEntry {trs : List (Transition K)} (span : Span)
    (each : ∀ tr ∈ trs, Entry a.labels tr) :
    (trs.map fun tr => (coefficient .ascii tr.weight).toList ++ tr.label.text.toList).foldlM
      (addEntry span (.inner s) (.inner d)) a =
        .ok (Automaton.addAll (trs.map fun tr => ⟨s, d, tr.label, tr.weight⟩) a) := by
  induction trs generalizing a with
  | nil => rfl
  | cons tr trs ih =>
    obtain ⟨first, others⟩ := List.forall_mem_cons.mp each
    rw [List.map_cons, List.foldlM_cons,
      addEntry_inner span first.writable first.barred first.reads]
    refine ih fun tr' member => ?_
    rw [Automaton.labels_addTransition]
    exact others tr' member

/-- The transitions of an edge, sorted. -/
def sorted (trs : List (Transition K)) : List (Transition K) :=
  trs.mergeSort fun t u => (t.order u).isLE

theorem addEdges_edgeLabel {trs : List (Transition K)} (span : Span) (nonempty : trs ≠ [])
    (each : ∀ tr ∈ trs, Entry a.labels tr) :
    addEdges span (some (Automaton.edgeLabel .ascii trs).toList) [.inner s, .inner d] a =
      .ok (Automaton.addAll ((sorted trs).map fun tr => ⟨s, d, tr.label, tr.weight⟩) a) := by
  have entry : ∀ tr ∈ sorted trs, Entry a.labels tr :=
    fun tr member => each tr (List.mem_mergeSort.mp member)
  have comma : ", ".toList = [',', ' '] := by simp
  have text : (Automaton.edgeLabel .ascii trs).toList = [',', ' '].intercalate ((sorted trs).map
      fun tr => (coefficient .ascii tr.weight).toList ++ tr.label.text.toList) := by
    unfold Automaton.edgeLabel
    rw [String.toList_intercalate, comma, List.map_map]
    refine congrArg _ (List.map_congr_left fun tr _ => ?_)
    exact String.toList_append
  rw [addEdges_two, text, entries_joined, foldlM_addEntry span entry]
  · intro t member
    obtain ⟨tr, listed, rfl⟩ := List.mem_map.mp member
    exact (whole_coefficient (entry tr listed).writable).append
      (whole_barred (entry tr listed).barred)
  · intro t member
    obtain ⟨tr, listed, rfl⟩ := List.mem_map.mp member
    exact trim_coefficient_append (entry tr listed).barred.not_blank tr.weight
  · rw [Ne, List.map_eq_nil_iff]
    intro empty
    have perm : (sorted trs).Perm trs := List.mergeSort_perm trs _
    rw [empty] at perm
    exact nonempty perm.nil_eq.symm

end

end Dot

end WeightedAutomata
