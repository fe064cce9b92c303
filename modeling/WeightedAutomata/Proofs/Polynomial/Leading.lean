import WeightedAutomata.Proofs.Polynomial.Value

/-! The first and the last word of a polynomial. The length of its longest label is that of the last
word, so that lengths add up in products. -/

set_option linter.unusedSectionVars false

namespace WeightedAutomata.Polynomial

open scoped Weights

open Label (Precedes ofWord letters_ofWord ofWord_letters ofWord_inj precedes_letters
  not_precedes_self)

open WordSeries (Leads)

variable {K : Type} [Weights K] [Weights.Lawful K]
variable {p q r : Polynomial K} {l : Label} {u : List Char} {w : K}
variable {rest : Terms Label K} {alphabet : Alphabet}

theorem Over.terms_eq_nil (within : p.Over (.words alphabet)) : p.terms = [] ↔ p.value = 0 := by
  constructor
  · intro empty
    rw [within.value_eq_sumOf, empty]
    rfl
  · intro zero
    rw [List.eq_nil_iff_forall_not_mem]
    rintro ⟨l, w⟩ present
    apply within.ne_zero present
    rw [← within.value_letters present, zero]
    rfl

theorem mem_letters {c : Char} (weighted : p.value u ≠ 0) (used : c ∈ u) : c ∈ p.letters := by
  refine List.mem_flatMap.mpr ⟨_, mem_of_value weighted, ?_⟩
  change c ∈ (ofWord u).letters
  rwa [letters_ofWord]

/-! ### The first word -/

theorem Over.leads (within : p.Over (.words alphabet)) (first : p.terms = (l, w) :: rest) :
    Leads Precedes p.value l.letters := by
  have present : (l, w) ∈ p.terms := first ▸ List.mem_cons_self
  constructor
  · rw [within.value_letters present]
    exact within.ne_zero present
  · intro u weighted
    have listed := mem_of_value weighted
    rw [first] at listed
    rcases List.mem_cons.mp listed with same | later
    · left
      have label : ofWord u = l := congrArg Prod.fst same
      rw [← label, letters_ofWord]
    · right
      have sorted := within.sorted
      rw [first] at sorted
      have member : (LabelSet.words alphabet).contains l = true := within.labelled _ present
      have known : (LabelSet.words alphabet).contains (ofWord u) = true :=
        within.labelled _ (mem_of_value weighted)
      rw [← letters_ofWord u, precedes_letters member known]
      exact (List.pairwise_cons.mp sorted).1 _ later

/-- Where a word comes first, its term does. -/
theorem Over.terms_of_leads (within : p.Over (.words alphabet)) (leads : Leads Precedes p.value u) :
    ∃ rest, p.terms = (ofWord u, p.value u) :: rest := by
  cases terms : p.terms with
  | nil => exact absurd (by rw [within.terms_eq_nil.mp terms]; rfl) leads.weighted
  | cons t rest =>
    obtain ⟨l, w⟩ := t
    have present : (l, w) ∈ p.terms := terms ▸ List.mem_cons_self
    have same : l.letters = u := (within.leads terms).unique .precedes leads
    refine ⟨rest, ?_⟩
    rw [← same, within.value_letters present, ofWord_letters (within.labelled _ present)]

/-! ### The last word -/

theorem maxLength_le_iff {n : Nat} :
    p.maxLength ≤ n ↔ ∀ term ∈ p.terms, term.1.length ≤ n := by
  have fold (ts : Terms Label K) (m : Nat) :
      ts.foldl (fun n t => max n t.1.length) m ≤ n ↔
        m ≤ n ∧ ∀ term ∈ ts, term.1.length ≤ n := by
    induction ts generalizing m with
    | nil => simp
    | cons t ts ih =>
      rw [List.foldl_cons, ih, List.forall_mem_cons, max_le_iff, and_assoc]
  exact (fold p.terms 0).trans (and_iff_right (Nat.zero_le n))

theorem length_le_maxLength (weighted : p.value u ≠ 0) : u.length ≤ p.maxLength := by
  rw [← Label.length_ofWord u]
  exact maxLength_le_iff.mp le_rfl _ (mem_of_value weighted)

theorem length_letters (member : (LabelSet.words alphabet).contains l = true) :
    l.letters.length = l.length := by
  rw [← Label.length_ofWord, ofWord_letters member]

theorem Over.exists_last (within : p.Over (.words alphabet)) (some : p.terms ≠ []) :
    ∃ u, Leads (flip Precedes) p.value u ∧ u.length = p.maxLength := by
  obtain ⟨front, ⟨l, w⟩, terms⟩ := (List.eq_nil_or_concat' p.terms).resolve_left some
  have present : (l, w) ∈ p.terms := by
    rw [terms]
    exact List.mem_append_right _ List.mem_cons_self
  have member : (LabelSet.words alphabet).contains l = true := within.labelled _ present
  have last : Leads (flip Precedes) p.value l.letters := by
    constructor
    · rw [within.value_letters present]
      exact within.ne_zero present
    · intro u weighted
      have listed := mem_of_value weighted
      have sorted := within.sorted
      rw [terms] at listed sorted
      rcases List.mem_append.mp listed with earlier | same
      · right
        have before := (List.pairwise_append.mp sorted).2.2 _ earlier _ List.mem_cons_self
        have known : (LabelSet.words alphabet).contains (ofWord u) = true :=
          within.labelled _ (mem_of_value weighted)
        change Precedes u l.letters
        rw [← letters_ofWord u, precedes_letters known member]
        exact before
      · left
        have label : ofWord u = l := congrArg Prod.fst (List.mem_singleton.mp same)
        rw [← label, letters_ofWord]
  refine ⟨l.letters, last, le_antisymm ?_ ?_⟩
  · exact length_le_maxLength last.weighted
  · rw [maxLength_le_iff]
    rintro ⟨m, v⟩ listed
    have weighted : p.value m.letters ≠ 0 := by
      rw [within.value_letters listed]
      exact within.ne_zero listed
    rw [← length_letters (within.labelled _ listed)]
    rcases last.first weighted with same | before
    · rw [same]
    · exact before.length_le

/-- The length of the longest label of a product. -/
theorem Over.maxLength_mul (left : p.Over (.words alphabet)) (right : q.Over (.words alphabet))
    (within : r.Over (.words alphabet)) (someLeft : p.terms ≠ []) (someRight : q.terms ≠ [])
    (product : p.value * q.value = r.value) :
    r.terms ≠ [] ∧ r.maxLength = p.maxLength + q.maxLength := by
  obtain ⟨u, leads, longest⟩ := left.exists_last someLeft
  obtain ⟨v, leads', longest'⟩ := right.exists_last someRight
  have last := leads.mul WordOrder.precedes.flip leads'
  rw [product] at last
  have some : r.terms ≠ [] := by
    intro empty
    apply last.weighted
    rw [within.terms_eq_nil.mp empty]
    rfl
  obtain ⟨w, leads'', longest''⟩ := within.exists_last some
  refine ⟨some, ?_⟩
  rw [← longest'', leads''.unique WordOrder.precedes.flip last, List.length_append, longest,
    longest']

/-- The labels of a factor fit in between those of the other one and of the product. -/
theorem Over.length_le_of_mul (left : p.Over (.words alphabet)) (right : q.Over (.words alphabet))
    (within : r.Over (.words alphabet)) (some : p.terms ≠ [])
    (product : p.value * q.value = r.value) :
    ∀ t ∈ q.terms, p.maxLength + t.1.length ≤ r.maxLength := by
  intro t present
  have longest := (left.maxLength_mul right within some (List.ne_nil_of_mem present) product).2
  rw [longest]
  exact Nat.add_le_add_left (maxLength_le_iff.mp le_rfl t present) _

end WeightedAutomata.Polynomial
