import Mathlib.Data.List.Sort
import WeightedAutomata.Polynomial.Terms

/-! Coefficients of finite sums and how one changes. -/

namespace WeightedAutomata.Terms

variable {α β : Type} [Ord α]
variable {key k : α} {b : β} {terms rest : Terms α β} {change : Option β → Option β}

/-- The keys increase. -/
def Sorted (terms : Terms α β) : Prop := terms.Pairwise fun x y => compare x.1 y.1 = .lt

/-- A change of a coefficient leaves the other keys in place. -/
theorem key_of_mem_update {term : α × β} (present : term ∈ update key change terms) :
    term.1 = key ∨ term ∈ terms := by
  have new {o : Option β} (member : term ∈ o.toList.map (key, ·)) : term.1 = key := by
    obtain ⟨b, _, rfl⟩ := List.mem_map.mp member
    rfl
  induction terms with
  | nil => exact .inl (new present)
  | cons head rest ih =>
    obtain ⟨k, b⟩ := head
    rw [update] at present
    split at present
    · exact (List.mem_append.mp present).imp new id
    · exact (List.mem_append.mp present).imp new (List.mem_cons_of_mem _)
    · rcases List.mem_cons.mp present with rfl | later
      · exact .inr List.mem_cons_self
      · exact (ih later).imp id (List.mem_cons_of_mem _)

/-- A term that is there after a change of a coefficient was there before, or has the changed one. -/
theorem of_mem_update {term : α × β} (present : term ∈ update key change terms) :
    term ∈ terms ∨ ∃ old, (∀ b, old = some b → ∃ k, (k, b) ∈ terms) ∧ change old = some term.2 := by
  have new {old : Option β} (member : term ∈ (change old).toList.map (key, ·)) :
      change old = some term.2 := by
    obtain ⟨b, there, rfl⟩ := List.mem_map.mp member
    exact Option.mem_toList.mp there
  induction terms with
  | nil => exact .inr ⟨none, by simp, new present⟩
  | cons head rest ih =>
    obtain ⟨k, b⟩ := head
    rw [update] at present
    split at present
    · exact (List.mem_append.mp present).symm.imp id fun first =>
        ⟨none, by simp, new first⟩
    · refine (List.mem_append.mp present).symm.imp (List.mem_cons_of_mem _) fun first => ?_
      refine ⟨some b, ?_, new first⟩
      rintro _ ⟨⟩
      exact ⟨k, List.mem_cons_self⟩
    · rcases List.mem_cons.mp present with rfl | later
      · exact .inl List.mem_cons_self
      · refine (ih later).imp (List.mem_cons_of_mem _) ?_
        rintro ⟨old, there, changed⟩
        exact ⟨old, fun b same => (there b same).imp fun _ => List.mem_cons_of_mem _, changed⟩

variable [Std.LawfulEqOrd α]

theorem compare_self (key : α) : compare key key = .eq := Std.ReflCmp.compare_self

section

variable [Std.TransOrd α]

theorem Sorted.update (sorted : Sorted terms) : Sorted (Terms.update key change terms) := by
  have single (o : Option β) : Sorted (o.toList.map (key, ·)) := by
    cases o with
    | none => exact .nil
    | some b => exact List.pairwise_singleton _ _
  have front {o : Option β} {tail : Terms α β} (tailSorted : Sorted tail)
      (below : ∀ term ∈ tail, compare key term.1 = .lt) :
      Sorted (o.toList.map (key, ·) ++ tail) := by
    refine List.pairwise_append.mpr ⟨single o, tailSorted, ?_⟩
    intro term member
    obtain ⟨b, _, rfl⟩ := List.mem_map.mp member
    exact below
  induction terms with
  | nil => exact single _
  | cons head rest ih =>
    obtain ⟨k, b⟩ := head
    obtain ⟨least, tail⟩ := List.pairwise_cons.mp sorted
    rw [Terms.update]
    split
    · rename_i less
      refine front sorted fun term member => ?_
      rcases List.mem_cons.mp member with rfl | later
      · exact less
      · exact Std.TransCmp.lt_trans less (least term later)
    · rename_i same
      exact front tail (Std.LawfulEqOrd.eq_of_compare same ▸ least)
    · rename_i greater
      refine List.pairwise_cons.mpr ⟨fun term member => ?_, ih tail⟩
      rcases key_of_mem_update member with same | later
      · rw [same]
        exact Std.OrientedCmp.lt_of_gt greater
      · exact least term later

end

variable [DecidableEq α]

theorem get?_cons : get? key ((k, b) :: rest) = if key = k then some b else get? key rest := by
  unfold get?
  rw [List.find?_cons]
  by_cases same : key = k
  · simp [same]
  · have differ : (compare key k == .eq) = false := by
      rw [beq_eq_false_iff_ne]
      exact fun equal => same (Std.LawfulEqOrd.eq_of_compare equal)
    simp only [differ, if_neg same]

theorem mem_of_get? (present : get? key terms = some b) : (key, b) ∈ terms := by
  induction terms with
  | nil => cases present
  | cons term rest ih =>
    rw [get?_cons] at present
    split at present
    · rename_i same
      obtain rfl := Option.some.inj present
      exact same ▸ List.mem_cons_self
    · exact List.mem_cons_of_mem term (ih present)

theorem get?_eq_none (absent : ∀ term ∈ terms, term.1 ≠ key) : get? key terms = none := by
  induction terms with
  | nil => rfl
  | cons term rest ih =>
    obtain ⟨first, others⟩ := List.forall_mem_cons.mp absent
    rw [get?_cons, if_neg (Ne.symm first), ih others]

theorem Sorted.get?_rest (sorted : Sorted ((k, b) :: rest)) : get? k rest = none := by
  apply get?_eq_none
  intro term later same
  have below := (List.pairwise_cons.mp sorted).1 term later
  rw [same, compare_self] at below
  cases below

theorem Sorted.get?_of_mem (sorted : Sorted terms) (member : (k, b) ∈ terms) :
    get? k terms = some b := by
  induction terms with
  | nil => cases member
  | cons term rest ih =>
    obtain ⟨least, others⟩ := List.pairwise_cons.mp sorted
    rw [get?_cons]
    cases List.mem_cons.mp member with
    | inl first =>
      subst first
      exact if_pos rfl
    | inr later =>
      have differ : k ≠ term.1 := by
        intro same
        have below := least _ later
        rw [same, compare_self] at below
        cases below
      rw [if_neg differ]
      exact ih others later

variable [Std.TransOrd α]

theorem get?_update (sorted : Sorted terms) (k : α) :
    get? k (update key change terms) =
      if k = key then change (get? key terms) else get? k terms := by
  have front (o : Option β) {tail : Terms α β} (absent : get? key tail = none) :
      get? k (o.toList.map (key, ·) ++ tail) = if k = key then o else get? k tail := by
    cases o with
    | none =>
      split
      · rename_i same
        exact same ▸ absent
      · rfl
    | some b => exact get?_cons
  induction terms with
  | nil =>
    rw [update, ← List.append_nil (List.map _ _)]
    exact front _ rfl
  | cons head rest ih =>
    obtain ⟨l, b⟩ := head
    obtain ⟨least, tail⟩ := List.pairwise_cons.mp sorted
    rw [update]
    split
    · rename_i less
      have absent : get? key ((l, b) :: rest) = none := by
        apply get?_eq_none
        intro term member same
        have below : compare key term.1 = .lt := by
          rcases List.mem_cons.mp member with rfl | later
          · exact less
          · exact Std.TransCmp.lt_trans less (least term later)
        rw [same, compare_self] at below
        cases below
      rw [front _ absent, absent]
    · rename_i equal
      obtain rfl := Std.LawfulEqOrd.eq_of_compare equal
      rw [front _ sorted.get?_rest, get?_cons, get?_cons, if_pos rfl]
      split <;> rfl
    · rename_i greater
      have differ : key ≠ l := by
        rintro rfl
        rw [compare_self] at greater
        cases greater
      rw [get?_cons, get?_cons, get?_cons, ih tail, if_neg differ]
      by_cases first : k = l
      · rw [if_pos first, if_pos first, if_neg (first ▸ Ne.symm differ)]
      · rw [if_neg first, if_neg first]

/-- Sums with the same coefficients have the same terms. -/
theorem Sorted.ext {others : Terms α β} (sorted : Sorted terms) (sorted' : Sorted others)
    (same : ∀ key, get? key terms = get? key others) : terms = others := by
  have antisymm : Std.Antisymm fun x y : α × β => compare x.1 y.1 = .lt :=
    ⟨fun _ _ less greater => by rw [Std.OrientedCmp.gt_of_lt less] at greater; cases greater⟩
  have irrefl : Std.Irrefl fun x y : α × β => compare x.1 y.1 = .lt :=
    ⟨fun _ less => by rw [compare_self] at less; cases less⟩
  refine List.Pairwise.eq_of_mem_iff sorted sorted' fun term => ?_
  constructor
  · intro member
    exact mem_of_get? (same term.1 ▸ sorted.get?_of_mem member)
  · intro member
    exact mem_of_get? ((same term.1).symm ▸ sorted'.get?_of_mem member)

end WeightedAutomata.Terms
