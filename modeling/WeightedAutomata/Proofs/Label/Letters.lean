import WeightedAutomata.Label.Set

/-! The labels of one tape and the words that they spell. -/

namespace WeightedAutomata

namespace Label

theorem letters_of_isOne {l : Label} (one : l.isOne = true) : l.letters = [] := by
  cases l <;> first | rfl | cases one

theorem allOne_iff {ls : List Label} : Label.allOne ls = true ↔ ∀ l ∈ ls, l.isOne = true := by
  induction ls with
  | nil => exact iff_of_true rfl nofun
  | cons l ls ih => rw [Label.allOne, Bool.and_eq_true, ih, List.forall_mem_cons]

end Label

namespace LabelSet

/-- Whether words of the set may use the letter. -/
def accepts : LabelSet → Char → Bool
  | letters a, c | nullable a, c | words a, c => a.accepts c
  | tuple _, _ => false

variable {ls : LabelSet} {a b l : Label}

attribute [local simp] contains

theorem eq_of_letters (single : ls.isTuple = false) (left : ls.contains a = true)
    (right : ls.contains b = true) (same : a.letters = b.letters) : a = b := by
  cases ls <;> cases a <;> cases b <;>
    simp_all [Label.letters, isTuple, tapes?]

theorem letters_ne_nil (single : ls.isTuple = false) (member : ls.contains l = true)
    (notOne : l.isOne = false) : l.letters ≠ [] := by
  cases ls <;> cases l <;> simp_all [Label.letters, Label.isOne, isTuple, tapes?]

theorem letters_of_isOne (single : ls.isTuple = false) (member : ls.contains l = true)
    (one : l.isOne = true) : l.letters = [] := by
  cases ls <;> cases l <;> simp_all [Label.letters, Label.isOne, isTuple, tapes?]

theorem letter_of_contains (single : ls.isTuple = false) (letterized : ls.isLetterized = true)
    (member : ls.contains l = true) (notOne : l.isOne = false) : ∃ c, l = .letter c := by
  cases ls <;> cases l <;>
    simp_all [Label.isOne, isTuple, tapes?, isLetterized]

theorem contains_mirror (single : ls.isTuple = false) (member : ls.contains l = true) :
    ls.contains l.mirror = true := by
  cases ls <;> cases l <;> simp_all [Label.mirror, isTuple, tapes?]

theorem letters_mirror (single : ls.isTuple = false) (member : ls.contains l = true) :
    l.mirror.letters = l.letters.reverse := by
  cases ls <;> cases l <;> simp_all [Label.mirror, Label.letters, isTuple, tapes?]

/-- The label of two words that meet spells both of them. -/
theorem concat_letters (words : ls.isWords = true) (left : ls.contains a = true)
    (right : ls.contains b = true) (joined : ls.concat a b = .ok l) :
    ls.contains l = true ∧ l.letters = a.letters ++ b.letters := by
  cases ls with
  | words alphabet =>
    cases a with
    | one =>
      cases b with
      | one | word v =>
        cases joined
        exact ⟨right, rfl⟩
      | _ => cases right
    | word u =>
      cases b with
      | one =>
        cases joined
        exact ⟨left, (List.append_nil u).symm⟩
      | word v =>
        cases joined
        simp only [contains, Bool.and_eq_true, Bool.not_eq_true', List.isEmpty_eq_false_iff,
          List.all_append, Label.letters] at left right ⊢
        exact ⟨⟨List.append_ne_nil_of_left_ne_nil left.1 v, left.2, right.2⟩, trivial⟩
      | _ => cases right
    | _ => cases left
  | _ => cases words

/-! ### Labels of several tapes -/

variable {tapes : List LabelSet} {as bs : List Label}

theorem containsEach_cons : containsEach (ls :: tapes) (l :: as) = true ↔
    ls.contains l = true ∧ containsEach tapes as = true := by
  rw [containsEach, Bool.and_eq_true]

theorem length_of_containsEach (member : containsEach tapes as = true) :
    as.length = tapes.length := by
  induction tapes generalizing as with
  | nil =>
    cases as with
    | nil => rfl
    | cons _ _ => cases member
  | cons ls tapes ih =>
    cases as with
    | nil => cases member
    | cons l as => exact congrArg (· + 1) (ih (containsEach_cons.mp member).2)

/-- Labels of flat tuples are told apart by the words on their tapes. -/
theorem eq_of_map_letters (flat : ∀ ls ∈ tapes, ls.isTuple = false)
    (left : containsEach tapes as = true) (right : containsEach tapes bs = true)
    (same : as.map Label.letters = bs.map Label.letters) : as = bs := by
  induction tapes generalizing as bs with
  | nil =>
    rw [List.length_eq_zero_iff.mp (length_of_containsEach left),
      List.length_eq_zero_iff.mp (length_of_containsEach right)]
  | cons ls tapes ih =>
    match as, bs, same with
    | [], [], _ => rfl
    | a :: as, b :: bs, same =>
      obtain ⟨single, others⟩ := List.forall_mem_cons.mp flat
      obtain ⟨left, lefts⟩ := containsEach_cons.mp left
      obtain ⟨right, rights⟩ := containsEach_cons.mp right
      obtain ⟨first, rest⟩ := List.cons_eq_cons.mp same
      rw [eq_of_letters single left right first, ih others lefts rights rest]

end LabelSet

end WeightedAutomata
