import Mathlib.Algebra.Order.Ring.Nat
import Mathlib.Data.List.Basic
import WeightedAutomata.Proofs.Label.Letters
import WeightedAutomata.Proofs.Label.Order

/-! Words as labels. A set of words has one label for each word over its letters; its order puts
short words first, and concatenation keeps it. -/

namespace WeightedAutomata

namespace Label

variable {u u' v v' w : List Char} {l : Label} {letters : List Char} {alphabet : Alphabet} {k : Nat}

/-- The label of a word. -/
def ofWord (u : List Char) : Label := if u = [] then .one else .word u

@[simp]
theorem letters_ofWord (u : List Char) : (ofWord u).letters = u := by
  unfold ofWord
  split
  · rename_i empty
    exact empty.symm
  · rfl

@[simp]
theorem length_ofWord (u : List Char) : (ofWord u).length = u.length := by
  unfold ofWord
  split
  · rename_i empty
    rw [empty]
    rfl
  · rfl

theorem ofWord_inj : ofWord u = ofWord v ↔ u = v := by
  constructor
  · intro same
    rw [← letters_ofWord u, same, letters_ofWord]
  · exact congrArg ofWord

theorem ofWord_letters (member : (LabelSet.words alphabet).contains l = true) :
    ofWord l.letters = l := by
  cases l with
  | one => rfl
  | word u =>
    simp only [LabelSet.contains, Bool.and_eq_true, Bool.not_eq_true',
      List.isEmpty_eq_false_iff] at member
    exact if_neg member.1
  | letter | tuple | special => cases member

theorem contains_ofWord :
    (LabelSet.words alphabet).contains (ofWord u) = u.all alphabet.accepts := by
  unfold ofWord
  cases u <;> rfl

theorem word_words (u : List Char) : (LabelSet.words alphabet).word u = .ok (ofWord u) := by
  cases u <;> rfl

theorem concat_ofWord (u v : List Char) :
    (LabelSet.words alphabet).concat (ofWord u) (ofWord v) = .ok (ofWord (u ++ v)) := by
  cases u <;> cases v <;> first | rfl | (simp [ofWord]; rfl)

/-! ### The order of words -/

/-- Whether a word comes before another one in the order of labels. -/
def Precedes (u v : List Char) : Prop := compare (ofWord u) (ofWord v) = .lt

instance (u v : List Char) : Decidable (Precedes u v) :=
  inferInstanceAs (Decidable (_ = _))

theorem precedes_letters {l m : Label} (left : (LabelSet.words alphabet).contains l = true)
    (right : (LabelSet.words alphabet).contains m = true) :
    Precedes l.letters m.letters ↔ compare l m = .lt := by
  rw [Precedes, ofWord_letters left, ofWord_letters right]

theorem precedes_iff : Precedes u v ↔
    u.length < v.length ∨ u.length = v.length ∧ compareLetters u v = .lt := by
  have words : compare (ofWord u) (ofWord v) =
      (compare u.length v.length).then (compareLetters u v) := by
    cases u <;> cases v <;> rfl
  rw [Precedes, words, Ordering.then_eq_lt, Nat.compare_eq_lt, Nat.compare_eq_eq]

theorem Precedes.length_le (before : Precedes u v) : u.length ≤ v.length := by
  rcases precedes_iff.mp before with shorter | ⟨same, _⟩
  · exact shorter.le
  · exact same.le

theorem not_precedes_self (u : List Char) : ¬Precedes u u := by
  intro before
  have same : compare (ofWord u) (ofWord u) = .eq := order_self _
  rw [Precedes, same] at before
  cases before

theorem Precedes.trans (first : Precedes u v) (second : Precedes v w) : Precedes u w :=
  Std.TransCmp.lt_trans first second

theorem precedes_total (u v : List Char) : Precedes u v ∨ u = v ∨ Precedes v u := by
  cases compared : compare (ofWord u) (ofWord v) with
  | lt => exact .inl compared
  | eq => exact .inr (.inl (ofWord_inj.mp (Std.LawfulEqOrd.eq_of_compare compared)))
  | gt => exact .inr (.inr (Std.OrientedCmp.lt_of_gt compared))

theorem compareLetters_append (same : u.length = u'.length) :
    compareLetters (u ++ v) (u' ++ v') = (compareLetters u u').then (compareLetters v v') := by
  induction u generalizing u' with
  | nil =>
    rw [List.length_eq_zero_iff.mp same.symm]
    rfl
  | cons c u ih =>
    cases u' with
    | nil => cases same
    | cons d u' =>
      rw [List.cons_append, List.cons_append, compareLetters, compareLetters,
        ih (Nat.succ.inj same), Ordering.then_assoc]

theorem Precedes.append_left (u : List Char) (before : Precedes v v') :
    Precedes (u ++ v) (u ++ v') := by
  rw [precedes_iff] at before ⊢
  rw [List.length_append, List.length_append, compareLetters_append rfl,
    compareLetters_eq_iff.mpr rfl]
  exact before.imp (Nat.add_lt_add_left · _) (And.imp_left (congrArg (u.length + ·)))

theorem Precedes.append_right (v : List Char) (before : Precedes u u') :
    Precedes (u ++ v) (u' ++ v) := by
  rw [precedes_iff] at before ⊢
  rw [List.length_append, List.length_append]
  refine before.imp (Nat.add_lt_add_right · _) fun ⟨same, letters⟩ => ⟨by rw [same], ?_⟩
  rw [compareLetters_append same, letters]
  rfl

theorem precedes_of_append (before : Precedes (u ++ v) (u ++ v')) : Precedes v v' := by
  rcases precedes_total v v' with earlier | same | later
  · exact earlier
  · exact absurd (same ▸ before) (not_precedes_self _)
  · exact absurd (before.trans (later.append_left u)) (not_precedes_self _)

/-! ### Counting words -/

/-- All words with at most some number of letters. -/
def wordsUpTo (letters : List Char) : Nat → List (List Char)
  | 0 => [[]]
  | k + 1 => [] :: letters.flatMap fun c => (wordsUpTo letters k).map (c :: ·)

theorem mem_wordsUpTo (short : u.length ≤ k) (used : ∀ c ∈ u, c ∈ letters) :
    u ∈ wordsUpTo letters k := by
  induction k generalizing u with
  | zero => exact List.mem_singleton.mpr (List.length_eq_zero_iff.mp (Nat.le_zero.mp short))
  | succ k ih =>
    cases u with
    | nil => exact List.mem_cons_self
    | cons c u =>
      obtain ⟨first, rest⟩ := List.forall_mem_cons.mp used
      exact List.mem_cons_of_mem _ (List.mem_flatMap.mpr ⟨c, first,
        List.mem_map_of_mem (ih (Nat.le_of_succ_le_succ short) rest)⟩)

theorem length_wordsUpTo_le (letters : List Char) (k : Nat) :
    (wordsUpTo letters k).length ≤ (letters.length + 1) ^ k := by
  induction k with
  | zero => exact le_rfl
  | succ k ih =>
    have positive : 1 ≤ (letters.length + 1) ^ k := Nat.one_le_pow _ _ (Nat.succ_pos _)
    have sum : (letters.map fun c => ((wordsUpTo letters k).map (c :: ·)).length).sum =
        letters.length * (wordsUpTo letters k).length := by
      simp
    rw [wordsUpTo, List.length_cons, List.length_flatMap, sum, pow_succ, Nat.mul_succ,
      Nat.mul_comm ((letters.length + 1) ^ k)]
    exact Nat.add_le_add (Nat.mul_le_mul_left _ ih) positive

end Label

end WeightedAutomata
