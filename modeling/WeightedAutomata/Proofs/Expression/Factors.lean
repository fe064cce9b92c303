import Mathlib.Algebra.Group.Defs
import Mathlib.Data.List.Basic
import WeightedAutomata.Expression.Build

/-! The factors of products form a monoid in which the atoms that meet are joined. -/

set_option linter.unusedSectionVars false

namespace WeightedAutomata

theorem LabelSet.concat_of_words {ls : LabelSet} {a b : Label} (words : ls.isWords = true)
    (left : a.isOne = false) (right : b.isOne = false) :
    ls.concat a b = .ok (.word (a.letters ++ b.letters)) := by
  cases ls with
  | words alphabet =>
    cases a <;> first | (cases left; done) | (cases b <;> first | rfl | cases right)
  | _ => cases words

variable {K : Type} [Weights K] {s : ExpressionSet} {ls ms rs : List (Exp K)} {x y z : Exp K}

namespace ExpressionSet

theorem joinFactors_nil_left (rs : List (Exp K)) : s.joinFactors [] rs = rs := by
  unfold joinFactors
  split
  · rename_i last
    cases last
  · rfl

theorem joinFactors_nil_right (ls : List (Exp K)) : s.joinFactors ls [] = ls := by
  simp [joinFactors]

theorem joinFactors_append_left (ls : List (Exp K)) (nonempty : ms ≠ []) :
    s.joinFactors (ls ++ ms) rs = ls ++ s.joinFactors ms rs := by
  have last : (ls ++ ms).getLast? = ms.getLast? := by
    rw [List.getLast?_append, List.getLast?_eq_some_getLast nonempty, Option.some_or]
  unfold joinFactors
  rw [last, List.dropLast_append_of_ne_nil nonempty]
  split
  · split
    · rw [List.append_assoc]
    · rw [List.append_assoc]
  · rw [List.append_assoc]

theorem joinFactors_append_right (rs : List (Exp K)) (nonempty : ms ≠ []) :
    s.joinFactors ls (ms ++ rs) = s.joinFactors ls ms ++ rs := by
  obtain ⟨m, ms, rfl⟩ := List.exists_cons_of_ne_nil nonempty
  unfold joinFactors
  rw [List.cons_append]
  split
  · rename_i same
    cases same
    split <;> simp [*]
  · rename_i apart
    split
    · rename_i words last same
      cases same
      exact absurd rfl (apart _ _ _ words last)
    · rw [List.append_assoc, List.cons_append]

/-- Only the factors that meet are joined. -/
theorem joinFactors_middle (ls : List (Exp K)) (x y : Exp K) (rs : List (Exp K)) :
    s.joinFactors (ls ++ [x]) (y :: rs) = ls ++ (s.joinFactors [x] [y] ++ rs) := by
  have back : s.joinFactors [x] ([y] ++ rs) = s.joinFactors [x] [y] ++ rs :=
    joinFactors_append_right rs (by simp)
  rw [joinFactors_append_left ls (by simp), ← back]
  rfl

theorem joinFactors_ne_nil (nonempty : rs ≠ []) : s.joinFactors ls rs ≠ [] := by
  unfold joinFactors
  split
  · split <;> simp
  · simp [nonempty]

end ExpressionSet

namespace Exp

/-- Whether none of the factors is an atom of the empty word. -/
def Spelled (es : List (Exp K)) : Prop := ∀ l, .atom l ∈ es → l.isOne = false

theorem joinFactors_atoms {a b : Label} (words : s.labels.isWords = true)
    (left : a.isOne = false) (right : b.isOne = false) :
    s.joinFactors [.atom a] [.atom b] =
      ([.atom (.word (a.letters ++ b.letters))] : List (Exp K)) := by
  simp [ExpressionSet.joinFactors, words, LabelSet.concat_of_words words left right,
    ExpressionSet.atom, Label.isOne]

theorem joinFactors_apart (apart : s.labels.isWords = true → x.kind = .atom → y.kind ≠ .atom) :
    s.joinFactors [x] [y] = [x, y] := by
  unfold ExpressionSet.joinFactors
  split
  · rename_i words last same
    cases last
    cases same
    exact absurd rfl (apart words rfl)
  · rfl

/-- Two factors that meet are joined to a word or left side by side. -/
theorem joinFactors_cases (left : Spelled [x]) (right : Spelled [y]) :
    (s.labels.isWords = true ∧ ∃ a b, x = .atom a ∧ y = .atom b ∧
      s.joinFactors [x] [y] = [.atom (.word (a.letters ++ b.letters))]) ∨
    (s.labels.isWords = true → x.kind = .atom → y.kind ≠ .atom) ∧
      s.joinFactors [x] [y] = [x, y] := by
  by_cases apart : s.labels.isWords = true → x.kind = .atom → y.kind ≠ .atom
  · exact .inr ⟨apart, joinFactors_apart apart⟩
  · simp only [Classical.not_imp, Decidable.not_not] at apart
    obtain ⟨words, first, second⟩ := apart
    cases x <;> cases first
    cases y <;> cases second
    rename_i a b
    exact .inl ⟨words, a, b, rfl, rfl,
      joinFactors_atoms words (left a (List.mem_singleton.mpr rfl))
        (right b (List.mem_singleton.mpr rfl))⟩

theorem spelled_append : Spelled (ls ++ rs) ↔ Spelled ls ∧ Spelled rs := by
  simp only [Spelled, List.mem_append, or_imp, forall_and]

/-- What is in lists of factors that are joined was there before, but for the word at the place where
they meet. -/
theorem mem_joinFactors (left : Spelled ls) (right : Spelled rs) (member : x ∈ s.joinFactors ls rs) :
    x ∈ ls ∨ x ∈ rs ∨ ∃ u, x = .atom (.word u) := by
  rcases List.eq_nil_or_concat' ls with rfl | ⟨front, y, rfl⟩
  · rw [ExpressionSet.joinFactors_nil_left] at member
    exact .inr (.inl member)
  cases rs with
  | nil =>
    rw [ExpressionSet.joinFactors_nil_right] at member
    exact .inl member
  | cons z back =>
    rw [ExpressionSet.joinFactors_middle] at member
    have last := (spelled_append.mp left).2
    have first := (spelled_append.mp (show Spelled ([z] ++ back) from right)).1
    rcases joinFactors_cases (s := s) last first with ⟨_, a, b, rfl, rfl, joined⟩ | ⟨_, joined⟩
    · rw [joined] at member
      simp only [List.mem_append, List.mem_singleton] at member ⊢
      rcases member with before | same | after
      · exact .inl (.inl before)
      · exact .inr (.inr ⟨_, same⟩)
      · exact .inr (.inl (List.mem_cons_of_mem _ after))
    · rw [joined] at member
      simp only [List.mem_append, List.mem_cons, List.not_mem_nil, or_false] at member ⊢
      tauto

theorem Spelled.joinFactors (left : Spelled ls) (right : Spelled rs) :
    Spelled (s.joinFactors ls rs) := by
  intro l member
  rcases mem_joinFactors left right member with before | after | ⟨u, word⟩
  · exact left l before
  · exact right l after
  · cases word
    rfl

/-- Of three factors, it makes no difference which two are joined first. -/
theorem joinFactors_assoc_single (first : Spelled [x]) (second : Spelled [y])
    (third : Spelled [z]) :
    s.joinFactors (s.joinFactors [x] [y]) [z] = s.joinFactors [x] (s.joinFactors [y] [z]) := by
  rcases joinFactors_cases (s := s) first second with ⟨words, a, b, rfl, rfl, left⟩ | ⟨apart, left⟩
  · rcases joinFactors_cases (s := s) second third with
      ⟨_, b', c, same, rfl, right⟩ | ⟨apart, right⟩
    · cases same
      have c : c.isOne = false := third c (List.mem_singleton.mpr rfl)
      have a : a.isOne = false := first a (List.mem_singleton.mpr rfl)
      rw [left, right, joinFactors_atoms words rfl c, joinFactors_atoms words a rfl]
      simp [Label.letters]
    · have pair : s.joinFactors [.atom a] ([.atom b] ++ [z]) =
          s.joinFactors [.atom a] [.atom b] ++ [z] :=
        ExpressionSet.joinFactors_append_right [z] (by simp)
      rw [List.singleton_append, left] at pair
      rw [left, right, pair, joinFactors_apart fun words _ => apart words rfl]
      rfl
  · have pair : s.joinFactors ([x] ++ [y]) [z] = [x] ++ s.joinFactors [y] [z] :=
      ExpressionSet.joinFactors_append_left [x] (by simp)
    rw [List.singleton_append, List.singleton_append] at pair
    rw [left, pair]
    rcases joinFactors_cases (s := s) second third with ⟨_, b, c, rfl, rfl, right⟩ | ⟨_, right⟩
    · rw [right, joinFactors_apart fun words kind => absurd rfl (apart words kind)]
    · have pair : s.joinFactors [x] ([y] ++ [z]) = s.joinFactors [x] [y] ++ [z] :=
        ExpressionSet.joinFactors_append_right [z] (by simp)
      rw [List.singleton_append, left] at pair
      rw [right, pair]
      rfl

theorem joinFactors_assoc (left : Spelled ls) (middle : Spelled ms) (right : Spelled rs) :
    s.joinFactors (s.joinFactors ls ms) rs = s.joinFactors ls (s.joinFactors ms rs) := by
  rcases ms with _ | ⟨y, ms⟩
  · rw [ExpressionSet.joinFactors_nil_right, ExpressionSet.joinFactors_nil_left]
  rcases List.eq_nil_or_concat' ms with rfl | ⟨ms, m, rfl⟩
  · -- One factor in the middle is joined with its neighbours on both sides.
    rcases List.eq_nil_or_concat' ls with rfl | ⟨xs, x, rfl⟩
    · rw [ExpressionSet.joinFactors_nil_left, ExpressionSet.joinFactors_nil_left]
    rcases rs with _ | ⟨z, zs⟩
    · rw [ExpressionSet.joinFactors_nil_right, ExpressionSet.joinFactors_nil_right]
    have joined (x y : Exp K) : s.joinFactors [x] [y] ≠ [] :=
      ExpressionSet.joinFactors_ne_nil (by simp)
    have before := ExpressionSet.joinFactors_middle (s := s) xs x y []
    have after := ExpressionSet.joinFactors_middle (s := s) [] y z zs
    have last : s.joinFactors (s.joinFactors [x] [y]) ([z] ++ zs) =
        s.joinFactors (s.joinFactors [x] [y]) [z] ++ zs :=
      ExpressionSet.joinFactors_append_right zs (by simp)
    rw [List.append_nil] at before
    rw [List.nil_append, List.nil_append] at after
    rw [List.singleton_append] at last
    have single := joinFactors_assoc_single (s := s) (spelled_append.mp left).2 middle
      (spelled_append.mp (show Spelled ([z] ++ zs) from right)).1
    rw [before, after, ExpressionSet.joinFactors_append_left xs (joined x y), last, single,
      ExpressionSet.joinFactors_append_right zs (joined y z),
      ExpressionSet.joinFactors_append_left xs (by simp), List.append_assoc]
  · have middle : y :: (ms ++ [m]) = [y] ++ (ms ++ [m]) := rfl
    rw [middle, ExpressionSet.joinFactors_append_right _ (by simp),
      ExpressionSet.joinFactors_append_left _ (by simp),
      ExpressionSet.joinFactors_append_left [y] (by simp),
      ExpressionSet.joinFactors_append_right _ (by simp)]

end Exp

/-- Lists of factors without atoms of the empty word. -/
structure Factors (s : ExpressionSet) (K : Type) [Weights K] where
  list : List (Exp K)
  spelled : Exp.Spelled list

namespace Factors

theorem ext {e f : Factors s K} (same : e.list = f.list) : e = f := by
  cases e
  cases f
  cases same
  rfl

instance : Monoid (Factors s K) where
  one := ⟨[], nofun⟩
  mul e f := ⟨s.joinFactors e.list f.list, e.spelled.joinFactors f.spelled⟩
  one_mul e := ext (ExpressionSet.joinFactors_nil_left e.list)
  mul_one e := ext (ExpressionSet.joinFactors_nil_right e.list)
  mul_assoc e f g := ext (Exp.joinFactors_assoc e.spelled f.spelled g.spelled)

theorem list_mul (e f : Factors s K) : (e * f).list = s.joinFactors e.list f.list := rfl

end Factors

end WeightedAutomata
