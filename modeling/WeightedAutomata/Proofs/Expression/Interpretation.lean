import Mathlib.Algebra.Algebra.Basic
import Mathlib.Data.List.Forall2
import WeightedAutomata.Expression.Build
import WeightedAutomata.Proofs.Expression.Order

/-! Readings of expressions in an algebra over the weights. -/

set_option linter.unusedSectionVars false

namespace WeightedAutomata

open scoped Weights

/-- `f` combines what the members of a list denote. -/
def Folds {E A : Type} (denotes : E → A → Prop) (op : A → A → A) (unit : A) (es : List E) (f : A) :
    Prop :=
  ∃ fs, List.Forall₂ denotes es fs ∧ f = fs.foldr op unit

namespace Folds

variable {E A : Type} {denotes : E → A → Prop} {op : A → A → A} {unit : A}
variable {e : E} {es fs : List E} {f : A}

theorem nil_iff : Folds denotes op unit [] f ↔ f = unit := by
  constructor
  · rintro ⟨_, empty, rfl⟩
    cases empty
    rfl
  · rintro rfl
    exact ⟨[], .nil, rfl⟩

theorem cons_iff : Folds denotes op unit (e :: es) f ↔
    ∃ g h, denotes e g ∧ Folds denotes op unit es h ∧ f = op g h := by
  constructor
  · rintro ⟨_, cons, rfl⟩
    obtain ⟨g, gs, head, tail, rfl⟩ := List.forall₂_cons_left_iff.mp cons
    exact ⟨g, gs.foldr op unit, head, ⟨gs, tail, rfl⟩, rfl⟩
  · rintro ⟨g, _, head, ⟨gs, tail, rfl⟩, rfl⟩
    exact ⟨g :: gs, .cons head tail, rfl⟩

theorem cons {g h : A} (head : denotes e g) (tail : Folds denotes op unit es h) :
    Folds denotes op unit (e :: es) (op g h) :=
  cons_iff.mpr ⟨g, h, head, tail, rfl⟩

theorem exists_of_mem (folds : Folds denotes op unit es f) (member : e ∈ es) :
    ∃ g, denotes e g := by
  induction es generalizing f with
  | nil => cases member
  | cons e' es ih =>
    obtain ⟨g, h, head, tail, _⟩ := cons_iff.mp folds
    cases List.mem_cons.mp member with
    | inl same => exact ⟨g, same ▸ head⟩
    | inr later => exact ih tail later

section

variable {value : E → Option A} {values : List E → Option (List A)}
variable (nil : values [] = some [])
variable (cons : ∀ e es, values (e :: es) = (value e).bind fun f => (values es).map (f :: ·))

include nil cons

/-- Values that are found one after the other are those of the members. -/
theorem values_iff {xs : List A} :
    values es = some xs ↔ List.Forall₂ (fun e f => value e = some f) es xs := by
  induction es generalizing xs with
  | nil => cases xs <;> simp [nil]
  | cons e es ih =>
    rw [List.forall₂_cons_left_iff]
    simp only [cons, Option.bind_eq_some_iff, Option.map_eq_some_iff, ih]
    constructor
    · rintro ⟨f, head, gs, tail, rfl⟩
      exact ⟨f, gs, head, tail, rfl⟩
    · rintro ⟨f, gs, head, tail, rfl⟩
      exact ⟨f, head, gs, tail, rfl⟩

/-- A node with operands has the value to which theirs combine. -/
theorem node_iff : (if es.isEmpty then none else (values es).map (·.foldr op unit)) = some f ↔
    es ≠ [] ∧ Folds (fun e f => value e = some f) op unit es f := by
  cases es with
  | nil => simp
  | cons e es =>
    rw [List.isEmpty_cons, if_neg Bool.false_ne_true, Option.map_eq_some_iff,
      and_iff_right (List.cons_ne_nil e es)]
    exact exists_congr fun fs => and_congr (values_iff nil cons) eq_comm

end

variable [Std.Associative op] [Std.LawfulIdentity op unit]

theorem unit_left (f : A) : op unit f = f := Std.LawfulLeftIdentity.left_id f

theorem unit_right (f : A) : op f unit = f := Std.LawfulRightIdentity.right_id f

theorem singleton_iff : Folds denotes op unit [e] f ↔ denotes e f := by
  rw [cons_iff]
  constructor
  · rintro ⟨g, _, head, empty, rfl⟩
    have right : op g unit = g := unit_right g
    rw [nil_iff.mp empty, right]
    exact head
  · intro head
    exact ⟨f, unit, head, nil_iff.mpr rfl, (unit_right f).symm⟩

theorem append_iff : Folds denotes op unit (es ++ fs) f ↔
    ∃ g h, Folds denotes op unit es g ∧ Folds denotes op unit fs h ∧ f = op g h := by
  induction es generalizing f with
  | nil =>
    constructor
    · intro folds
      exact ⟨unit, f, nil_iff.mpr rfl, folds, (unit_left f).symm⟩
    · rintro ⟨_, h, empty, folds, rfl⟩
      have left : op unit h = h := unit_left h
      rw [nil_iff.mp empty, left]
      exact folds
  | cons e es ih =>
    rw [List.cons_append, cons_iff]
    constructor
    · rintro ⟨g, _, head, tail, rfl⟩
      obtain ⟨h, i, left, right, rfl⟩ := ih.mp tail
      exact ⟨op g h, i, cons_iff.mpr ⟨g, h, head, left, rfl⟩, right,
        (Std.Associative.assoc g h i).symm⟩
    · rintro ⟨_, i, left, right, rfl⟩
      obtain ⟨g, h, head, tail, rfl⟩ := cons_iff.mp left
      exact ⟨g, op h i, head, ih.mpr ⟨h, i, tail, right, rfl⟩, Std.Associative.assoc g h i⟩

theorem append {g h : A} (left : Folds denotes op unit es g)
    (right : Folds denotes op unit fs h) : Folds denotes op unit (es ++ fs) (op g h) :=
  append_iff.mpr ⟨g, h, left, right, rfl⟩

/-- Members that are combined one after the other, from the left. -/
theorem foldl {build : E → E → E} {g h : A}
    (step : ∀ {l r : E} {f g : A}, denotes l f → denotes r g → denotes (build l r) (op f g))
    (head : denotes e g) (tail : Folds denotes op unit es h) :
    denotes (es.foldl build e) (op g h) := by
  induction es generalizing e g h with
  | nil =>
    have right : op g unit = g := unit_right g
    rwa [nil_iff.mp tail, right]
  | cons e' es ih =>
    obtain ⟨x, y, next, rest, rfl⟩ := cons_iff.mp tail
    have regrouped : op g (op x y) = op (op g x) y := (Std.Associative.assoc g x y).symm
    rw [regrouped]
    exact ih (step head next) rest

end Folds

variable {K : Type} [Weights K] [Weights.Lawful K]

/-- Whether the weight may stand in an expression: where weights are simplified it is not zero. -/
def ExpressionSet.Allows (s : ExpressionSet) (w : K) : Prop := s.uses .trivial = true → w ≠ 0

/-- What sums, products, stars and weights of expressions denote in an algebra. They need not denote
anything, but the parts of an expression that does also do. -/
structure Semantics (K : Type) [Weights K] [Weights.Lawful K] (s : ExpressionSet) (A : Type)
    [Semiring A] [Algebra K A] where
  Denotes : Exp K → A → Prop
  /-- Whether the second element is the star of the first. -/
  Starred : A → A → Prop
  unique {e : Exp K} {f g : A} : Denotes e f → Denotes e g → f = g
  zero : Denotes .zero 0
  one : Denotes .one 1
  sum {es : List (Exp K)} {f : A} :
    Denotes (.sum es) f ↔ es ≠ [] ∧ Folds Denotes (· + ·) 0 es f
  prod {es : List (Exp K)} {f : A} :
    Denotes (.prod es) f ↔ es ≠ [] ∧ Folds Denotes (· * ·) 1 es f
  star {e : Exp K} {f : A} : Denotes (.star e) f ↔ ∃ g, Denotes e g ∧ Starred g f
  lweight {w : K} {e : Exp K} {f : A} :
    Denotes (.lweight w e) f ↔ s.Allows w ∧ ∃ g, Denotes e g ∧ f = w • g
  rweight {w : K} {e : Exp K} {f : A} :
    Denotes (.rweight e w) f ↔ s.Allows w ∧ ∃ g, Denotes e g ∧ f = w • g
  concat {a b l : Label} {f g : A} : s.labels.isWords = true → Denotes (.atom a) f →
    Denotes (.atom b) g → s.labels.concat a b = .ok l → Denotes (s.atom l) (f * g)
  starred_zero {f : A} : Starred 0 f → f = 1

/-- A reading of all expressions in an algebra. -/
structure Interpretation (K : Type) [Weights K] [Weights.Lawful K] (s : ExpressionSet) (A : Type)
    [Semiring A] [Algebra K A] extends Semantics K s A where
  meet : A → A → A
  /-- The unit of `meet`. -/
  full : A
  shuffle : A → A → A
  /-- Whether the second element is the complement of the first. -/
  Complemented : A → A → Prop
  conjunction {es : List (Exp K)} {f : A} :
    Denotes (.conjunction es) f ↔ es ≠ [] ∧ Folds Denotes meet full es f
  shuffles {es : List (Exp K)} {f : A} :
    Denotes (.shuffle es) f ↔ es ≠ [] ∧ Folds Denotes shuffle 1 es f
  complement {e : Exp K} {f : A} : Denotes (.complement e) f ↔
    Weights.isBoolean K = true ∧ ∃ g, Denotes e g ∧ Complemented g f
  meet_assoc (f g h : A) : meet (meet f g) h = meet f (meet g h)
  full_meet (f : A) : meet full f = f
  meet_full (f : A) : meet f full = f
  zero_meet (f : A) : meet 0 f = 0
  meet_zero (f : A) : meet f 0 = 0
  smul_meet (w : K) (f g : A) : meet (w • f) g = w • meet f g
  meet_smul (w : K) (f g : A) : meet f (w • g) = w • meet f g
  one_meet_one : meet 1 1 = 1
  one_meet_atom {a : Label} {f : A} : Denotes (.atom a) f → meet 1 f = 0
  atom_meet_one {a : Label} {f : A} : Denotes (.atom a) f → meet f 1 = 0
  atom_meet_atom {a b : Label} {f g : A} : Denotes (.atom a) f → Denotes (.atom b) g →
    meet f g = if a = b then f else 0
  shuffle_assoc (f g h : A) : shuffle (shuffle f g) h = shuffle f (shuffle g h)
  one_shuffle (f : A) : shuffle 1 f = f
  shuffle_one (f : A) : shuffle f 1 = f
  zero_shuffle (f : A) : shuffle 0 f = 0
  shuffle_zero (f : A) : shuffle f 0 = 0

namespace Interpretation

variable {s : ExpressionSet} {A : Type} [Semiring A] [Algebra K A] (I : Interpretation K s A)

instance : Std.Associative I.meet := ⟨I.meet_assoc⟩

instance : Std.LawfulIdentity I.meet I.full where
  left_id := I.full_meet
  right_id := I.meet_full

instance : Std.Associative I.shuffle := ⟨I.shuffle_assoc⟩

instance : Std.LawfulIdentity I.shuffle (1 : A) where
  left_id := I.one_shuffle
  right_id := I.shuffle_one

end Interpretation

namespace Semantics

variable {s : ExpressionSet} {A : Type} [Semiring A] [Algebra K A] (I : Semantics K s A)
variable {e : Exp K} {f : A}

theorem eq_zero (denotes : I.Denotes e f) (zero : e.isZero = true) : f = 0 := by
  cases e with
  | zero => exact I.unique denotes I.zero
  | _ => cases zero

theorem eq_one (denotes : I.Denotes e f) (one : e.isOne = true) : f = 1 := by
  cases e with
  | one => exact I.unique denotes I.one
  | _ => cases one

/-- An expression is its left weight times the rest. -/
theorem bare (denotes : I.Denotes e f) : ∃ g, I.Denotes e.bare g ∧ f = e.leftWeight • g := by
  cases e with
  | lweight w e =>
    obtain ⟨_, g, inner, rfl⟩ := I.lweight.mp denotes
    exact ⟨g, inner, rfl⟩
  | _ => exact ⟨f, denotes, (one_smul K f).symm⟩

/-- The terms of an expression add up to it. -/
theorem sums_terms (denotes : I.Denotes e f) : Folds I.Denotes (· + ·) 0 e.terms f := by
  cases e with
  | sum es => exact (I.sum.mp denotes).2
  | _ => exact Folds.singleton_iff.mpr denotes

theorem ofTerms {es : List (Exp K)} (sums : Folds I.Denotes (· + ·) 0 es f) :
    I.Denotes (ExpressionSet.ofTerms es) f := by
  match es, sums with
  | [], sums =>
    rw [Folds.nil_iff.mp sums]
    exact I.zero
  | [e], sums => exact Folds.singleton_iff.mp sums
  | e :: e' :: es, sums => exact I.sum.mpr ⟨List.cons_ne_nil _ _, sums⟩

end Semantics

end WeightedAutomata
