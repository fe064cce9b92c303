import Mathlib.Algebra.Algebra.Basic
import Mathlib.Algebra.Group.PUnit
import WeightedAutomata.Proofs.Expression.Interpretation
import WeightedAutomata.Proofs.Label.Letters
import WeightedAutomata.Proofs.Series.Operations

/-! The series of an expression on one tape, and the expressions that the builder produces. -/

set_option linter.unusedSectionVars false

namespace WeightedAutomata

open scoped Weights

variable {K : Type} [Weights K] [Weights.Lawful K]

namespace WordSeries

/-- The words over the labels to which `f` gives no weight. -/
def complement (ls : LabelSet) (f : WordSeries K) : WordSeries K :=
  fun u => Weights.ofBool (u.all ls.accepts && Weights.isZero (f u))

/-- The star of a series, where its constant term has one. -/
def star? (f : WordSeries K) : Option (WordSeries K) :=
  (Weights.star (f [])).toOption.map fun k => star k (proper f)

theorem star?_eq_some {f g : WordSeries K} :
    f.star? = some g ↔ ∃ k, Weights.star (f []) = .ok k ∧ g = star k (proper f) := by
  unfold star?
  cases Weights.star (f []) with
  | ok k => simp [Except.toOption, eq_comm]
  | error e => simp [Except.toOption]

theorem star?_zero : (0 : WordSeries K).star? = some 1 := by
  refine star?_eq_some.mpr ⟨1, Weights.Lawful.star_zero, ?_⟩
  have nothing : proper (0 : WordSeries K) = 0 := by
    ext u
    cases u <;> rfl
  rw [nothing, star_zero, one_smul]

end WordSeries

namespace Exp

mutual

/-- The series of an expression on one tape. Atoms outside the labels, nodes without operands and
complements of weights that are not Boolean have none. -/
def meaning (ls : LabelSet) : Exp K → Option (WordSeries K)
  | zero => some 0
  | one => some 1
  | atom l => if ls.contains l && !ls.isTuple then some (WordSeries.ofWord l.letters) else none
  | sum es => if es.isEmpty then none else (meanings ls es).map (·.foldr (· + ·) 0)
  | prod es => if es.isEmpty then none else (meanings ls es).map (·.foldr (· * ·) 1)
  | conjunction es =>
    if es.isEmpty then none else (meanings ls es).map (·.foldr WordSeries.pointwise WordSeries.full)
  | shuffle es => if es.isEmpty then none else (meanings ls es).map (·.foldr WordSeries.shuffle 1)
  | star e => (meaning ls e).bind WordSeries.star?
  | transposition e => (meaning ls e).map WordSeries.mirror
  | lweight w e => (meaning ls e).map (w • ·)
  | rweight e w => (meaning ls e).map (w • ·)
  | complement e =>
    if Weights.isBoolean K then (meaning ls e).map (WordSeries.complement ls) else none
  | tuple _ => none

/-- The series of each expression of a list. -/
def meanings (ls : LabelSet) : List (Exp K) → Option (List (WordSeries K))
  | [] => some []
  | e :: es => (meaning ls e).bind fun f => (meanings ls es).map (f :: ·)

end

mutual

/-- Whether the expression is as the builder leaves it: no atom of the empty word, no node without
operands and, where weights are simplified, no weight zero. -/
def Tidy (s : ExpressionSet) : Exp K → Prop
  | zero | one => True
  | atom l => l.isOne = false
  | sum es | prod es | conjunction es | shuffle es => es ≠ [] ∧ TidyEach s es
  | star e | transposition e => Tidy s e
  | lweight w e | rweight e w => s.Allows w ∧ Tidy s e
  | complement e => Weights.isBoolean K = true ∧ Tidy s e
  | tuple es => TidyEach s es

def TidyEach (s : ExpressionSet) : List (Exp K) → Prop
  | [] => True
  | e :: es => Tidy s e ∧ TidyEach s es

end

mutual

/-- How many transpositions lie below each other. -/
def nesting : Exp K → Nat
  | zero | one | atom _ => 0
  | sum es | prod es | conjunction es | shuffle es | tuple es => nestings es
  | star e | lweight _ e | rweight e _ | complement e => nesting e
  | transposition e => nesting e + 1

def nestings : List (Exp K) → Nat
  | [] => 0
  | e :: es => max (nesting e) (nestings es)

end

theorem tidyEach_iff {s : ExpressionSet} {es : List (Exp K)} :
    TidyEach s es ↔ ∀ e ∈ es, Tidy s e := by
  induction es with
  | nil => simp [TidyEach]
  | cons e es ih => simp [TidyEach, ih]

theorem nestings_le_iff {es : List (Exp K)} {n : Nat} :
    nestings es ≤ n ↔ ∀ e ∈ es, nesting e ≤ n := by
  induction es with
  | nil => simp [nestings]
  | cons e es ih => simp [nestings, ih]

mutual

theorem nesting_le_depth : (e : Exp K) → e.nesting ≤ e.depth
  | zero | one | atom _ => Nat.zero_le _
  | sum es | prod es | conjunction es | shuffle es | tuple es =>
    Nat.le_trans (nestings_le_maxDepth es) (Nat.le_add_left _ 1)
  | star e | lweight _ e | rweight e _ | complement e =>
    Nat.le_trans (nesting_le_depth e) (Nat.le_add_left _ 1)
  | transposition e => by
    have inner := nesting_le_depth e
    simp only [nesting, depth]
    omega

theorem nestings_le_maxDepth : (es : List (Exp K)) → nestings es ≤ maxDepth es
  | [] => Nat.le_refl 0
  | e :: es => by
    have head := nesting_le_depth e
    have tail := nestings_le_maxDepth es
    simp only [nestings, maxDepth]
    omega

end

/-- A node denotes what its operands combine to. -/
theorem meaning_node {ls : LabelSet} {es : List (Exp K)} {f unit : WordSeries K}
    {op : WordSeries K → WordSeries K → WordSeries K} :
    (if es.isEmpty then none else (meanings ls es).map (·.foldr op unit)) = some f ↔
      es ≠ [] ∧ Folds (fun e f => meaning ls e = some f) op unit es f :=
  Folds.node_iff rfl fun _ _ => rfl

theorem meaning_atom {ls : LabelSet} {l : Label} {f : WordSeries K} :
    meaning ls (atom l) = some f ↔
      ls.contains l = true ∧ ls.isTuple = false ∧ f = WordSeries.ofWord l.letters := by
  rw [meaning]
  split
  · rename_i member
    simp only [Bool.and_eq_true, Bool.not_eq_true'] at member
    simp [member, eq_comm]
  · rename_i outside
    simp only [Bool.and_eq_true, Bool.not_eq_true', not_and] at outside
    constructor
    · exact nofun
    · rintro ⟨member, single, _⟩
      exact absurd single (outside member)

/-- The expression of a label denotes the word of the label. -/
theorem meaning_setAtom {s : ExpressionSet} {l : Label} (single : s.labels.isTuple = false)
    (member : s.labels.contains l = true) :
    meaning s.labels (s.atom l : Exp K) = some (WordSeries.ofWord l.letters) := by
  unfold ExpressionSet.atom
  split
  · rename_i one
    rw [LabelSet.letters_of_isOne single member one]
    rfl
  · exact meaning_atom.mpr ⟨member, single, rfl⟩

end Exp

/-- A property of expressions that holds of an expression if and only if it holds of its parts, and
that only tidy expressions have. -/
structure Structural (s : ExpressionSet) (P : Exp K → Prop) : Prop where
  zero : P .zero
  one : P .one
  atom {l : Label} : P (.atom l) ↔ l.isOne = false
  sum {es : List (Exp K)} : P (.sum es) ↔ es ≠ [] ∧ ∀ e ∈ es, P e
  prod {es : List (Exp K)} : P (.prod es) ↔ es ≠ [] ∧ ∀ e ∈ es, P e
  conjunction {es : List (Exp K)} : P (.conjunction es) ↔ es ≠ [] ∧ ∀ e ∈ es, P e
  shuffle {es : List (Exp K)} : P (.shuffle es) ↔ es ≠ [] ∧ ∀ e ∈ es, P e
  star {e : Exp K} : P (.star e) ↔ P e
  complement {e : Exp K} : P (.complement e) ↔ Weights.isBoolean K = true ∧ P e
  lweight {w : K} {e : Exp K} : P (.lweight w e) ↔ s.Allows w ∧ P e
  rweight {w : K} {e : Exp K} : P (.rweight e w) ↔ s.Allows w ∧ P e

namespace Structural

variable {s : ExpressionSet} {P : Exp K → Prop}

/-- Tidy expressions in which transpositions are nested `n` deep at most. -/
theorem shallow (s : ExpressionSet) (n : Nat) :
    Structural s fun e : Exp K => e.Tidy s ∧ e.nesting ≤ n where
  zero := by simp [Exp.Tidy, Exp.nesting]
  one := by simp [Exp.Tidy, Exp.nesting]
  atom := by simp [Exp.Tidy, Exp.nesting]
  sum := by
    simp [Exp.Tidy, Exp.nesting, Exp.tidyEach_iff, Exp.nestings_le_iff, and_assoc, forall_and]
  prod := by
    simp [Exp.Tidy, Exp.nesting, Exp.tidyEach_iff, Exp.nestings_le_iff, and_assoc, forall_and]
  conjunction := by
    simp [Exp.Tidy, Exp.nesting, Exp.tidyEach_iff, Exp.nestings_le_iff, and_assoc, forall_and]
  shuffle := by
    simp [Exp.Tidy, Exp.nesting, Exp.tidyEach_iff, Exp.nestings_le_iff, and_assoc, forall_and]
  star := by simp [Exp.Tidy, Exp.nesting]
  complement := by simp [Exp.Tidy, Exp.nesting, and_assoc]
  lweight := by simp [Exp.Tidy, Exp.nesting, and_assoc]
  rweight := by simp [Exp.Tidy, Exp.nesting, and_assoc]

theorem tidy (s : ExpressionSet) : Structural s (Exp.Tidy (K := K) s) where
  zero := trivial
  one := trivial
  atom := Iff.rfl
  sum := by simp [Exp.Tidy, Exp.tidyEach_iff]
  prod := by simp [Exp.Tidy, Exp.tidyEach_iff]
  conjunction := by simp [Exp.Tidy, Exp.tidyEach_iff]
  shuffle := by simp [Exp.Tidy, Exp.tidyEach_iff]
  star := Iff.rfl
  complement := Iff.rfl
  lweight := Iff.rfl
  rweight := Iff.rfl

theorem setAtom (structural : Structural s P) (l : Label) : P (s.atom l) := by
  unfold ExpressionSet.atom
  split
  · exact structural.one
  · rename_i notOne
    exact structural.atom.mpr (Bool.not_eq_true _ ▸ notOne)

end Structural

theorem Folds.and_iff {E A : Type} {denotes : E → A → Prop} {P : E → Prop} {op : A → A → A}
    {unit f : A} {es : List E} :
    Folds (fun e f => denotes e f ∧ P e) op unit es f ↔
      Folds denotes op unit es f ∧ ∀ e ∈ es, P e := by
  induction es generalizing f with
  | nil => simp [nil_iff]
  | cons e es ih =>
    simp only [cons_iff, ih, List.forall_mem_cons]
    constructor
    · rintro ⟨g, h, ⟨head, first⟩, ⟨tail, rest⟩, rfl⟩
      exact ⟨⟨g, h, head, tail, rfl⟩, first, rest⟩
    · rintro ⟨⟨g, h, head, tail, rfl⟩, first, rest⟩
      exact ⟨g, h, ⟨head, first⟩, ⟨tail, rest⟩, rfl⟩

namespace Interpretation

/-- The series of the expressions that have a structural property. -/
def series (s : ExpressionSet) (single : s.labels.isTuple = false) {P : Exp K → Prop}
    (structural : Structural s P) : Interpretation K s (WordSeries K) where
  Denotes e f := e.meaning s.labels = some f ∧ P e
  meet := WordSeries.pointwise
  full := WordSeries.full
  shuffle := WordSeries.shuffle
  Starred f g := f.star? = some g
  Complemented f g := g = f.complement s.labels
  unique left right := Option.some.inj (left.1.symm.trans right.1)
  zero := ⟨rfl, structural.zero⟩
  one := ⟨rfl, structural.one⟩
  sum := by
    intro es f
    rw [Folds.and_iff, structural.sum, Exp.meaning, Exp.meaning_node]
    tauto
  prod := by
    intro es f
    rw [Folds.and_iff, structural.prod, Exp.meaning, Exp.meaning_node]
    tauto
  conjunction := by
    intro es f
    rw [Folds.and_iff, structural.conjunction, Exp.meaning, Exp.meaning_node]
    tauto
  shuffles := by
    intro es f
    rw [Folds.and_iff, structural.shuffle, Exp.meaning, Exp.meaning_node]
    tauto
  star := by
    intro e f
    rw [structural.star, Exp.meaning, Option.bind_eq_some_iff]
    constructor
    · rintro ⟨⟨g, inner, star⟩, tidy⟩
      exact ⟨g, ⟨inner, tidy⟩, star⟩
    · rintro ⟨g, ⟨inner, tidy⟩, star⟩
      exact ⟨⟨g, inner, star⟩, tidy⟩
  complement := by
    intro e f
    rw [structural.complement, Exp.meaning]
    constructor
    · rintro ⟨inner, boolean, tidy⟩
      rw [if_pos boolean, Option.map_eq_some_iff] at inner
      obtain ⟨g, inner, rfl⟩ := inner
      exact ⟨boolean, g, ⟨inner, tidy⟩, rfl⟩
    · rintro ⟨boolean, g, ⟨inner, tidy⟩, rfl⟩
      rw [if_pos boolean, Option.map_eq_some_iff]
      exact ⟨⟨g, inner, rfl⟩, boolean, tidy⟩
  lweight := by
    intro w e f
    rw [structural.lweight, Exp.meaning, Option.map_eq_some_iff]
    constructor
    · rintro ⟨⟨g, inner, rfl⟩, allowed, tidy⟩
      exact ⟨allowed, g, ⟨inner, tidy⟩, rfl⟩
    · rintro ⟨allowed, g, ⟨inner, tidy⟩, rfl⟩
      exact ⟨⟨g, inner, rfl⟩, allowed, tidy⟩
  rweight := by
    intro w e f
    rw [structural.rweight, Exp.meaning, Option.map_eq_some_iff]
    constructor
    · rintro ⟨⟨g, inner, rfl⟩, allowed, tidy⟩
      exact ⟨allowed, g, ⟨inner, tidy⟩, rfl⟩
    · rintro ⟨allowed, g, ⟨inner, tidy⟩, rfl⟩
      exact ⟨⟨g, inner, rfl⟩, allowed, tidy⟩
  concat := by
    rintro a b l f g words ⟨left, _⟩ ⟨right, _⟩ joined
    obtain ⟨leftMember, _, rfl⟩ := Exp.meaning_atom.mp left
    obtain ⟨rightMember, _, rfl⟩ := Exp.meaning_atom.mp right
    obtain ⟨member, letters⟩ := LabelSet.concat_letters words leftMember rightMember joined
    rw [← WordSeries.ofWord_append, ← letters]
    exact ⟨Exp.meaning_setAtom single member, structural.setAtom l⟩
  meet_assoc := WordSeries.pointwise_assoc
  full_meet := WordSeries.full_pointwise
  meet_full := WordSeries.pointwise_full
  zero_meet := WordSeries.zero_pointwise
  meet_zero := WordSeries.pointwise_zero
  smul_meet := WordSeries.smul_pointwise
  meet_smul := WordSeries.pointwise_smul
  one_meet_one := WordSeries.one_pointwise_one
  one_meet_atom := by
    rintro a f ⟨denotes, tidy⟩
    obtain ⟨member, _, rfl⟩ := Exp.meaning_atom.mp denotes
    exact WordSeries.one_pointwise_ofWord
      (LabelSet.letters_ne_nil single member (structural.atom.mp tidy))
  atom_meet_one := by
    rintro a f ⟨denotes, tidy⟩
    obtain ⟨member, _, rfl⟩ := Exp.meaning_atom.mp denotes
    rw [WordSeries.pointwise_comm]
    exact WordSeries.one_pointwise_ofWord
      (LabelSet.letters_ne_nil single member (structural.atom.mp tidy))
  atom_meet_atom := by
    rintro a b f g ⟨left, _⟩ ⟨right, _⟩
    obtain ⟨leftMember, _, rfl⟩ := Exp.meaning_atom.mp left
    obtain ⟨rightMember, _, rfl⟩ := Exp.meaning_atom.mp right
    rw [WordSeries.pointwise_ofWord]
    by_cases same : a = b
    · rw [if_pos (congrArg Label.letters same), if_pos same]
    · rw [if_neg same, if_neg]
      exact fun equal => same (LabelSet.eq_of_letters single leftMember rightMember equal)
  shuffle_assoc := WordSeries.shuffle_assoc
  one_shuffle := WordSeries.one_shuffle
  shuffle_one := WordSeries.shuffle_one
  zero_shuffle := WordSeries.zero_shuffle
  shuffle_zero := WordSeries.shuffle_zero
  starred_zero := by
    intro f star
    rw [WordSeries.star?_zero] at star
    exact (Option.some.inj star).symm

variable {E A : Type} {P : E → Prop}

theorem folds_unit {op : PUnit → PUnit → PUnit} {f g : PUnit} {es : List E} :
    Folds (fun e (_ : PUnit) => P e) op g es f ↔ ∀ e ∈ es, P e := by
  induction es generalizing f with
  | nil => simp [Folds.nil_iff]
  | cons e es ih =>
    simp only [Folds.cons_iff, ih, List.forall_mem_cons]
    constructor
    · rintro ⟨_, _, head, tail, _⟩
      exact ⟨head, tail⟩
    · rintro ⟨head, tail⟩
      exact ⟨f, f, head, tail, trivial⟩

/-- The reading that only tells whether expressions have a structural property. -/
def shape (s : ExpressionSet) {P : Exp K → Prop} (structural : Structural s P) :
    Interpretation K s PUnit where
  Denotes e _ := P e
  meet f _ := f
  full := 0
  shuffle f _ := f
  Starred _ _ := True
  Complemented _ _ := True
  unique _ _ := rfl
  zero := structural.zero
  one := structural.one
  sum := by
    intro es f
    rw [folds_unit, structural.sum]
  prod := by
    intro es f
    rw [folds_unit, structural.prod]
  conjunction := by
    intro es f
    rw [folds_unit, structural.conjunction]
  shuffles := by
    intro es f
    rw [folds_unit, structural.shuffle]
  star := by
    intro e f
    rw [structural.star]
    exact ⟨fun inner => ⟨f, inner, trivial⟩, fun ⟨_, inner, _⟩ => inner⟩
  complement := by
    intro e f
    rw [structural.complement]
    exact ⟨fun ⟨boolean, inner⟩ => ⟨boolean, f, inner, trivial⟩,
      fun ⟨boolean, _, inner, _⟩ => ⟨boolean, inner⟩⟩
  lweight := by
    intro w e f
    rw [structural.lweight]
    exact ⟨fun ⟨allowed, inner⟩ => ⟨allowed, f, inner, rfl⟩,
      fun ⟨allowed, _, inner, _⟩ => ⟨allowed, inner⟩⟩
  rweight := by
    intro w e f
    rw [structural.rweight]
    exact ⟨fun ⟨allowed, inner⟩ => ⟨allowed, f, inner, rfl⟩,
      fun ⟨allowed, _, inner, _⟩ => ⟨allowed, inner⟩⟩
  concat := fun _ _ _ _ => structural.setAtom _
  meet_assoc _ _ _ := rfl
  full_meet _ := rfl
  meet_full _ := rfl
  zero_meet _ := rfl
  meet_zero _ := rfl
  smul_meet _ _ _ := rfl
  meet_smul _ _ _ := rfl
  one_meet_one := rfl
  one_meet_atom _ := rfl
  atom_meet_one _ := rfl
  atom_meet_atom _ _ := rfl
  shuffle_assoc _ _ _ := rfl
  one_shuffle _ := rfl
  shuffle_one _ := rfl
  zero_shuffle _ := rfl
  shuffle_zero _ := rfl
  starred_zero _ := rfl

end Interpretation

end WeightedAutomata
