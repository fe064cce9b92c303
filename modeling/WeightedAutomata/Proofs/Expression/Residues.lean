import WeightedAutomata.Proofs.Expression.Closure
import WeightedAutomata.Proofs.Expression.Joint

/-!
The residues of an expression: what is left of its products behind one of its atoms. There is one for
each atom, and the residues of a residue are among them.
-/

set_option linter.unusedSectionVars false

namespace WeightedAutomata

open scoped Weights

variable {K : Type} [Weights K]

namespace Exp

mutual

/-- The lists of factors that may follow an atom of the expression. -/
def residues : Exp K → List (List (Exp K))
  | atom _ => [[]]
  | sum es => residuesEach es
  | prod es => residuesBehind es
  | star e => (residues e).map (· ++ [star e])
  | lweight _ e => residues e
  | _ => []

/-- The residues of all terms. -/
def residuesEach : List (Exp K) → List (List (Exp K))
  | [] => []
  | e :: es => residues e ++ residuesEach es

/-- The residues of a product: those of each factor, with the later factors behind them. -/
def residuesBehind : List (Exp K) → List (List (Exp K))
  | [] => []
  | e :: es => (residues e).map (· ++ es) ++ residuesBehind es

end

variable {e f : Exp K} {es fs p q : List (Exp K)}

/-! ### There is one for each atom -/

mutual

theorem length_residues : (e : Exp K) → (residues e).length ≤ e.count .atom
  | zero | one | conjunction _ | shuffle _ | transposition _ | rweight _ _ | complement _ | tuple _ =>
    Nat.zero_le _
  | atom _ => Nat.le_refl 1
  | sum es => Nat.le_trans (length_residuesEach es) (Nat.le_add_left _ _)
  | prod es => Nat.le_trans (length_residuesBehind es) (Nat.le_add_left _ _)
  | star e => by
    rw [residues, List.length_map]
    exact Nat.le_trans (length_residues e) (Nat.le_add_left _ _)
  | lweight _ e => Nat.le_trans (length_residues e) (Nat.le_add_left _ _)

theorem length_residuesEach : (es : List (Exp K)) → (residuesEach es).length ≤ counts .atom es
  | [] => Nat.le_refl 0
  | e :: es => by
    rw [residuesEach, List.length_append, counts]
    exact Nat.add_le_add (length_residues e) (length_residuesEach es)

theorem length_residuesBehind : (es : List (Exp K)) →
    (residuesBehind es).length ≤ counts .atom es
  | [] => Nat.le_refl 0
  | e :: es => by
    rw [residuesBehind, List.length_append, List.length_map, counts]
    exact Nat.add_le_add (length_residues e) (length_residuesBehind es)

end

/-! ### Residues of residues -/

theorem residuesBehind_append (es fs : List (Exp K)) :
    residuesBehind (es ++ fs) = (residuesBehind es).map (· ++ fs) ++ residuesBehind fs := by
  induction es with
  | nil => rfl
  | cons e es ih => simp [residuesBehind, ih]

theorem residuesBehind_singleton (e : Exp K) : residuesBehind [e] = residues e := by
  simp [residuesBehind]

theorem residues_ofFactors (es : List (Exp K)) : residues (ofFactors es) = residuesBehind es := by
  match es with
  | [] => rfl
  | [e] => exact (residuesBehind_singleton e).symm
  | _ :: _ :: _ => rfl

mutual

theorem residues_subset (e : Exp K) {p q : List (Exp K)} (first : p ∈ residues e)
    (second : q ∈ residuesBehind p) : q ∈ residues e := by
  cases e with
  | atom l =>
    cases List.mem_singleton.mp first
    cases second
  | sum es => exact residuesEach_subset es first second
  | prod es => exact residuesBehind_subset es first second
  | star e =>
    rw [residues] at first ⊢
    obtain ⟨p, inner, rfl⟩ := List.mem_map.mp first
    rw [residuesBehind_append, residuesBehind_singleton, residues] at second
    rcases List.mem_append.mp second with behind | again
    · obtain ⟨q, there, rfl⟩ := List.mem_map.mp behind
      exact List.mem_map_of_mem (residues_subset e inner there)
    · exact again
  | lweight w e => exact residues_subset e first second
  | _ => cases first

theorem residuesEach_subset (es : List (Exp K)) {p q : List (Exp K)}
    (first : p ∈ residuesEach es) (second : q ∈ residuesBehind p) : q ∈ residuesEach es := by
  match es with
  | [] => cases first
  | e :: es =>
    rw [residuesEach] at first ⊢
    rcases List.mem_append.mp first with head | tail
    · exact List.mem_append_left _ (residues_subset e head second)
    · exact List.mem_append_right _ (residuesEach_subset es tail second)

theorem residuesBehind_subset (es : List (Exp K)) {p q : List (Exp K)}
    (first : p ∈ residuesBehind es) (second : q ∈ residuesBehind p) : q ∈ residuesBehind es := by
  match es with
  | [] => cases first
  | e :: es =>
    rw [residuesBehind] at first ⊢
    rcases List.mem_append.mp first with head | tail
    · obtain ⟨p, inner, rfl⟩ := List.mem_map.mp head
      rw [residuesBehind_append] at second
      rcases List.mem_append.mp second with behind | later
      · obtain ⟨q, there, rfl⟩ := List.mem_map.mp behind
        exact List.mem_append_left _ (List.mem_map_of_mem (residues_subset e inner there))
      · exact List.mem_append_right _ later
    · exact List.mem_append_right _ (residuesBehind_subset es tail second)

end

/-! ### Products of lists of factors -/

variable [Weights.Lawful K] [Weights.Ordered K]
variable {s : ExpressionSet} {form : Form}

/-- The product of a list of factors is neither zero nor weighted, and it is one only for the empty
list. -/
theorem Multiplied.kind_ofFactors (multiplied : Multiplied s es) :
    (ofFactors es).isZero = false ∧ (ofFactors es).kind ≠ .lweight ∧
      ((ofFactors es).isOne = true ↔ es = []) := by
  match es, multiplied with
  | [], _ => simp [ofFactors, isZero, isOne, kind]
  | [e], multiplied =>
    have normal := multiplied.each e (List.mem_singleton.mpr rfl)
    rw [ofFactors]
    cases normal with
    | nested => simp [isZero, isOne, kind]
    | factor simple => cases simple <;> simp [isZero, isOne, kind]
  | _ :: _ :: _, _ => simp [ofFactors, isZero, isOne, kind]

theorem Multiplied.spread_ofFactors (associative : s.uses .associative = true)
    (multiplied : Multiplied s es) (nonempty : es ≠ []) : s.spread .prod (ofFactors es) = es := by
  match es, multiplied with
  | [], _ => exact absurd rfl nonempty
  | [e], multiplied =>
    have normal := multiplied.each e (List.mem_singleton.mpr rfl)
    exact (normal.operand_factor.spread associative).trans normal.factors_factor
  | _ :: _ :: _, _ => simp [ofFactors, ExpressionSet.spread, associative, kind, children]

/-- Where neither words are joined nor sums distributed, products are lists of factors put one behind
the other. -/
structure Listed (s : ExpressionSet) : Prop where
  linear : s.uses .linear = true
  plain : s.uses .distributive = false
  separate : s.labels.isWords = false

theorem Listed.joinFactors (listed : Listed s) (es fs : List (Exp K)) :
    s.joinFactors es fs = es ++ fs := by
  unfold ExpressionSet.joinFactors
  rw [listed.separate]

theorem Listed.product (listed : Listed s) (left : Multiplied s es) (right : Multiplied s fs)
    (leftNonempty : es ≠ []) (rightNonempty : fs ≠ []) :
    s.product (ofFactors es) (ofFactors fs) = ofFactors (es ++ fs) := by
  have associative := ExpressionSet.uses_associative listed.linear
  unfold ExpressionSet.product
  rw [left.spread_ofFactors associative leftNonempty,
    right.spread_ofFactors associative rightNonempty, listed.joinFactors]
  match es, fs with
  | [], _ => exact absurd rfl leftNonempty
  | _, [] => exact absurd rfl rightNonempty
  | e :: es, f :: fs => cases es <;> rfl

theorem Listed.mul (listed : Listed s) (left : Multiplied s es) (right : Multiplied s fs) :
    s.mul (ofFactors es) (ofFactors fs) = ofFactors (es ++ fs) := by
  have trivial := ExpressionSet.uses_trivial listed.linear
  obtain ⟨leftNonzero, leftBare, leftOne⟩ := left.kind_ofFactors
  obtain ⟨rightNonzero, rightBare, rightOne⟩ := right.kind_ofFactors
  rw [mul_of_plain listed.plain, ExpressionSet.mulWith, trivial, leftNonzero, rightNonzero,
    bare_of_kind leftBare, bare_of_kind rightBare, leftWeight_of_kind leftBare,
    leftWeight_of_kind rightBare, rweight_one trivial, lweight_one trivial,
    ExpressionSet.weightedProduct, listed.linear, Weights.Lawful.commutes, bare_of_kind leftBare,
    bare_of_kind rightBare, leftWeight_of_kind leftBare, leftWeight_of_kind rightBare,
    Weights.mul_eq, mul_one, lweight_one trivial]
  by_cases rightEmpty : fs = []
  · rw [rightOne.mpr rightEmpty, rightEmpty, List.append_nil]
    simp
  rw [Bool.eq_false_iff.mpr fun one => rightEmpty (rightOne.mp one)]
  by_cases leftEmpty : es = []
  · rw [leftOne.mpr leftEmpty, leftEmpty, List.nil_append]
    simp
  rw [Bool.eq_false_iff.mpr fun one => leftEmpty (leftOne.mp one)]
  simp [listed.product left right leftEmpty rightEmpty]

/-- Factors that are multiplied one after the other. -/
theorem Listed.foldl (listed : Listed s) (es : List (Exp K))
    (multiplied : Multiplied s (es ++ fs)) :
    fs.foldl s.mul (ofFactors es) = ofFactors (es ++ fs) := by
  induction fs generalizing es with
  | nil => rw [List.foldl_nil, List.append_nil]
  | cons f fs ih =>
    have parts := List.forall_mem_append.mp multiplied.each
    have single : Multiplied s [f] := .single (parts.2 f List.mem_cons_self)
    have front : Multiplied s es := ⟨fun words => absurd words (by simp [listed.separate]), parts.1⟩
    have step : s.mul (ofFactors es) f = ofFactors (es ++ [f]) := listed.mul front single
    rw [List.foldl_cons, step, ih _ (by simpa using multiplied), List.append_assoc]
    rfl

/-! ### Residues of normal forms -/

/-- Whether the expression is a normal form made of atoms by sums, products, stars and weights. -/
structure Regular (s : ExpressionSet) (form : Form) (e : Exp K) : Prop where
  normal : Normal s form e
  plain : e.Plain

theorem Regular.factors_of_prod (regular : Regular s .sum (.prod es)) :
    ∀ e ∈ es, Regular s .factor e := by
  have each := plainEach_iff.mp regular.plain
  match regular.normal with
  | .term (.monomial (.prod _ _ factors)) => exact fun e member => ⟨factors e member, each e member⟩

theorem Regular.of_sum (regular : Regular s .sum (.sum es)) :
    ∀ e ∈ es, Regular s .sum e := fun e member =>
  ⟨regular.normal.part member, plainEach_iff.mp regular.plain e member⟩

theorem Regular.of_lweight (regular : Regular s .sum (.lweight w e)) :
    Regular s .sum e :=
  ⟨regular.normal.part (List.mem_singleton.mpr rfl), regular.plain⟩

theorem Regular.of_star (regular : Regular s .sum (.star e)) :
    Regular s .sum e :=
  ⟨regular.normal.part (List.mem_singleton.mpr rfl), regular.plain⟩

theorem Regular.star (regular : Regular s .sum (.star e)) :
    Regular s .factor (.star e) :=
  ⟨.factor (.star regular.of_star.normal), regular.plain⟩

theorem Regular.of_factor (regular : Regular s .factor e) : Regular s .sum e :=
  ⟨regular.normal.sum_of_form, regular.plain⟩

mutual

/-- Residues of normal forms are made of factors in normal form. -/
theorem Regular.residues {e : Exp K} (regular : Regular s .sum e) {p : List (Exp K)}
    (member : p ∈ e.residues) : ∀ f ∈ p, Regular s .factor f := by
  cases e with
  | atom l =>
    cases List.mem_singleton.mp member
    exact nofun
  | sum es => exact regular_residuesEach regular.of_sum member
  | prod es => exact regular_residuesBehind regular.factors_of_prod member
  | star e =>
    obtain ⟨p, inner, rfl⟩ := List.mem_map.mp member
    exact List.forall_mem_append.mpr ⟨Regular.residues regular.of_star inner,
      fun f last => List.mem_singleton.mp last ▸ regular.star⟩
  | lweight w e => exact Regular.residues regular.of_lweight member
  | _ => cases member

theorem regular_residuesEach {es : List (Exp K)} (each : ∀ e ∈ es, Regular s .sum e)
    {p : List (Exp K)} (member : p ∈ residuesEach es) :
    ∀ f ∈ p, Regular s .factor f := by
  match es with
  | [] => cases member
  | e :: es =>
    obtain ⟨head, tail⟩ := List.forall_mem_cons.mp each
    rcases List.mem_append.mp member with first | later
    · exact Regular.residues head first
    · exact regular_residuesEach tail later

theorem regular_residuesBehind {es : List (Exp K)} (each : ∀ e ∈ es, Regular s .factor e)
    {p : List (Exp K)} (member : p ∈ residuesBehind es) :
    ∀ f ∈ p, Regular s .factor f := by
  match es with
  | [] => cases member
  | e :: es =>
    obtain ⟨head, tail⟩ := List.forall_mem_cons.mp each
    rcases List.mem_append.mp member with first | later
    · obtain ⟨p, inner, rfl⟩ := List.mem_map.mp first
      exact List.forall_mem_append.mpr ⟨Regular.residues head.of_factor inner, tail⟩
    · exact regular_residuesBehind tail later

end

/-- A list of factors in normal form multiplies to a normal form. -/
theorem Listed.regular_ofFactors (listed : Listed s) {p : List (Exp K)}
    (each : ∀ f ∈ p, Regular s .factor f) : Regular s .sum (ofFactors p) := by
  match p, each with
  | [], _ => exact ⟨Normal.one.sum_of_form, trivial⟩
  | [e], each => exact (each e (List.mem_singleton.mpr rfl)).of_factor
  | e :: f :: p, each =>
    refine ⟨(Normal.prod (by simp) ?_ fun f member => (each f member).normal).sum_of_form,
      plainEach_iff.mpr fun f member => (each f member).plain⟩
    intro words
    rw [listed.separate] at words
    cases words

end Exp

namespace ExpressionSet

variable [Weights.Lawful K] [Weights.Ordered K] {s : ExpressionSet} {e : Exp K}

theorem Rational.built (single : s.labels.isTuple = false)
    (rational : s.Rational e) : s.Built e := by
  induction rational with
  | zero => exact .zero
  | one => exact .one
  | atom l => exact .atom l
  | add _ _ left right => exact .add (left single) (right single)
  | mul _ _ left right => exact .mul (left single) (right single)
  | star _ inner => exact .star (inner single)
  | lweight w _ inner => exact .lweight w (inner single)
  | rweight w _ inner => exact .rweight w (inner single)
  | tuple _ built => exact .tuple built

theorem Rational.regular (single : s.labels.isTuple = false)
    (linear : s.uses .linear = true) (rational : s.Rational e) : Exp.Regular s .sum e where
  normal := (Exp.Normal.closed linear).built single (rational.built single)
  plain := rational.neat.2

end ExpressionSet

end WeightedAutomata
