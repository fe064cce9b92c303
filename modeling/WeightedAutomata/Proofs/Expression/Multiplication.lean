import Mathlib.Algebra.MonoidAlgebra.Basic
import WeightedAutomata.Proofs.Expression.Span

/-!
Products of normal forms are normal forms, and at the distributive level they are built as the
algebra of the lists of factors has them.
-/

set_option linter.unusedSectionVars false

namespace WeightedAutomata

open scoped Weights

variable {K : Type} [Weights K] [Weights.Lawful K] [Weights.Ordered K]

namespace Exp

variable {s : ExpressionSet} {e f l r t : Exp K} {es fs ts us : List (Exp K)} {w v : K}
variable {x y : Span s K}

/-! ### Lists of factors -/

/-- Whether the list holds the factors of a product in normal form. -/
structure Multiplied (s : ExpressionSet) (es : List (Exp K)) : Prop where
  apart : Apart s es
  each : ∀ e ∈ es, Normal s .factor e

theorem Apart.of_kinds (apart : Apart s es) (kinds : fs.map kind = es.map kind) : Apart s fs := by
  intro words
  have chain := (List.isChain_map kind (R := fun k k' => k = .atom → k' ≠ .atom)).mpr (apart words)
  rw [← kinds] at chain
  exact (List.isChain_map kind).mp chain

theorem Normal.factors_factor (normal : Normal s .factor e) : e.factors = [e] := by
  cases normal with
  | nested => rfl
  | factor simple => cases simple <;> rfl

theorem Multiplied.single (normal : Normal s .factor e) : Multiplied s [e] where
  apart _ := .singleton e
  each _ member := List.mem_singleton.mp member ▸ normal

theorem Multiplied.spelled (multiplied : Multiplied s es) : Spelled es := fun l member =>
  (multiplied.each _ member).spelled_factor l (List.mem_singleton.mpr rfl)

/-- Lists that are joined stay apart: where atoms meet, a word takes their place. -/
theorem Apart.join (left : Apart s es) (right : Apart s fs) (first : Spelled es)
    (second : Spelled fs) : Apart s (s.joinFactors es fs) := by
  rcases List.eq_nil_or_concat' es with rfl | ⟨xs, x, rfl⟩
  · rwa [ExpressionSet.joinFactors_nil_left]
  rcases fs with _ | ⟨y, ys⟩
  · rwa [ExpressionSet.joinFactors_nil_right]
  rw [ExpressionSet.joinFactors_middle]
  rcases joinFactors_cases (s := s) (spelled_append.mp first).2
    (spelled_append.mp (show Spelled ([y] ++ ys) from second)).1 with
    ⟨_, a, b, rfl, rfl, joined⟩ | ⟨apart, joined⟩
  · rw [joined]
    intro words
    have before : Apart s (xs ++ [.atom (.word (a.letters ++ b.letters))]) :=
      left.of_kinds (by simp [kind])
    have after : Apart s (.atom (.word (a.letters ++ b.letters)) :: ys) :=
      right.of_kinds (by simp [kind])
    obtain ⟨front, _, meet⟩ := List.isChain_append.mp (before words)
    exact List.isChain_append.mpr ⟨front, after words, meet⟩
  · rw [joined]
    intro words
    have appended := List.isChain_append.mpr ⟨left words, right words,
      by simpa using apart words⟩
    simpa using appended

/-- Lists that are joined stay lists of factors. -/
theorem Multiplied.join (left : Multiplied s es) (right : Multiplied s fs) :
    Multiplied s (s.joinFactors es fs) where
  apart := left.apart.join right.apart left.spelled right.spelled
  each e member := by
    rcases mem_joinFactors left.spelled right.spelled member with before | after | ⟨u, rfl⟩
    · exact left.each e before
    · exact right.each e after
    · exact .factor (.atom rfl)

/-! ### Products without weights -/

/-- Whether the expression can be an operand of a product: it has factors and no weight. -/
structure Operand (s : ExpressionSet) (e : Exp K) : Prop where
  nonempty : e.factors ≠ []
  multiplied : Multiplied s e.factors
  spread : s.uses .associative = true → s.spread .prod e = e.factors

theorem Normal.operand_factor (normal : Normal s .factor e) : Operand s e where
  nonempty := by simp [normal.factors_factor]
  multiplied := by
    rw [normal.factors_factor]
    exact .single normal
  spread associative := by
    rw [normal.factors_factor, ExpressionSet.spread, associative]
    cases normal with
    | nested => rfl
    | factor simple => cases simple <;> rfl

theorem Normal.operand_monomial (normal : Normal s .monomial e) (notOne : e.isOne = false) :
    Operand s e := by
  cases normal with
  | one => cases notOne
  | alone simple => exact (Normal.factor simple).operand_factor
  | @prod es many apart each =>
    refine ⟨?_, ⟨apart, each⟩, fun associative => ?_⟩
    · rintro rfl
      cases many
    · simp [ExpressionSet.spread, associative, kind, children, factors]

/-- Only atoms that meet can leave a single factor. -/
theorem kind_of_joinFactors (left : Spelled es) (right : Spelled fs)
    (leftNonempty : es ≠ []) (rightNonempty : fs ≠ []) (single : s.joinFactors es fs = [e]) :
    e.kind = .atom := by
  rcases List.eq_nil_or_concat' es with rfl | ⟨xs, x, rfl⟩
  · exact absurd rfl leftNonempty
  rcases fs with _ | ⟨y, ys⟩
  · exact absurd rfl rightNonempty
  have last := (spelled_append.mp left).2
  have first := (spelled_append.mp (show Spelled ([y] ++ ys) from right)).1
  rw [ExpressionSet.joinFactors_middle] at single
  rcases joinFactors_cases (s := s) last first with ⟨_, a, b, rfl, rfl, joined⟩ | ⟨_, joined⟩
  · rw [joined] at single
    have length := congrArg List.length single
    simp only [List.length_append, List.length_singleton] at length
    obtain rfl : xs = [] := List.length_eq_zero_iff.mp (by omega)
    cases single
    rfl
  · rw [joined] at single
    have length := congrArg List.length single
    simp only [List.length_append, List.length_cons, List.length_nil] at length
    omega

/-- The factors of a product are those of both operands, joined where they meet. -/
theorem Operand.product (linear : s.uses .linear = true) (left : Operand s l)
    (right : Operand s r) :
    Normal s .monomial (s.product l r) ∧
      (s.product l r).factors = s.joinFactors l.factors r.factors := by
  have associative := ExpressionSet.uses_associative linear
  have multiplied := left.multiplied.join right.multiplied
  have nonempty : s.joinFactors l.factors r.factors ≠ [] :=
    ExpressionSet.joinFactors_ne_nil right.nonempty
  unfold ExpressionSet.product
  rw [left.spread associative, right.spread associative]
  split
  · rename_i e single
    have atom := kind_of_joinFactors left.multiplied.spelled right.multiplied.spelled left.nonempty
      right.nonempty single
    rw [single] at multiplied
    have normal := multiplied.each e (List.mem_singleton.mpr rfl)
    rw [single]
    refine ⟨?_, normal.factors_factor⟩
    cases normal with
    | factor simple => exact .alone simple
    | nested => cases atom
  · rename_i many
    have length : 2 ≤ (s.joinFactors l.factors r.factors).length := by
      match h : s.joinFactors l.factors r.factors with
      | [] => exact absurd h nonempty
      | [e] => exact absurd h (many e)
      | _ :: _ :: _ => simp
    exact ⟨.prod length multiplied.apart multiplied.each, rfl⟩

theorem Normal.key_product (linear : s.uses .linear = true) (left : Normal s .monomial l)
    (right : Normal s .monomial r) (leftNotOne : l.isOne = false) (rightNotOne : r.isOne = false) :
    Normal s .monomial (s.product l r) ∧ key s (s.product l r) = key s l * key s r := by
  obtain ⟨normal, factors⟩ :=
    (left.operand_monomial leftNotOne).product linear (right.operand_monomial rightNotOne)
  refine ⟨normal, Factors.ext ?_⟩
  rw [normal.list_key, Factors.list_mul, left.list_key, right.list_key, factors]

/-! ### Units and weights -/

theorem key_one : key s (.one : Exp K) = 1 := Factors.ext (Normal.one.list_key)

theorem Represents.one : Represents s (.one : Exp K) 1 :=
  (Normal.represents (.term (.monomial .one))).of_eq (by
    rw [(Normal.monomial Normal.one).value_term, termValue]
    exact congrArg (MonoidAlgebra.single · 1) key_one)

/-- An expression that is one up to its left weight is that weight in the algebra. -/
theorem Represents.eq_smul_one (represents : Represents s e x) (one : e.bare.isOne = true) :
    x = e.leftWeight • 1 := by
  have bare := isOne_iff.mp one
  have single : e.summands = [e] := by
    cases e <;> first | rfl | cases bare
  rw [← represents.value, Exp.value, single, termsValue_singleton, termValue, bare, key_one,
    MonoidAlgebra.one_def, MonoidAlgebra.smul_single, smul_eq_mul, mul_one]

theorem mulWith_cases {general : Unit → Exp K} (linear : s.uses .linear = true)
    (left : Represents s l x) (right : Represents s r y)
    (rest : l.isZero = false → r.isZero = false → l.bare.isOne = false → r.bare.isOne = false →
      Represents s (general ()) (x * y)) : Represents s (s.mulWith general l r) (x * y) := by
  unfold ExpressionSet.mulWith
  rw [ExpressionSet.uses_trivial linear]
  simp only [Bool.not_true, Bool.false_eq_true, if_false]
  split_ifs with leftZero rightZero rightOne leftOne
  · have zero := left
    rw [isZero_iff.mp leftZero] at zero
    exact left.of_eq (by rw [← zero.value, Represents.zero.value, zero_mul])
  · have zero := right
    rw [isZero_iff.mp rightZero] at zero
    exact right.of_eq (by rw [← zero.value, Represents.zero.value, mul_zero])
  · refine (left.rweight linear _).of_eq ?_
    rw [right.eq_smul_one rightOne, mul_smul_comm, mul_one]
  · refine (right.lweight linear _).of_eq ?_
    rw [left.eq_smul_one leftOne, smul_mul_assoc, one_mul]
  · simp only [Bool.not_eq_true] at leftZero rightZero leftOne rightOne
    exact rest leftZero rightZero leftOne rightOne

/-! ### Products at the distributive level -/

theorem Represents.weightedProduct (linear : s.uses .linear = true) (left : Normal s .term l)
    (right : Normal s .term r) (leftNotOne : l.bare.isOne = false)
    (rightNotOne : r.bare.isOne = false) :
    Represents s (s.weightedProduct l r) (termValue s l * termValue s r) := by
  obtain ⟨normal, keys⟩ := left.bare.key_product linear right.bare leftNotOne rightNotOne
  have term := Normal.represents (.term (.monomial normal))
  rw [(Normal.monomial normal).value_term, termValue, normal.bare_monomial,
    normal.leftWeight_monomial, keys] at term
  unfold ExpressionSet.weightedProduct
  rw [if_pos linear, if_pos Weights.Lawful.commutes]
  refine (term.lweight linear _).of_eq ?_
  rw [termValue, termValue, MonoidAlgebra.single_mul_single, MonoidAlgebra.smul_single,
    smul_eq_mul, mul_one]
  rfl

theorem Represents.mulRight_term (linear : s.uses .linear = true) (left : Normal s .term l)
    (right : Normal s .term r) :
    Represents s (s.mulRight l r) (termValue s l * termValue s r) := by
  have product : Represents s (s.mulWith (fun _ => s.weightedProduct l r) l r)
      (termValue s l * termValue s r) :=
    mulWith_cases linear ((Normal.term left).represents.of_eq left.value_term)
      ((Normal.term right).represents.of_eq right.value_term) fun _ _ leftNotOne rightNotOne =>
        weightedProduct linear left right leftNotOne rightNotOne
  cases r with
  | sum => exact absurd rfl right.kind_term.2
  | _ =>
    unfold ExpressionSet.mulRight
    exact product

theorem Represents.mulRightTerms (linear : s.uses .linear = true) (left : Normal s .term l)
    (each : ∀ t ∈ ts, Normal s .term t) (sum : Represents s e x) :
    Represents s (s.mulRightTerms l ts e) (x + termValue s l * termsValue s ts) :=
  Represents.addEach (s.mulRightTerms l) (AddMonoidHom.mulLeft (termValue s l))
    (fun _ => by rw [ExpressionSet.mulRightTerms])
    (fun _ _ _ => by rw [ExpressionSet.mulRightTerms])
    (fun head sum => sum.add linear (mulRight_term linear left head)) each sum

theorem Represents.mulRight (distributive : s.uses .distributive = true)
    (left : Normal s .term l) (right : Represents s r y) :
    Represents s (s.mulRight l r) (termValue s l * y) := by
  have linear : s.uses .linear = true := ExpressionSet.uses_of_level_le (by decide) distributive
  have represents := (Normal.term left).represents.of_eq left.value_term
  obtain ⟨normal, rfl⟩ := right
  cases normal with
  | zero =>
    unfold ExpressionSet.mulRight
    exact mulWith_cases linear represents (Normal.represents .zero) fun _ nonzero =>
      absurd nonzero (by simp [isZero])
  | term right =>
    rw [right.value_term]
    exact mulRight_term linear left right
  | @sum ts many sorted each =>
    unfold ExpressionSet.mulRight
    refine mulWith_cases linear represents (Normal.represents (.sum many sorted each))
      fun _ _ _ _ => ?_
    rw [if_pos distributive]
    exact (Represents.zero.mulRightTerms linear left each).of_eq (zero_add _)

theorem mul_of_kind (notSum : l.kind ≠ .sum) (r : Exp K) : s.mul l r = s.mulRight l r := by
  cases l with
  | sum => exact absurd rfl notSum
  | _ =>
    rw [ExpressionSet.mul]
    simp

theorem Represents.mulTerms (distributive : s.uses .distributive = true)
    (each : ∀ t ∈ ts, Normal s .term t) (right : Represents s r y) (sum : Represents s e x) :
    Represents s (s.mulTerms ts r e) (x + termsValue s ts * y) := by
  have linear : s.uses .linear = true := ExpressionSet.uses_of_level_le (by decide) distributive
  refine Represents.addEach (s.mulTerms · r ·) (AddMonoidHom.mulRight y)
    (fun _ => by rw [ExpressionSet.mulTerms]) (fun _ _ _ => by rw [ExpressionSet.mulTerms])
    (fun {t e x} head sum => ?_) each sum
  rw [mul_of_kind head.kind_term.2]
  exact sum.add linear (right.mulRight distributive head)

/-- Products are built as the algebra has them. -/
theorem Represents.mul (distributive : s.uses .distributive = true) (left : Represents s l x)
    (right : Represents s r y) : Represents s (s.mul l r) (x * y) := by
  have linear : s.uses .linear = true := ExpressionSet.uses_of_level_le (by decide) distributive
  obtain ⟨normal, rfl⟩ := left
  cases normal with
  | zero =>
    have product {general : Unit → Exp K} :
        Represents s (s.mulWith general .zero r) (Exp.value s .zero * y) :=
      mulWith_cases linear (Normal.represents .zero) right fun nonzero =>
        absurd nonzero (by simp [isZero])
    rw [mul_of_kind (by simp [kind])]
    unfold ExpressionSet.mulRight
    split <;> exact product
  | term left =>
    rw [mul_of_kind left.kind_term.2, left.value_term]
    exact right.mulRight distributive left
  | @sum ts many sorted each =>
    unfold ExpressionSet.mul
    rw [if_pos distributive]
    refine mulWith_cases linear (Normal.represents (.sum many sorted each)) right
      fun _ _ _ _ => ?_
    exact (mulTerms distributive each right Represents.zero).of_eq (zero_add _)

/-! ### Products at the linear level -/

theorem Normal.weightedProduct (linear : s.uses .linear = true) (left : Operand s l.bare)
    (right : Operand s r.bare) : Normal s .sum (s.weightedProduct l r) := by
  unfold ExpressionSet.weightedProduct
  rw [if_pos linear, if_pos Weights.Lawful.commutes]
  exact ((Normal.represents (.term (.monomial (left.product linear right).1))).lweight linear _).normal

theorem mul_of_plain (plain : s.uses .distributive = false) (l r : Exp K) :
    s.mul l r = s.mulWith (fun _ => s.weightedProduct l r) l r := by
  have undistributed : s.mulRight l r = s.mulWith (fun _ => s.weightedProduct l r) l r := by
    unfold ExpressionSet.mulRight
    split
    · simp [plain]
    · rfl
  unfold ExpressionSet.mul
  split
  · simp only [plain, Bool.false_eq_true, if_false]
    exact undistributed
  · exact undistributed

/-- Where products are not distributed, sums are factors of products. -/
theorem Normal.operand_bare (plain : s.uses .distributive = false) (normal : Normal s .sum e)
    (nonzero : e.isZero = false) (notOne : e.bare.isOne = false) : Operand s e.bare := by
  cases normal with
  | zero => cases nonzero
  | term term => exact term.bare.operand_monomial notOne
  | sum many sorted each => exact (Normal.nested plain (.sum many sorted each)).operand_factor

theorem Normal.mulWith {general : Unit → Exp K} (linear : s.uses .linear = true)
    (left : Normal s .sum l) (right : Normal s .sum r)
    (rest : l.isZero = false → r.isZero = false → l.bare.isOne = false → r.bare.isOne = false →
      Normal s .sum (general ())) : Normal s .sum (s.mulWith general l r) := by
  unfold ExpressionSet.mulWith
  rw [ExpressionSet.uses_trivial linear]
  simp only [Bool.not_true, Bool.false_eq_true, if_false]
  split_ifs with leftZero rightZero rightOne leftOne
  · exact left
  · exact right
  · exact (left.represents.rweight linear _).normal
  · exact (right.represents.lweight linear _).normal
  · simp only [Bool.not_eq_true] at leftZero rightZero leftOne rightOne
    exact rest leftZero rightZero leftOne rightOne

/-- Products of normal forms are normal forms. -/
theorem Normal.mul (linear : s.uses .linear = true) (left : Normal s .sum l)
    (right : Normal s .sum r) : Normal s .sum (s.mul l r) := by
  cases plain : s.uses .distributive with
  | true => exact (left.represents.mul plain right.represents).normal
  | false =>
    have product : Normal s .sum (s.mulWith (fun _ => s.weightedProduct l r) l r) :=
      left.mulWith linear right fun leftNonzero rightNonzero leftNotOne rightNotOne =>
        weightedProduct linear (left.operand_bare plain leftNonzero leftNotOne)
          (right.operand_bare plain rightNonzero rightNotOne)
    exact mul_of_plain plain l r ▸ product

end Exp

end WeightedAutomata
