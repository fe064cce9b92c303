import WeightedAutomata.Proofs.Expansion.Soundness

/-! Expansions by labels: a series is its constant term and, behind each label, what may follow. -/

set_option linter.unusedSectionVars false

namespace WeightedAutomata

open scoped Weights

variable {K : Type} [Weights K] [Weights.Lawful K]

/-- What labels stand for, besides sums, products, stars and weights. -/
structure Labelling (K : Type) [Weights K] [Weights.Lawful K] (s : ExpressionSet) (A : Type)
    [Semiring A] [Algebra K A] extends Semantics K s A where
  ofLabel : Label → A
  /-- Whether the label can stand in an expansion. -/
  Valid : Label → Prop

namespace Labelling

variable {s : ExpressionSet} {A : Type} [Semiring A] [Algebra K A] (L : Labelling K s A)
variable {x y : Expansion K} {p : Combination K} {l : Label} {f g h : A} {k : K} {e : Exp K}

/-- What one polynomial stands for, with its label in front. -/
def PartDenotes (part : Label × Combination K) (f : A) : Prop :=
  L.Valid part.1 ∧ ∃ g, Combination.Denotes L.toSemantics part.2 g ∧ f = L.ofLabel part.1 * g

/-- What polynomials add up to. -/
abbrev Parts (polynomials : Terms Label (Combination K)) (f : A) : Prop :=
  Folds L.PartDenotes (· + ·) 0 polynomials f

/-- Whether the constant and the polynomials add up to `f`. -/
def Splits (x : Expansion K) (f : A) : Prop := ∃ g, L.Parts x.polynomials g ∧ f = x.constant • 1 + g

variable {L}

/-! ### Polynomials -/

theorem parts_addPolynomial (parts : L.Parts x.polynomials f) (valid : L.Valid l)
    (denotes : Combination.Denotes L.toSemantics p g) :
    L.Parts (x.addPolynomial l p).polynomials (f + L.ofLabel l * g) := by
  unfold Expansion.addPolynomial
  split
  · rename_i empty
    rwa [Combination.eq_zero_of_isZero denotes empty, mul_zero, add_zero]
  dsimp only
  -- The polynomial of the label grows by `p`, and it is left out only if it becomes zero.
  have merged (old : Combination K) {h : A} (before : Combination.Denotes L.toSemantics old h) :
      L.Parts (((if (old.add p).isZero then none else some (old.add p))).toList.map (l, ·))
        (L.ofLabel l * h + L.ofLabel l * g) := by
    have total := Combination.denotes_add before denotes
    rw [← mul_add]
    split
    · rename_i cancelled
      rw [Combination.eq_zero_of_isZero total cancelled, mul_zero]
      exact Folds.nil_iff.mpr rfl
    · exact Folds.singleton_iff.mpr ⟨valid, _, total, rfl⟩
  have added := merged .zero Combination.denotes_zero
  rw [mul_zero, zero_add] at added
  generalize x.polynomials = terms at parts
  induction terms generalizing f with
  | nil =>
    rw [Folds.nil_iff.mp parts, zero_add]
    exact added
  | cons term rest ih =>
    obtain ⟨l', q⟩ := term
    rw [Terms.update]
    split
    · rw [add_comm]
      exact Folds.append added parts
    · rename_i same
      obtain rfl := Std.LawfulEqOrd.eq_of_compare same
      obtain ⟨_, h, ⟨_, g', before, rfl⟩, tail, rfl⟩ := Folds.cons_iff.mp parts
      rw [add_right_comm]
      exact Folds.append (merged _ before) tail
    · obtain ⟨_, h, head, tail, rfl⟩ := Folds.cons_iff.mp parts
      rw [add_assoc]
      exact Folds.cons head (ih tail)

/-- Polynomials that are changed one by one and added. -/
theorem parts_fold {polynomials : Terms Label (Combination K)}
    {change : Combination K → Combination K} (op : A →+ A)
    (behind : ∀ l g, op (L.ofLabel l * g) = L.ofLabel l * op g)
    (changed : ∀ {p g}, Combination.Denotes L.toSemantics p g →
      Combination.Denotes L.toSemantics (change p) (op g))
    (start : L.Parts x.polynomials f) (parts : L.Parts polynomials g) :
    L.Parts (polynomials.foldl (fun sum (l, p) => sum.addPolynomial l (change p)) x).polynomials
      (f + op g) := by
  induction polynomials generalizing x f g with
  | nil => rwa [Folds.nil_iff.mp parts, map_zero, add_zero]
  | cons part rest ih =>
    obtain ⟨_, h, ⟨valid, g', denotes, rfl⟩, tail, rfl⟩ := Folds.cons_iff.mp parts
    rw [List.foldl_cons, map_add, ← add_assoc, behind]
    exact ih (parts_addPolynomial start valid (changed denotes)) tail

theorem parts_mapPolynomials {change : Combination K → Combination K} (op : A →+ A)
    (behind : ∀ l g, op (L.ofLabel l * g) = L.ofLabel l * op g)
    (changed : ∀ {p g}, Combination.Denotes L.toSemantics p g →
      Combination.Denotes L.toSemantics (change p) (op g))
    (parts : L.Parts x.polynomials f) (c : K) :
    L.Parts (x.mapPolynomials c change).polynomials (op f) := by
  rw [← zero_add (op f)]
  exact parts_fold op behind changed (Folds.nil_iff.mpr rfl) parts

theorem parts_scaled {change : Combination K → Combination K} (op : A →+ A)
    (behind : ∀ l g, op (L.ofLabel l * g) = L.ofLabel l * op g)
    (changed : ∀ {p g}, Combination.Denotes L.toSemantics p g →
      Combination.Denotes L.toSemantics (change p) (op g))
    (parts : L.Parts x.polynomials f) : L.Parts (x.scaled change) (op f) := by
  unfold Expansion.scaled
  generalize x.polynomials = polynomials at parts
  induction polynomials generalizing f with
  | nil =>
    rw [Folds.nil_iff.mp parts, map_zero]
    exact Folds.nil_iff.mpr rfl
  | cons part rest ih =>
    obtain ⟨l, p⟩ := part
    obtain ⟨_, h, ⟨valid, g', denotes, rfl⟩, tail, rfl⟩ := Folds.cons_iff.mp parts
    rw [List.map_cons, map_add, behind]
    cases empty : (change p).isZero with
    | false =>
      have head : L.PartDenotes (l, change p) (L.ofLabel l * op g') :=
        ⟨valid, _, changed denotes, rfl⟩
      rw [List.filter_cons_of_pos (by simp [empty])]
      exact Folds.cons head (ih tail)
    | true =>
      rw [List.filter_cons_of_neg (by simp [empty]),
        Combination.eq_zero_of_isZero (changed denotes) empty, mul_zero, zero_add]
      exact ih tail

/-! ### Sums, weights and products -/

theorem splits_ofWeight (w : K) : L.Splits (.ofWeight w) (w • 1) :=
  ⟨0, Folds.nil_iff.mpr rfl, (add_zero _).symm⟩

theorem splits_zero : L.Splits (.ofWeight Weights.zero) 0 := by
  rw [← zero_smul K (1 : A)]
  exact splits_ofWeight 0

theorem splits_one : L.Splits (.ofWeight Weights.one) 1 := by
  rw [← one_smul K (1 : A)]
  exact splits_ofWeight 1

theorem splits_label (valid : L.Valid l) : L.Splits
    ((Expansion.ofWeight Weights.zero).addPolynomial l (.monomial .one Weights.one))
    (L.ofLabel l) := by
  have monomial : Combination.Denotes L.toSemantics (.monomial .one Weights.one)
      ((Weights.one : K) • 1) := Combination.denotes_monomial L.one _
  have one : (Weights.one : K) • (1 : A) = 1 := one_smul K 1
  have nothing : L.Parts (Expansion.ofWeight (K := K) Weights.zero).polynomials 0 :=
    Folds.nil_iff.mpr rfl
  refine ⟨_, parts_addPolynomial nothing valid monomial, ?_⟩
  have zero : (Weights.zero : K) • (1 : A) = 0 := zero_smul K 1
  rw [Expansion.constant_addPolynomial, one, mul_one, zero_add]
  exact (congrArg (· + L.ofLabel l) zero).trans (zero_add _) |>.symm

theorem splits_add (left : L.Splits x f) (right : L.Splits y g) : L.Splits (x.add y) (f + g) := by
  obtain ⟨f', parts, rfl⟩ := left
  obtain ⟨g', parts', rfl⟩ := right
  refine ⟨_, parts_fold (AddMonoidHom.id A) (fun _ _ => rfl) id parts parts', ?_⟩
  have constant : (x.add y).constant = x.constant + y.constant :=
    Expansion.constant_foldl (fun _ _ => Expansion.constant_addPolynomial _ _ _) _ y.polynomials
  rw [constant, add_smul]
  exact add_add_add_comm _ _ _ _

theorem splits_scaleLeft (splits : L.Splits x f) (k : K) : L.Splits (x.scaleLeft k) (k • f) := by
  obtain ⟨g, parts, rfl⟩ := splits
  refine ⟨k • g, parts_scaled (DistribSMul.toAddMonoidHom A k)
    (fun _ _ => (mul_smul_comm _ _ _).symm)
    (fun denotes => Combination.denotes_scaleLeft denotes k) parts, ?_⟩
  rw [smul_add, smul_smul]
  rfl

theorem splits_scaleRight (splits : L.Splits x f) (k : K) :
    L.Splits (x.scaleRight s k) (k • f) := by
  obtain ⟨g, parts, rfl⟩ := splits
  refine ⟨k • g, parts_scaled (DistribSMul.toAddMonoidHom A k)
    (fun _ _ => (mul_smul_comm _ _ _).symm)
    (fun denotes => Combination.denotes_scaleRight denotes k) parts, ?_⟩
  rw [smul_add, smul_smul, mul_comm]
  rfl

theorem parts_followedBy (parts : L.Parts x.polynomials f) (denotes : L.Denotes e g) :
    L.Parts (x.followedBy s e).polynomials (f * g) :=
  parts_mapPolynomials (AddMonoidHom.mulRight g) (fun _ _ => mul_assoc _ _ _)
    (Combination.denotes_map_mul denotes) parts _

/-- A star is one more factor in front of itself. -/
theorem splits_star {c : K} (parts : L.Parts x.polynomials f) (denotes : L.Denotes e g)
    (equation : g = c • (1 + f * g)) :
    L.Splits (x.mapPolynomials c fun p => (p.scaleLeft c).map (s.mul · e)) g := by
  let op : A →+ A := (AddMonoidHom.mulRight g).comp (DistribSMul.toAddMonoidHom A c)
  have behind (l : Label) (h : A) : op (L.ofLabel l * h) = L.ofLabel l * op h := by
    change (c • (L.ofLabel l * h)) * g = L.ofLabel l * ((c • h) * g)
    rw [← mul_smul_comm, mul_assoc]
  refine ⟨_, parts_mapPolynomials op behind
    (fun sum => Combination.denotes_map_mul denotes (Combination.denotes_scaleLeft sum c))
    parts c, ?_⟩
  rw [Expansion.constant_mapPolynomials]
  conv_lhs => rw [equation, smul_add]
  exact congrArg (c • 1 + ·) (smul_mul_assoc c f g).symm

/-! ### Expressions -/

/-- Elements without a constant term, and the operators whose expansions need no more than them. -/
structure Graded (L : Labelling K s A) where
  proper : AddSubmonoid A
  ofLabel_mul {l : Label} (f : A) : L.Valid l → L.ofLabel l * f ∈ proper
  atom {l : Label} {f : A} : L.Denotes (.atom l) f → L.Valid l ∧ l.isOne = false ∧ f = L.ofLabel l
  starred {f g : A} {k : K} : f ∈ proper → L.Starred (k • 1 + f) g →
    ∃ c, Weights.star k = .ok c ∧ g = c • (1 + f * g)
  conjunction {es : List (Exp K)} {f : A} : ¬L.Denotes (.conjunction es) f
  shuffle {es : List (Exp K)} {f : A} : ¬L.Denotes (.shuffle es) f
  complement {e : Exp K} {f : A} : ¬L.Denotes (.complement e) f
  transposition {e : Exp K} {f : A} : ¬L.Denotes (.transposition e) f

theorem Graded.proper_of_parts (graded : L.Graded) {polynomials : Terms Label (Combination K)}
    (parts : L.Parts polynomials f) : f ∈ graded.proper := by
  induction polynomials generalizing f with
  | nil => exact Folds.nil_iff.mp parts ▸ graded.proper.zero_mem
  | cons part rest ih =>
    obtain ⟨_, h, ⟨valid, g, _, rfl⟩, tail, rfl⟩ := Folds.cons_iff.mp parts
    exact graded.proper.add_mem (graded.ofLabel_mul g valid) (ih tail)

section

variable {mirrored : ExpressionSet → Exp K → Result (Expansion K)}

open Expansion

mutual

/-- The expansion of an expression is found, and it splits what the expression denotes. -/
theorem Graded.splits_ofExpWith (graded : L.Graded)
    (tuples : ∀ {es : List (Exp K)} {f : A}, L.Denotes (.tuple es) f →
      ∃ x, ofExpWith mirrored s (.tuple es) = .ok x ∧ L.Splits x f)
    {e : Exp K} {f : A} (denotes : L.Denotes e f) :
    ∃ x, ofExpWith mirrored s e = .ok x ∧ L.Splits x f := by
  cases e with
  | zero => exact ⟨_, rfl, L.unique L.zero denotes ▸ splits_zero⟩
  | one => exact ⟨_, rfl, L.unique L.one denotes ▸ splits_one⟩
  | atom l =>
    obtain ⟨valid, notOne, rfl⟩ := graded.atom denotes
    refine ⟨_, ?_, splits_label valid⟩
    rw [ofExpWith, if_neg (Bool.eq_false_iff.mp notOne)]
  | sum es =>
    obtain ⟨_, fs, each, rfl⟩ := L.sum.mp denotes
    obtain ⟨xs, built, expanded⟩ := graded.splits_ofEach tuples each
    refine ⟨_, by rw [ofExpWith, built]; rfl, ?_⟩
    rw [← zero_add (fs.foldr (· + ·) 0)]
    exact Folds.foldl splits_add splits_zero ⟨fs, expanded, rfl⟩
  | prod es =>
    obtain ⟨_, fs, each, rfl⟩ := L.prod.mp denotes
    rw [← one_mul (fs.foldr (· * ·) 1)]
    exact graded.splits_ofFactors tuples each splits_one
  | star e =>
    obtain ⟨_, inner, star⟩ := L.star.mp denotes
    obtain ⟨x, built, g, parts, rfl⟩ := graded.splits_ofExpWith tuples inner
    obtain ⟨c, defined, equation⟩ := graded.starred (graded.proper_of_parts parts) star
    refine ⟨_, ?_, splits_star parts denotes equation⟩
    rw [ofExpWith, built]
    change Expansion.star s (.star e) x = _
    rw [Expansion.star, defined]
    rfl
  | lweight w e =>
    obtain ⟨_, g, inner, rfl⟩ := L.lweight.mp denotes
    obtain ⟨x, built, splits⟩ := graded.splits_ofExpWith tuples inner
    exact ⟨_, by rw [ofExpWith, built]; rfl, splits_scaleLeft splits w⟩
  | rweight e w =>
    obtain ⟨_, g, inner, rfl⟩ := L.rweight.mp denotes
    obtain ⟨x, built, splits⟩ := graded.splits_ofExpWith tuples inner
    exact ⟨_, by rw [ofExpWith, built]; rfl, splits_scaleRight splits w⟩
  | tuple es => exact tuples denotes
  | conjunction es => exact (graded.conjunction denotes).elim
  | shuffle es => exact (graded.shuffle denotes).elim
  | complement e => exact (graded.complement denotes).elim
  | transposition e => exact (graded.transposition denotes).elim

theorem Graded.splits_ofEach (graded : L.Graded)
    (tuples : ∀ {es : List (Exp K)} {f : A}, L.Denotes (.tuple es) f →
      ∃ x, ofExpWith mirrored s (.tuple es) = .ok x ∧ L.Splits x f)
    {es : List (Exp K)} {fs : List A} (denotes : List.Forall₂ L.Denotes es fs) :
    ∃ xs, ofEach mirrored s es = .ok xs ∧ List.Forall₂ L.Splits xs fs := by
  match es, denotes with
  | [], .nil => exact ⟨[], rfl, .nil⟩
  | e :: es, .cons head tail =>
    obtain ⟨x, first, splits⟩ := graded.splits_ofExpWith tuples head
    obtain ⟨xs, rest, each⟩ := graded.splits_ofEach tuples tail
    exact ⟨x :: xs, by rw [ofEach, first, rest]; rfl, .cons splits each⟩

theorem Graded.splits_ofFactors (graded : L.Graded)
    (tuples : ∀ {es : List (Exp K)} {f : A}, L.Denotes (.tuple es) f →
      ∃ x, ofExpWith mirrored s (.tuple es) = .ok x ∧ L.Splits x f)
    {es : List (Exp K)} {fs : List A} {g : A} {x : Expansion K}
    (denotes : List.Forall₂ L.Denotes es fs) (start : L.Splits x g) :
    ∃ y, ofFactors mirrored s es x = .ok y ∧ L.Splits y (g * fs.foldr (· * ·) 1) := by
  match es, fs, denotes with
  | [], [], .nil =>
    refine ⟨x, rfl, ?_⟩
    rwa [List.foldr_nil, mul_one]
  | e :: es, h :: fs, .cons head tail =>
    obtain ⟨g', parts, rfl⟩ := start
    rw [ofFactors]
    split
    · rename_i noConstant
      have factors : L.Denotes (es.foldl s.mul e) (h * fs.foldr (· * ·) 1) :=
        Folds.foldl L.multiplied head ⟨fs, tail, rfl⟩
      refine ⟨_, rfl, _, parts_followedBy parts factors, ?_⟩
      rw [Weights.isZero_iff.mp noConstant, zero_smul, zero_add, List.foldr_cons]
      refine ((congrArg (· + _) ?_).trans (zero_add _)).symm
      exact (congrArg (· • (1 : A)) (constant_mapPolynomials _ _ x)).trans (zero_smul K _)
    · obtain ⟨y, first, h', parts', rfl⟩ := graded.splits_ofExpWith tuples head
      let next : Expansion K := { (x.followedBy s e).add (y.scaleLeft x.constant) with
        constant := Weights.mul x.constant y.constant }
      have scaled : L.Parts (y.scaleLeft x.constant).polynomials (x.constant • h') :=
        parts_scaled (DistribSMul.toAddMonoidHom A x.constant)
          (fun _ _ => (mul_smul_comm _ _ _).symm)
          (fun denotes => Combination.denotes_scaleLeft denotes _) parts'
      have both : L.Parts next.polynomials _ :=
        parts_fold (AddMonoidHom.id A) (fun _ _ => rfl) id (parts_followedBy parts head) scaled
      have splits : L.Splits next ((x.constant • 1 + g') * (y.constant • 1 + h')) := by
        refine ⟨_, both, ?_⟩
        rw [add_mul, smul_mul_assoc, one_mul, smul_add, smul_smul, add_assoc]
        exact congrArg ((x.constant * y.constant) • (1 : A) + ·) (add_comm _ _)
      obtain ⟨z, built, whole⟩ := graded.splits_ofFactors tuples tail splits
      refine ⟨z, ?_, ?_⟩
      · rw [first]
        exact built
      · rwa [List.foldr_cons, ← mul_assoc]

end

end

end Labelling

end WeightedAutomata
