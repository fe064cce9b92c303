import WeightedAutomata.Proofs.Expression.Closure
import WeightedAutomata.Proofs.Expression.Fixed

/-!
What the operations make of expressions that are rebuilt as they are is rebuilt as it is, as far as
they neither sort sums nor move weights.
-/

set_option linter.unusedSectionVars false

namespace WeightedAutomata

open scoped Weights

variable {K : Type} [Weights K]

namespace Exp

variable {s : ExpressionSet} {e f l r c : Exp K} {es fs : List (Exp K)} {w : K} {k : Kind}

/-! ### Operators without weights -/

variable [Weights.Lawful K]

theorem isZero_of_kind (other : e.kind ≠ .zero) : e.isZero = false := by
  cases e <;> first | rfl | exact absurd rfl other

theorem kind_ne_zero (nonzero : e.isZero = false) : e.kind ≠ .zero := by
  cases e <;> first | cases nonzero; done | simp [kind]

theorem Fixed.setAtom (l : Label) : Fixed s (s.atom l : Exp K) := by
  unfold ExpressionSet.atom
  split
  · exact .one
  · rename_i notOne
    exact .atom (Bool.not_eq_true _ ▸ notOne)

theorem Fixed.starred (fixed : Fixed s e) : Fixed s (s.star e) := by
  cases simplified : s.uses .trivial && e.isZero with
  | true =>
    rw [ExpressionSet.star, simplified]
    exact .one
  | false =>
    have same : s.star e = .star e := by
      rw [ExpressionSet.star, simplified]
      rfl
    rw [same]
    exact .star same fixed

theorem Fixed.transposed (fixed : Fixed s e) : Fixed s (s.transposition e) := by
  have node (same : s.transposition e = .transposition e) : Fixed s (s.transposition e) := by
    rw [same]
    exact .transposition same fixed
  cases trivial : s.uses .trivial with
  | false => exact node (by simp [ExpressionSet.transposition, trivial])
  | true =>
    cases e with
    | zero | one =>
      rw [ExpressionSet.transposition, trivial]
      exact fixed
    | atom l =>
      rw [ExpressionSet.transposition, trivial]
      exact Fixed.setAtom l.mirror
    | _ => exact node (by simp [ExpressionSet.transposition, trivial])

theorem Fixed.complemented (fixed : Fixed s e) (built : s.complement e = .ok r) : Fixed s r := by
  unfold ExpressionSet.complement at built
  split at built
  · rename_i boolean
    cases built
    have node {e : Exp K} (fixed : Fixed s e) (same : s.complementNode e = .complement e) :
        Fixed s (.complement e) := by
      refine .complement ?_ fixed
      rw [ExpressionSet.complement, if_pos boolean, same]
    fun_induction ExpressionSet.complementNode s e with
    | case1 w e _ ih | case3 e w _ ih => exact ih (fixed.part (List.mem_singleton.mpr rfl))
    | case2 w e plain | case4 e w plain =>
      exact node fixed (by rw [ExpressionSet.complementNode, if_neg plain])
    | case5 e left right =>
      refine node fixed ?_
      rw [ExpressionSet.complementNode.eq_def]
      split
      · exact absurd rfl (left _ _)
      · exact absurd rfl (right _ _)
      · rfl
  · cases built

/-! ### Shuffles -/

theorem suits_shuffle : Suits .shuffle e ↔ e.isZero = false ∧ e.isOne = false := by
  cases e <;> simp [Suits, excluded, kind, isZero, isOne]

theorem shuffle_eq (suits : s.uses .trivial = true → Suits .shuffle l ∧ Suits .shuffle r) :
    s.shuffle l r = .shuffle (s.spread .shuffle l ++ s.spread .shuffle r) := by
  unfold ExpressionSet.shuffle
  cases trivial : s.uses .trivial with
  | false => rfl
  | true =>
    obtain ⟨left, right⟩ := suits trivial
    simp [(suits_shuffle.mp left).1, (suits_shuffle.mp left).2, (suits_shuffle.mp right).1,
      (suits_shuffle.mp right).2]

theorem Fixed.shuffled (left : Fixed s l) (right : Fixed s r) : Fixed s (s.shuffle l r) := by
  have node (suits : s.uses .trivial = true → Suits .shuffle l ∧ Suits .shuffle r) :
      Fixed s (.shuffle (s.spread .shuffle l ++ s.spread .shuffle r)) := by
    obtain ⟨many, flat, each⟩ := left.operands (by simp [Variadic]) right suits
    refine .shuffle flat (chain_spread (fun _ => rfl) (fun _ => rfl) (by decide) many flat
      (shuffle_eq suits) (fun _ x y _ _ here there => ?_) fun xs x here there => ?_) each
    · exact shuffle_eq fun _ => ⟨here, there⟩
    · exact shuffle_eq fun _ => ⟨here, there⟩
  unfold ExpressionSet.shuffle
  dsimp only
  split_ifs with plain leftZero rightZero leftOne rightOne
  · refine node fun trivial => ?_
    simp [trivial] at plain
  · exact left
  · exact right
  · exact right
  · exact left
  · simp only [Bool.not_eq_true] at leftZero rightZero leftOne rightOne
    exact node fun _ => ⟨suits_shuffle.mpr ⟨leftZero, leftOne⟩, suits_shuffle.mpr ⟨rightZero, rightOne⟩⟩

/-! ### Conjunctions -/

theorem suits_iff (kind : k = .sum ∨ k = .prod ∨ k = .conjunction) :
    Suits k e ↔ e.isZero = false := by
  rcases kind with rfl | rfl | rfl <;> cases e <;> simp [Suits, excluded, Exp.kind, isZero]

theorem conjunction_eq (suits : s.uses .trivial = true → Suits .conjunction l ∧ Suits .conjunction r)
    (apart : s.uses .trivial = true → comparable [l, r] = false) :
    s.conjunction l r = .conjunction (s.spread .conjunction l ++ s.spread .conjunction r) := by
  unfold ExpressionSet.conjunction
  cases trivial : s.uses .trivial with
  | false => rfl
  | true =>
    obtain ⟨left, right⟩ := suits trivial
    have differ := apart trivial
    rw [suits_iff (by simp)] at left right
    rw [comparable] at differ
    simp only [left, right, Bool.not_true, Bool.false_eq_true, if_false]
    split <;> first | rfl | simp [*, ExpressionSet.labelOf?] at differ

theorem label_cases (label : (ExpressionSet.labelOf? e).isSome = true) :
    e = .one ∨ ∃ a, e = .atom a := by
  cases e <;> simp [ExpressionSet.labelOf?] at label ⊢

theorem Fixed.conjoined (left : Fixed s l) (right : Fixed s r)
    (scaled : Fixed s (s.lweight (Weights.mul l.leftWeight r.leftWeight) .one))
    (weighted : Fixed s (s.rweight l r.leftWeight)) : Fixed s (s.conjunction l r) := by
  have node (suits : s.uses .trivial = true → Suits .conjunction l ∧ Suits .conjunction r)
      (apart : s.uses .trivial = true → comparable [l, r] = false) :
      Fixed s (.conjunction (s.spread .conjunction l ++ s.spread .conjunction r)) := by
    obtain ⟨many, flat, each⟩ := left.operands (by simp [Variadic]) right suits
    refine .conjunction flat (fun free => chain_spread (fun _ => rfl) (fun _ => rfl) (by decide) many
      flat (conjunction_eq suits apart) (fun flattened x y rest begins here there => ?_)
      fun xs x here there => ?_) each
    · refine conjunction_eq (fun _ => ⟨here, there⟩) fun _ => ?_
      have differ := free flattened
      rw [begins] at differ
      exact differ
    · exact conjunction_eq (fun _ => ⟨here, there⟩) fun _ => rfl
  unfold ExpressionSet.conjunction
  dsimp only
  split
  · rename_i plain
    refine node (fun trivial => ?_) fun trivial => ?_ <;> simp [trivial] at plain
  split
  · exact left
  split
  · exact right
  rename_i leftZero rightZero
  simp only [Bool.not_eq_true] at leftZero rightZero
  split
  · exact scaled
  · split
    · exact weighted
    · exact .zero
  · exact .zero
  · exact .zero
  · rename_i ones atoms oneAtom atomOne
    refine node (fun _ => ?_) fun _ => ?_
    · exact ⟨(suits_iff (by simp)).mpr leftZero, (suits_iff (by simp)).mpr rightZero⟩
    · refine Bool.eq_false_iff.mpr fun labels => ?_
      obtain ⟨first, second⟩ := Bool.and_eq_true_iff.mp labels
      rcases label_cases first with left | ⟨a, left⟩
      · rcases label_cases second with right | ⟨b, right⟩
        · exact ones left right
        · exact oneAtom b left right
      · rcases label_cases second with right | ⟨b, right⟩
        · exact atomOne a left right
        · exact atoms a b left right

/-! ### Sums that are not sorted -/

theorem add_eq (plain : s.uses .linear = false)
    (suits : s.uses .trivial = true → Suits .sum l ∧ Suits .sum r) :
    s.add l r = .sum (s.spread .sum l ++ s.spread .sum r) := by
  unfold ExpressionSet.add ExpressionSet.addWith
  cases trivial : s.uses .trivial with
  | false =>
    have nested : s.uses .associative = false := by
      cases flattened : s.uses .associative with
      | false => rfl
      | true => rw [uses_trivial_of_associative flattened] at trivial; cases trivial
    rw [spread_of_nested nested, spread_of_nested nested]
    rfl
  | true =>
    obtain ⟨left, right⟩ := suits trivial
    rw [suits_iff (by simp)] at left right
    simp [left, right, plain]

theorem Fixed.added (plain : s.uses .linear = false) (left : Fixed s l) (right : Fixed s r) :
    Fixed s (s.add l r) := by
  by_cases suits : s.uses .trivial = true → Suits .sum l ∧ Suits .sum r
  · obtain ⟨many, flat, each⟩ := left.operands (by simp [Variadic]) right suits
    rw [add_eq plain suits]
    refine .sum flat (chain_spread (fun _ => rfl) (fun _ => rfl) (by decide) many flat
      (add_eq plain suits) (fun _ x y _ _ here there => ?_) fun xs x here there => ?_) each
    · exact add_eq plain fun _ => ⟨here, there⟩
    · exact add_eq plain fun _ => ⟨here, there⟩
  · rw [Classical.not_imp, suits_iff (by simp), suits_iff (by simp)] at suits
    obtain ⟨trivial, zero⟩ := suits
    unfold ExpressionSet.add ExpressionSet.addWith
    rw [trivial]
    cases leftZero : l.isZero with
    | true => exact right
    | false =>
      cases rightZero : r.isZero with
      | true => exact left
      | false => exact absurd ⟨leftZero, rightZero⟩ zero

/-! ### Weights that are not distributed -/

theorem scaleWith_eq (merge : K → Exp K → Exp K)
    (simple : s.uses .trivial = true → e.isZero = false ∧ w ≠ 0 ∧ w ≠ 1 ∧ e.kind ≠ .lweight)
    (unsummed : s.uses .linear = true → e.kind ≠ .sum) : s.scaleWith merge e w = .lweight w e := by
  unfold ExpressionSet.scaleWith
  cases trivial : s.uses .trivial with
  | false => rfl
  | true =>
    obtain ⟨nonzero, notZero, notOne, unweighted⟩ := simple trivial
    have remains := Weights.isZero_eq_false.mpr notZero
    have matters : Weights.isOne w = false := by
      rw [← Bool.not_eq_true, Weights.isOne_iff]
      exact notOne
    cases e with
    | lweight => exact absurd rfl unweighted
    | sum es =>
      cases linear : s.uses .linear with
      | true => exact absurd rfl (unsummed linear)
      | false => simp [nonzero, remains, matters]
    | _ => simp [nonzero, remains, matters]

theorem lweight_eq
    (simple : s.uses .trivial = true → e.isZero = false ∧ w ≠ 0 ∧ w ≠ 1 ∧ e.kind ≠ .lweight)
    (unsummed : s.uses .linear = true → e.kind ≠ .sum) : s.lweight w e = .lweight w e := by
  obtain ⟨depth, size⟩ : ∃ depth, e.size = depth + 1 :=
    ⟨e.size - 1, by have := Semantics.size_pos e; omega⟩
  rw [ExpressionSet.lweight, size, ExpressionSet.scaleWithin, scaleWith_eq _ simple unsummed]

theorem Fixed.scaledWith (plain : s.uses .linear = false) (merge : K → Exp K → Exp K) {e : Exp K}
    (fixed : Fixed s e) (w : K) : Fixed s (s.scaleWith merge e w) := by
  by_cases simple : s.uses .trivial = true → e.isZero = false ∧ w ≠ 0 ∧ w ≠ 1 ∧ e.kind ≠ .lweight
  · rw [scaleWith_eq merge simple (by simp [plain])]
    exact .lweight (lweight_eq simple (by simp [plain])) fixed
  · -- Zero, a weight of zero or one, or an expression that has a weight already.
    obtain ⟨trivial, special⟩ := Classical.not_imp.mp simple
    unfold ExpressionSet.scaleWith
    rw [trivial]
    simp only [Bool.not_true, Bool.false_eq_true, if_false]
    split
    · exact fixed
    split
    · exact .zero
    rename_i ordinary nonzero
    rw [Bool.not_eq_true, Bool.or_eq_false_iff] at ordinary
    cases e with
    | lweight h e => exact Fixed.scaledWith plain merge (fixed.part (List.mem_singleton.mpr rfl)) _
    | _ =>
      refine absurd ⟨ordinary.1, ?_, ?_, by simp [kind]⟩ special
      · exact fun zero => nonzero (Weights.isZero_iff.mpr zero)
      · rintro rfl
        simp [Weights.isOne_iff.mpr] at ordinary

theorem Fixed.lweighted (plain : s.uses .linear = false) (w : K) (fixed : Fixed s e) :
    Fixed s (s.lweight w e) := by
  obtain ⟨depth, size⟩ : ∃ depth, e.size = depth + 1 :=
    ⟨e.size - 1, by have := Semantics.size_pos e; omega⟩
  rw [ExpressionSet.lweight, size, ExpressionSet.scaleWithin]
  exact fixed.scaledWith plain _ w

theorem rweight_eq (plain : s.uses .linear = false)
    (simple : s.uses .trivial = true → w ≠ 0 ∧ w ≠ 1 ∧ e.isLeaf = false ∧ e.kind ≠ .lweight ∧
      e.kind ≠ .rweight) : s.rweight e w = .rweight e w := by
  unfold ExpressionSet.rweight
  cases trivial : s.uses .trivial with
  | false => rfl
  | true =>
    obtain ⟨notZero, notOne, inner, notLeft, notRight⟩ := simple trivial
    have remains := Weights.isZero_eq_false.mpr notZero
    have matters : Weights.isOne w = false := by
      rw [← Bool.not_eq_true, Weights.isOne_iff]
      exact notOne
    cases e with
    | lweight => exact absurd rfl notLeft
    | rweight => exact absurd rfl notRight
    | _ => simp [inner, remains, matters, plain]

theorem Fixed.rweighted (plain : s.uses .linear = false) {e : Exp K} (fixed : Fixed s e) (w : K) :
    Fixed s (s.rweight e w) := by
  by_cases simple : s.uses .trivial = true → w ≠ 0 ∧ w ≠ 1 ∧ e.isLeaf = false ∧ e.kind ≠ .lweight ∧
      e.kind ≠ .rweight
  · have same := rweight_eq plain simple
    rw [same]
    exact .rweight same fixed
  · -- A weight of zero or one, a leaf, whose weight is a left one, or a weight below this one.
    obtain ⟨trivial, special⟩ := Classical.not_imp.mp simple
    unfold ExpressionSet.rweight
    rw [trivial]
    simp only [Bool.not_true, Bool.false_eq_true, if_false]
    split
    · exact .zero
    split
    · exact fixed
    split
    · exact fixed.lweighted plain w
    rename_i nonzero notOne inner
    cases e with
    | lweight h e =>
      have below : Fixed s e := fixed.part (List.mem_singleton.mpr rfl)
      exact (Fixed.rweighted plain below w).lweighted plain h
    | rweight e v => exact Fixed.rweighted plain (fixed.part (List.mem_singleton.mpr rfl)) _
    | _ =>
      refine absurd ⟨?_, ?_, Bool.not_eq_true _ ▸ inner, by simp [kind], by simp [kind]⟩ special
      · exact fun zero => nonzero (Weights.isZero_iff.mpr zero)
      · exact fun one => notOne (Weights.isOne_iff.mpr one)

/-! ### Products of two factors -/

variable [Weights.Ordered K]

theorem mul_eq_product (left : Kept s l) (right : Kept s r) : s.mul l r = s.product l r := by
  have product : s.mulWith (fun _ => s.weightedProduct l r) l r = s.product l r := by
    unfold ExpressionSet.mulWith
    cases trivial : s.uses .trivial with
    | false => rfl
    | true =>
      simp only [left.nonzero trivial, right.nonzero trivial, left.notOne trivial,
        right.notOne trivial, Bool.not_true, Bool.false_eq_true, if_false]
      unfold ExpressionSet.weightedProduct
      cases linear : s.uses .linear with
      | false => rfl
      | true =>
        have leftPlain := left.unweighted linear
        have rightPlain := right.unweighted linear
        rw [if_pos rfl, if_pos Weights.Lawful.commutes, leftWeight_of_kind leftPlain,
          leftWeight_of_kind rightPlain, bare_of_kind leftPlain, bare_of_kind rightPlain,
          Weights.mul_eq, mul_one, lweight_one trivial]
  cases distributive : s.uses .distributive with
  | false => rw [mul_of_plain distributive, product]
  | true =>
    rw [mul_of_kind (left.undistributed distributive), ExpressionSet.mulRight.eq_def]
    split
    · exact absurd rfl (right.undistributed distributive)
    · exact product

theorem Kept.of_unweighted (plain : s.uses .linear = false)
    (nonzero : s.uses .trivial = true → e.isZero = false)
    (notOne : s.uses .trivial = true → e.bare.isOne = false) : Kept s e where
  nonzero := nonzero
  notOne := notOne
  unweighted linear := by simp [plain] at linear
  undistributed distributive := by
    have linear : s.uses .linear = true := ExpressionSet.uses_of_level_le (by decide) distributive
    simp [plain] at linear

theorem Kept.of_atom (l : Label) : Kept s (.atom l : Exp K) :=
  ⟨fun _ => rfl, fun _ => rfl, fun _ => by simp [kind], fun _ => by simp [kind]⟩

theorem Kept.prod (es : List (Exp K)) : Kept s (.prod es) :=
  ⟨fun _ => rfl, fun _ => rfl, fun _ => by simp [kind], fun _ => by simp [kind]⟩

theorem product_of_many (many : 2 ≤ es.length)
    (joined : s.joinFactors (s.spread .prod l) (s.spread .prod r) = es) :
    s.product l r = .prod es := by
  rw [ExpressionSet.product, joined]
  match es, many with
  | _ :: _ :: _, _ => rfl

/-- A flattened product is made of its factors again. -/
theorem Factored.chain_mul (flattened : s.uses .associative = true) (factored : Factored s es)
    (many : 2 ≤ es.length) : ExpressionSet.chain s.mul es = .prod es := by
  have single {e : Exp K} (member : e ∈ es) : s.spread .prod e = [e] :=
    spread_of_kind fun same => factored.flat e member (by simp [same, excluded])
  apply chain_eq many
  · intro x y rest begins
    have here : x ∈ es := by simp [begins]
    have there : y ∈ es := by simp [begins]
    rw [mul_eq_product (factored.kept x here) (factored.kept y there)]
    refine product_of_many (Nat.le_refl 2) ?_
    rw [single here, single there, joinFactors_apart]
    intro words
    have apart := factored.apart words
    rw [begins] at apart
    exact (List.isChain_cons_cons.mp apart).1
  · intro xs x rest long ends
    have member : x ∈ es := by simp [ends]
    rw [mul_eq_product (.prod xs) (factored.kept x member)]
    refine product_of_many (by simp; omega) ?_
    rw [single member, show s.spread .prod (.prod xs) = xs from spread_children flattened rfl]
    obtain ⟨front, y, rfl⟩ := (List.eq_nil_or_concat' xs).resolve_left (by rintro rfl; cases long)
    rw [ExpressionSet.joinFactors_middle, joinFactors_apart]
    · simp
    · intro words
      have apart := factored.apart words
      rw [ends, List.append_assoc] at apart
      exact (List.isChain_cons_cons.mp (List.isChain_append.mp apart).2.1).1

theorem spelled_of_fixed (each : ∀ e ∈ es, Fixed s e) : Spelled es := by
  intro l member
  cases each _ member with
  | atom notOne => exact notOne

theorem Factored.join (left : Factored s es) (right : Factored s fs) (first : Spelled es)
    (second : Spelled fs) : Factored s (s.joinFactors es fs) := by
  refine ⟨fun e member => ?_, left.apart.join right.apart first second, fun e member => ?_⟩
  · rcases mem_joinFactors first second member with before | after | ⟨u, rfl⟩
    · exact left.flat e before
    · exact right.flat e after
    · simp [kind, excluded]
  · rcases mem_joinFactors first second member with before | after | ⟨u, rfl⟩
    · exact left.kept e before
    · exact right.kept e after
    · exact .of_atom _

/-- The factors that an operand adds to a flattened product. -/
theorem Fixed.factored (flattened : s.uses .associative = true) (fixed : Fixed s e)
    (kept : Kept s e) : Factored s (s.spread .prod e) := by
  by_cases same : e.kind = .prod
  · rw [spread_children flattened same]
    cases fixed with
    | prod factored => exact factored flattened
    | _ => cases same
  · rw [spread_of_kind same]
    have nonzero := kind_ne_zero (kept.nonzero (uses_trivial_of_associative flattened))
    refine ⟨?_, fun _ => .singleton e, ?_⟩
    · simp [Flat, excluded, nonzero, same]
    · simpa using kept

theorem Fixed.product (left : Fixed s l) (right : Fixed s r) (leftKept : Kept s l)
    (rightKept : Kept s r) : Fixed s (s.product l r) := by
  have suits : s.uses .associative = true → Suits .prod l ∧ Suits .prod r := fun flattened =>
    have trivial := uses_trivial_of_associative flattened
    ⟨(suits_iff (by simp)).mpr (leftKept.nonzero trivial),
      (suits_iff (by simp)).mpr (rightKept.nonzero trivial)⟩
  obtain ⟨front, _, leftEach⟩ := left.spread (k := .prod) (by simp [Variadic]) fun h => (suits h).1
  obtain ⟨back, _, rightEach⟩ := right.spread (k := .prod) (by simp [Variadic]) fun h => (suits h).2
  have first := spelled_of_fixed leftEach
  have second := spelled_of_fixed rightEach
  have each (e : Exp K) (member : e ∈ s.joinFactors (s.spread .prod l) (s.spread .prod r)) :
      Fixed s e := by
    rcases mem_joinFactors first second member with before | after | ⟨u, rfl⟩
    · exact leftEach e before
    · exact rightEach e after
    · exact .atom rfl
  have factored (flattened : s.uses .associative = true) :
      Factored s (s.joinFactors (s.spread .prod l) (s.spread .prod r)) :=
    (left.factored flattened leftKept).join (right.factored flattened rightKept) first second
  have nonempty : s.joinFactors (s.spread .prod l) (s.spread .prod r) ≠ [] :=
    ExpressionSet.joinFactors_ne_nil back
  rcases joined : s.joinFactors (s.spread .prod l) (s.spread .prod r) with _ | ⟨e, _ | ⟨f, rest⟩⟩
  · exact absurd joined nonempty
  · rw [ExpressionSet.product, joined]
    exact each e (by simp [joined])
  · rw [product_of_many (by simp) joined]
    rw [joined] at each factored
    refine .prod factored ?_ each
    cases flattened : s.uses .associative with
    | true => exact (factored flattened).chain_mul flattened (by simp)
    | false =>
      -- The operands of a nested product are the two that it was made of.
      simp only [spread_of_nested flattened] at joined first second
      rcases joinFactors_cases (s := s) first second with ⟨_, a, b, _, _, word⟩ | ⟨_, pair⟩
      · rw [word] at joined
        cases joined
      · rw [pair] at joined
        cases joined
        change s.mul l r = _
        rw [mul_eq_product leftKept rightKept]
        refine product_of_many (Nat.le_refl 2) ?_
        rw [spread_of_nested flattened, spread_of_nested flattened, pair]

end Exp

end WeightedAutomata
