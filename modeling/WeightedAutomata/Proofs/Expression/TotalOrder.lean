import WeightedAutomata.Proofs.Expression.Order
import WeightedAutomata.Proofs.Weights.Order

/-! The order of expressions is a strict total order, in which size counts before all else. What it
takes is that the weights inside can be compared with all others. -/

set_option linter.unusedSectionVars false

namespace WeightedAutomata.Exp

variable {K : Type} {cmp : K → K → Ordering}

/-! ### Swapping the sides -/

mutual

theorem orderBy_swap (e f : Exp K)
    (swap : ∀ v ∈ e.weights, ∀ w, cmp w v = (cmp v w).swap) :
    orderBy cmp f e = (orderBy cmp e f).swap := by
  by_cases kinds : e.kind = f.kind
  · cases e <;> cases f <;> first | (cases kinds; done) | rfl | skip
    case atom.atom a b => exact Label.order_swap a b
    case sum.sum es fs | prod.prod es fs | conjunction.conjunction es fs | shuffle.shuffle es fs |
        tuple.tuple es fs =>
      rw [orderBy, orderBy, Ordering.swap_then, orderListBy_swap es fs swap, Nat.compare_swap]
    case star.star e f | transposition.transposition e f | complement.complement e f =>
      exact orderBy_swap e f swap
    case lweight.lweight v e w f | rweight.rweight e v f w =>
      obtain ⟨own, others⟩ := List.forall_mem_cons.mp swap
      rw [orderBy, orderBy, Ordering.swap_then, orderBy_swap e f others, own w]
  · rw [order_of_kind_ne kinds, order_of_kind_ne (Ne.symm kinds), Ordering.swap_then,
      Nat.compare_swap, Nat.compare_swap]

theorem orderListBy_swap (es fs : List (Exp K))
    (swap : ∀ v ∈ weightsOf es, ∀ w, cmp w v = (cmp v w).swap) :
    orderListBy cmp fs es = (orderListBy cmp es fs).swap := by
  match es, fs with
  | [], [] | [], _ :: _ | _ :: _, [] => rfl
  | e :: es, f :: fs =>
    obtain ⟨first, others⟩ := List.forall_mem_append.mp swap
    rw [orderListBy, orderListBy, Ordering.swap_then, orderBy_swap e f first,
      orderListBy_swap es fs others]

end

/-! ### Sizes and kinds -/

theorem then_then_self (x y : Ordering) : x.then (x.then y) = x.then y := by
  cases x <;> rfl

theorem compare_one_add (m n : Nat) : compare (1 + m) (1 + n) = compare m n := by
  rw [Nat.compare_eq_ite_lt, Nat.compare_eq_ite_lt]
  simp only [Nat.add_lt_add_iff_left]

/-- The order looks at sizes first, also where it does not say so. -/
theorem size_then (e f : Exp K) :
    (compare e.size f.size).then (orderBy cmp e f) = orderBy cmp e f := by
  by_cases kinds : e.kind = f.kind
  · cases e <;> cases f <;> first | (cases kinds; done) | rfl | skip
    case sum.sum es fs | prod.prod es fs | conjunction.conjunction es fs | shuffle.shuffle es fs |
        tuple.tuple es fs =>
      rw [orderBy, size, size, compare_one_add, then_then_self]
    case star.star e f | transposition.transposition e f | complement.complement e f =>
      rw [orderBy, size, size, compare_one_add, size_then e f]
    case lweight.lweight v e w f | rweight.rweight e v f w =>
      rw [orderBy, size, size, compare_one_add, ← Ordering.then_assoc, size_then e f]
  · rw [order_of_kind_ne kinds, then_then_self]

/-- The order looks at sizes, then at kinds. -/
theorem size_then_rank_then (e f : Exp K) :
    (compare e.size f.size).then ((compare e.kind.rank f.kind.rank).then (orderBy cmp e f)) =
      orderBy cmp e f := by
  by_cases kinds : e.kind = f.kind
  · rw [kinds, Nat.compare_eq_eq.mpr rfl, Ordering.eq_then, size_then]
  · rw [order_of_kind_ne kinds]
    cases compare e.size f.size <;> cases compare e.kind.rank f.kind.rank <;> rfl

/-! ### Transitivity -/

mutual

theorem coherent_orderBy (e f g : Exp K)
    (coherent : ∀ u ∈ e.weights, ∀ v w, Coherent (cmp u v) (cmp v w) (cmp u w)) :
    Coherent (orderBy cmp e f) (orderBy cmp f g) (orderBy cmp e g) := by
  rw [← size_then_rank_then e f, ← size_then_rank_then f g, ← size_then_rank_then e g]
  refine .then (.of_trans _ _ _) fun sizes sizes' => .then (.of_trans _ _ _) fun ranks ranks' => ?_
  have kinds := kind_eq_of_rank (Nat.compare_eq_eq.mp ranks)
  have kinds' := kind_eq_of_rank (Nat.compare_eq_eq.mp ranks')
  clear sizes sizes' ranks ranks'
  cases e <;> cases f <;> first | (cases kinds; done) | skip
  all_goals cases g <;> first | (cases kinds'; done) | skip
  case zero.zero.zero | one.one.one => exact ⟨fun _ => rfl, fun _ => rfl, fun _ => rfl⟩
  case atom.atom.atom a b c =>
    change Coherent (compare a b) (compare b c) (compare a c)
    exact .of_trans a b c
  case sum.sum.sum es fs gs | prod.prod.prod es fs gs |
      conjunction.conjunction.conjunction es fs gs | shuffle.shuffle.shuffle es fs gs |
      tuple.tuple.tuple es fs gs =>
    exact .then (.of_trans _ _ _) fun _ _ => coherent_orderListBy es fs gs coherent
  case star.star.star e f g | transposition.transposition.transposition e f g |
      complement.complement.complement e f g =>
    exact coherent_orderBy e f g coherent
  case lweight.lweight.lweight u e v f w g | rweight.rweight.rweight e u f v g w =>
    obtain ⟨own, others⟩ := List.forall_mem_cons.mp coherent
    exact .then (coherent_orderBy e f g others) fun _ _ => own v w

theorem coherent_orderListBy (es fs gs : List (Exp K))
    (coherent : ∀ u ∈ weightsOf es, ∀ v w, Coherent (cmp u v) (cmp v w) (cmp u w)) :
    Coherent (orderListBy cmp es fs) (orderListBy cmp fs gs) (orderListBy cmp es gs) := by
  match es, fs, gs with
  | [], _, _ | _, [], _ | _, _, [] =>
    exact .of_nil rfl (fun _ _ => rfl) (fun _ _ => rfl) (by simp)
  | e :: es, f :: fs, g :: gs =>
    obtain ⟨first, others⟩ := List.forall_mem_append.mp coherent
    exact .then (coherent_orderBy e f g first) fun _ _ => coherent_orderListBy es fs gs others

end

instance transCmp_orderBy [Std.TransCmp cmp] : Std.TransCmp (orderBy cmp) :=
  Coherent.transCmp (fun e f => orderBy_swap f e fun _ _ _ => Std.OrientedCmp.eq_swap)
    fun e f g => coherent_orderBy e f g fun _ _ _ _ => .of_trans _ _ _

/-! ### Weights in their own order -/

section

variable [Weights K]

instance transCmp_order [Std.TransCmp (Weights.order : K → K → Ordering)] :
    Std.TransCmp (Exp.order : Exp K → Exp K → Ordering) := transCmp_orderBy

variable [Weights.Lawful K] [Weights.Ordered K]

instance : Std.TransOrd (Exp K) := transCmp_order

theorem order_swap (e f : Exp K) : f.order e = (e.order f).swap :=
  Std.OrientedCmp.eq_swap

theorem order_lt_trans {e f g : Exp K} (first : e.order f = .lt) (second : f.order g = .lt) :
    e.order g = .lt :=
  Std.TransCmp.lt_trans first second

end

end WeightedAutomata.Exp
