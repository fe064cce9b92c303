import WeightedAutomata.Context.WeightSet
import WeightedAutomata.Proofs.Expression.TotalOrder

/-! The weights of each weight set are in order, those that are expressions with weights of any kind
inside included. -/

set_option linter.unusedSectionVars false

namespace WeightedAutomata

instance : Std.TransCmp (Weights.order : RealWeight → RealWeight → Ordering) :=
  Coherent.transCmp (fun _ _ => (Int.compare_swap _ _).symm) fun x y z => by
    change Coherent (compare x.place y.place) (compare y.place z.place) (compare x.place z.place)
    exact .of_trans _ _ _

/-! ### Numbers -/

namespace Scalar

theorem order_of_rank_ne {s t : Scalar} (differ : s.rank ≠ t.rank) :
    s.order t = compare s.rank t.rank := by
  cases s <;> cases t <;> first | rfl | exact absurd rfl differ

theorem order_swap (s t : Scalar) : s.order t = (t.order s).swap := by
  by_cases ranks : s.rank = t.rank
  · cases s <;> cases t <;> first | (cases ranks; done) | skip
    case boolean.boolean a b => exact Weights.Ordered.order_swap b a
    case integer.integer m n => exact Weights.Ordered.order_swap n m
    case rational.rational p q => exact Weights.Ordered.order_swap q p
    case real.real x y => exact (Int.compare_swap _ _).symm
    case tropical.tropical m n =>
      exact Weights.Ordered.order_swap (Tropical.ofValue n : Tropical .min) (.ofValue m)
  · rw [order_of_rank_ne ranks, order_of_rank_ne (Ne.symm ranks), Nat.compare_swap]

theorem coherent (r s t : Scalar) : Coherent (r.order s) (s.order t) (r.order t) := by
  refine .of_rank rank order_of_rank_ne fun ranks ranks' => ?_
  cases r <;> cases s <;> first | (cases ranks; done) | skip
  all_goals cases t <;> first | (cases ranks'; done) | skip
  case boolean.boolean.boolean a b c =>
    change Coherent (Weights.order a b) (Weights.order b c) (Weights.order a c)
    exact .of_trans a b c
  case integer.integer.integer l m n =>
    change Coherent (Weights.order l m) (Weights.order m n) (Weights.order l n)
    exact .of_trans l m n
  case rational.rational.rational o p q =>
    change Coherent (Weights.order o p) (Weights.order p q) (Weights.order o q)
    exact .of_trans o p q
  case real.real.real x y z =>
    change Coherent (Weights.order x y) (Weights.order y z) (Weights.order x z)
    exact .of_trans x y z
  case tropical.tropical.tropical l m n =>
    let place (n : Option Int) : Tropical .min := .ofValue n
    change Coherent (Weights.order (place l) (place m)) (Weights.order (place m) (place n))
      (Weights.order (place l) (place n))
    exact .of_trans _ _ _

end Scalar

/-! ### Numbers and expressions -/

namespace AnyWeight

section

variable {P : AnyWeight → Prop}

mutual

/-- What numbers have, and expressions as soon as the weights inside have it, all weights have. -/
theorem induct (scalar : ∀ s, P (.scalar s))
    (expression : ∀ e, (∀ w ∈ e.weights, P w) → P (.expression e)) : (w : AnyWeight) → P w
  | .scalar s => scalar s
  | .expression e => expression e (induct_weights scalar expression e)

theorem induct_weights (scalar : ∀ s, P (.scalar s))
    (expression : ∀ e, (∀ w ∈ e.weights, P w) → P (.expression e)) :
    (e : Exp AnyWeight) → ∀ w ∈ e.weights, P w
  | .zero | .one | .atom _ => nofun
  | .sum es | .prod es | .conjunction es | .shuffle es | .tuple es =>
    induct_weightsOf scalar expression es
  | .star e | .transposition e | .complement e => induct_weights scalar expression e
  | .lweight w e | .rweight e w => List.forall_mem_cons.mpr
    ⟨induct scalar expression w, induct_weights scalar expression e⟩

theorem induct_weightsOf (scalar : ∀ s, P (.scalar s))
    (expression : ∀ e, (∀ w ∈ e.weights, P w) → P (.expression e)) :
    (es : List (Exp AnyWeight)) → ∀ w ∈ Exp.weightsOf es, P w
  | [] => nofun
  | e :: es => List.forall_mem_append.mpr
    ⟨induct_weights scalar expression e, induct_weightsOf scalar expression es⟩

end

end

mutual

theorem size_foldExp {α : Type} (scalar : Scalar → α) (expression : Exp α → α) (e : Exp AnyWeight) :
    (foldExp scalar expression e).size = e.size := by
  cases e with
  | zero | one | atom _ => rfl
  | sum es | prod es | conjunction es | shuffle es | tuple es =>
    exact congrArg (1 + ·) (sizes_foldExps scalar expression es)
  | star e | transposition e | complement e | lweight _ e | rweight e _ =>
    exact congrArg (1 + ·) (size_foldExp scalar expression e)

theorem sizes_foldExps {α : Type} (scalar : Scalar → α) (expression : Exp α → α)
    (es : List (Exp AnyWeight)) :
    Exp.sizes (foldExps scalar expression es) = Exp.sizes es := by
  match es with
  | [] => rfl
  | e :: es =>
    rw [foldExps, Exp.sizes, Exp.sizes, size_foldExp scalar expression e,
      sizes_foldExps scalar expression es]

end

theorem kind_foldExp {α : Type} (scalar : Scalar → α) (expression : Exp α → α) (e : Exp AnyWeight) :
    (foldExp scalar expression e).kind = e.kind := by
  cases e <;> rfl

mutual

/-- Expressions whose weights know their places compare like the expressions themselves. -/
theorem orderBy_places (e f : Exp AnyWeight) :
    Exp.orderBy (fun place w => place w) (foldExp scalarOrder expressionOrder e) f =
      Exp.orderBy order e f := by
  by_cases kinds : e.kind = f.kind
  · cases e <;> cases f <;> first | (cases kinds; done) | rfl | skip
    case sum.sum es fs | prod.prod es fs | conjunction.conjunction es fs | shuffle.shuffle es fs |
        tuple.tuple es fs =>
      rw [foldExp, Exp.orderBy, Exp.orderBy, sizes_foldExps, orderListBy_places es fs]
    case star.star e f | transposition.transposition e f | complement.complement e f =>
      exact orderBy_places e f
    case lweight.lweight v e w f | rweight.rweight e v f w =>
      rw [foldExp, Exp.orderBy, Exp.orderBy, orderBy_places e f]
      rfl
  · have kinds' := kinds
    rw [← kind_foldExp scalarOrder expressionOrder e] at kinds'
    rw [Exp.order_of_kind_ne kinds, Exp.order_of_kind_ne kinds', size_foldExp, kind_foldExp]

theorem orderListBy_places (es fs : List (Exp AnyWeight)) :
    Exp.orderListBy (fun place w => place w) (foldExps scalarOrder expressionOrder es) fs =
      Exp.orderListBy order es fs := by
  match es, fs with
  | [], [] | [], _ :: _ | _ :: _, [] => rfl
  | e :: es, f :: fs =>
    rw [foldExps, Exp.orderListBy, Exp.orderListBy, orderBy_places e f, orderListBy_places es fs]

end

theorem order_expression (e f : Exp AnyWeight) :
    order (.expression e) (.expression f) = Exp.orderBy order e f :=
  orderBy_places e f

theorem order_swap (v w : AnyWeight) : order w v = (order v w).swap := by
  induction v using induct generalizing w with
  | scalar s =>
    cases w with
    | scalar t => exact Scalar.order_swap t s
    | expression f => rfl
  | expression e swap =>
    cases w with
    | scalar t => rfl
    | expression f =>
      rw [order_expression, order_expression]
      exact Exp.orderBy_swap e f swap

theorem coherent (u v w : AnyWeight) : Coherent (order u v) (order v w) (order u w) := by
  induction u using induct generalizing v w with
  | scalar r =>
    cases v with
    | scalar s =>
      cases w with
      | scalar t => exact Scalar.coherent r s t
      | expression g => exact ⟨fun _ => rfl, nofun, fun same => same.symm⟩
    | expression f =>
      cases w with
      | scalar t => exact ⟨nofun, nofun, nofun⟩
      | expression g => exact ⟨nofun, fun _ => rfl, fun _ => rfl⟩
  | expression e rest =>
    cases v with
    | scalar s =>
      cases w with
      | scalar t => exact ⟨nofun, fun _ => rfl, fun _ => rfl⟩
      | expression g => exact ⟨nofun, nofun, nofun⟩
    | expression f =>
      cases w with
      | scalar t => exact ⟨fun _ => rfl, nofun, fun same => same.symm⟩
      | expression g =>
        rw [order_expression, order_expression, order_expression]
        exact Exp.coherent_orderBy e f g rest

instance : Std.TransCmp order :=
  Coherent.transCmp (fun v w => order_swap w v) coherent

end AnyWeight

/-- The weights of each weight set are in order. -/
instance WeightSet.transCmp_order (ws : WeightSet) :
    Std.TransCmp (Weights.order : ws.Carrier → ws.Carrier → Ordering) := by
  cases ws with
  | boolean => exact inferInstanceAs (Std.TransCmp (Weights.order : Bool → Bool → Ordering))
  | integer => exact inferInstanceAs (Std.TransCmp (Weights.order : Int → Int → Ordering))
  | rational => exact inferInstanceAs (Std.TransCmp (Weights.order : Rat → Rat → Ordering))
  | real =>
    exact inferInstanceAs (Std.TransCmp (Weights.order : RealWeight → RealWeight → Ordering))
  | tropical e =>
    exact inferInstanceAs (Std.TransCmp (Weights.order : Tropical e → Tropical e → Ordering))
  | expressions s inner =>
    exact inferInstanceAs (Std.TransCmp (Exp.orderBy AnyWeight.order))

end WeightedAutomata
