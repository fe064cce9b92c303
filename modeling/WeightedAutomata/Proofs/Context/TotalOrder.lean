import WeightedAutomata.Proofs.Context.Descriptor
import WeightedAutomata.Proofs.Context.Embedding
import WeightedAutomata.Proofs.Context.Order

/-! The orders that sums keep their keys in: of labels, of weights of any kind, and of expressions
with such weights inside. Any two values can be compared, and only the same value is at the same
place, as long as there is no real number inside. -/

set_option linter.unusedSectionVars false

namespace WeightedAutomata

/-- An order of the values with a property in which any two can be compared and only the same value
is at the same place. -/
structure TotalOn {α : Type} (P : α → Prop) (cmp : α → α → Ordering) : Prop where
  swap {a b : α} : P a → P b → cmp b a = (cmp a b).swap
  total {a b : α} : P a → P b → (cmp a b).isLE ∨ (cmp b a).isLE
  trans {a b c : α} : P a → P b → P c → (cmp a b).isLE → (cmp b c).isLE → (cmp a c).isLE
  antisymm {a b : α} : P a → P b → (cmp a b).isLE → (cmp b a).isLE → a = b
  eq_iff {a b : α} : P a → P b → (cmp a b = .eq ↔ a = b)

theorem TotalOn.of_transCmp {α : Type} {P : α → Prop} {cmp : α → α → Ordering} [Std.TransCmp cmp]
    (same : ∀ a, P a → ∀ b, cmp a b = .eq ↔ a = b) : TotalOn P cmp := by
  have swap (a b : α) : cmp b a = (cmp a b).swap := Std.OrientedCmp.eq_swap
  constructor
  case swap => exact fun {a b} _ _ => swap a b
  case total =>
    intro a b _ _
    rw [swap a b]
    cases cmp a b <;> simp
  case trans => exact fun _ _ _ => Std.TransCmp.isLE_trans
  case antisymm =>
    intro a b holds _ below above
    apply (same a holds b).mp
    rw [swap a b] at above
    revert below above
    cases cmp a b <;> simp
  case eq_iff => exact fun {a b} holds _ => same a holds b

/-! ### Labels -/

namespace Label

/-- The order of letters by code point is the lexicographic one of lists. -/
theorem compareLetters_eq_lt {u v : List Char} : compareLetters u v = .lt ↔ u < v := by
  induction u generalizing v with
  | nil => cases v <;> simp [compareLetters]
  | cons c u ih =>
    cases v with
    | nil => simp [compareLetters]
    | cons d v =>
      rw [compareLetters, Ordering.then_eq_lt, Nat.compare_eq_lt, Nat.compare_eq_eq, ih,
        Char.toNat_inj, List.cons_lt_cons_iff]
      rfl

/-- Words are in order of their length, words of one length in that of their code points. -/
theorem order_word_lt {u v : List Char} : (word u).order (word v) = .lt ↔
    u.length < v.length ∨ u.length = v.length ∧ u < v := by
  rw [order, Ordering.then_eq_lt, Nat.compare_eq_lt, Nat.compare_eq_eq, compareLetters_eq_lt]

end Label

/-! ### Weights -/

/-- Whether the number is kept without rounding. -/
def Scalar.isExact : Scalar → Bool
  | .real _ => false
  | _ => true

theorem Scalar.order_eq_iff {s : Scalar} (exact : s.isExact = true) (t : Scalar) :
    s.order t = .eq ↔ s = t := by
  by_cases ranks : s.rank = t.rank
  · cases s <;> cases t <;> first | (cases ranks; done) | skip
    case boolean.boolean a b =>
      exact (Weights.Lawful.order_eq_iff a b).trans (by rw [boolean.injEq])
    case integer.integer m n =>
      exact (Weights.Lawful.order_eq_iff m n).trans (by rw [integer.injEq])
    case rational.rational p q =>
      exact (Weights.Lawful.order_eq_iff p q).trans (by rw [rational.injEq])
    case real.real x y => cases exact
    case tropical.tropical m n =>
      let place (n : Option Int) : Tropical .min := .ofValue n
      refine (Weights.Lawful.order_eq_iff (place m) (place n)).trans ?_
      cases m <;> cases n <;> simp [place, Tropical.ofValue]
  · rw [order_of_rank_ne ranks, Nat.compare_eq_eq]
    exact iff_of_false ranks fun same => ranks (congrArg rank same)

namespace AnyWeight

mutual

theorem weights_foldExp {α : Type} (scalar : Scalar → α) (expression : Exp α → α)
    (e : Exp AnyWeight) :
    (foldExp scalar expression e).weights = e.weights.map (fold scalar expression) := by
  cases e with
  | zero | one | atom _ => rfl
  | sum es | prod es | conjunction es | shuffle es | tuple es =>
    exact weightsOf_foldExps scalar expression es
  | star e | transposition e | complement e => exact weights_foldExp scalar expression e
  | lweight w e | rweight e w =>
    exact congrArg (fold scalar expression w :: ·) (weights_foldExp scalar expression e)

theorem weightsOf_foldExps {α : Type} (scalar : Scalar → α) (expression : Exp α → α)
    (es : List (Exp AnyWeight)) :
    Exp.weightsOf (foldExps scalar expression es) =
      (Exp.weightsOf es).map (fold scalar expression) := by
  match es with
  | [] => rfl
  | e :: es =>
    rw [foldExps, Exp.weightsOf, Exp.weightsOf, List.map_append,
      weights_foldExp scalar expression e, weightsOf_foldExps scalar expression es]

end

/-- Whether no real number is inside, at any depth. -/
def isExact : AnyWeight → Bool := fold Scalar.isExact fun e => e.weights.all id

theorem isExact_expression (e : Exp AnyWeight) :
    (expression e).isExact = e.weights.all isExact := by
  change (foldExp _ _ e).weights.all id = _
  rw [weights_foldExp, List.all_map]
  rfl

theorem order_eq_iff {v : AnyWeight} (exact : v.isExact = true) (w : AnyWeight) :
    v.order w = .eq ↔ v = w := by
  induction v using induct generalizing w with
  | scalar s =>
    cases w with
    | scalar t => exact (Scalar.order_eq_iff exact t).trans (by rw [AnyWeight.scalar.injEq])
    | expression f => exact iff_of_false nofun nofun
  | expression e same =>
    cases w with
    | scalar t => exact iff_of_false nofun nofun
    | expression f =>
      rw [isExact_expression, List.all_eq_true] at exact
      rw [order_expression, AnyWeight.expression.injEq]
      exact Exp.orderBy_eq_iff fun v used w => same v used (exact v used) w

end AnyWeight

namespace WeightSet

variable {ws : WeightSet}

/-- Whether no real number is inside the weight. -/
def IsExact (ws : WeightSet) (w : ws.Carrier) : Prop := (ws.hold w).isExact = true

theorem isExact_of_exact [exact : ws.Exact] (w : ws.Carrier) : ws.IsExact w := by
  cases exact <;> rfl

theorem hold_inj {v w : ws.Carrier} : ws.hold v = ws.hold w ↔ v = w := by
  constructor
  · intro same
    have taken := congrArg ws.take? same
    rw [take?_hold, take?_hold] at taken
    exact Option.some.inj taken
  · exact congrArg ws.hold

/-- The weights of a set are in the order of all weights. -/
theorem order_hold (v w : ws.Carrier) : (ws.hold v).order (ws.hold w) = Weights.order v w := by
  cases ws with
  | boolean | integer | rational | real => rfl
  | tropical e => cases v <;> cases w <;> rfl
  | expressions s inner => exact AnyWeight.order_expression v w

theorem order_eq_iff {v : ws.Carrier} (exact : ws.IsExact v) (w : ws.Carrier) :
    Weights.order v w = .eq ↔ v = w := by
  rw [← order_hold, AnyWeight.order_eq_iff exact, hold_inj]

end WeightSet

/-- The orders of keys are total: that of labels, that of weights of any kind, and that of
expressions over weights of any kind or over those of one set. -/
theorem orders_total :
    TotalOn (fun _ => True) Label.order ∧
    (∀ u v, (Label.word u).order (.word v) = .lt ↔
      u.length < v.length ∨ u.length = v.length ∧ u < v) ∧
    TotalOn (fun w => w.isExact = true) AnyWeight.order ∧
    TotalOn (fun e => ∀ w ∈ e.weights, w.isExact = true) (Exp.orderBy AnyWeight.order) ∧
    ∀ ws : WeightSet, (ws.Exact → ∀ w, ws.IsExact w) ∧
      TotalOn ws.IsExact (Weights.order : ws.Carrier → ws.Carrier → Ordering) ∧
      TotalOn (fun e => ∀ w ∈ e.weights, ws.IsExact w)
        (Exp.order : Exp ws.Carrier → Exp ws.Carrier → Ordering) := by
  have labels : Std.TransCmp Label.order := inferInstanceAs (Std.TransOrd Label)
  refine ⟨.of_transCmp ?_, fun u v => Label.order_word_lt, .of_transCmp ?_, .of_transCmp ?_,
    fun ws => ⟨?_, .of_transCmp ?_, .of_transCmp ?_⟩⟩
  · exact fun a _ b => Label.order_eq_iff
  · exact fun v exact w => AnyWeight.order_eq_iff exact w
  · exact fun e exact f =>
      Exp.orderBy_eq_iff fun v used w => AnyWeight.order_eq_iff (exact v used) w
  · exact fun _ w => WeightSet.isExact_of_exact w
  · exact fun v exact w => WeightSet.order_eq_iff exact w
  · exact fun e exact f =>
      Exp.orderBy_eq_iff fun v used w => WeightSet.order_eq_iff (exact v used) w

end WeightedAutomata
