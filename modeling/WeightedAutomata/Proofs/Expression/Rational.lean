import WeightedAutomata.Proofs.Expression.Meaning

/-! Expressions made of letters by sums, products, stars and weights. -/

set_option linter.unusedSectionVars false

namespace WeightedAutomata.Exp

open scoped Weights

variable {K : Type} [Weights K] [Weights.Lawful K]
variable {alphabet : Alphabet} {ls : LabelSet} {e : Exp K} {es : List (Exp K)}

mutual

/-- Whether the expression is made of letters of the alphabet by sums, products, stars and
weights. -/
def Rational (alphabet : Alphabet) : Exp K → Prop
  | zero | one => True
  | atom l => ∃ c, l = .letter c ∧ alphabet.accepts c = true
  | sum es | prod es => es ≠ [] ∧ RationalEach alphabet es
  | star e | lweight _ e | rweight e _ => Rational alphabet e
  | _ => False

def RationalEach (alphabet : Alphabet) : List (Exp K) → Prop
  | [] => True
  | e :: es => Rational alphabet e ∧ RationalEach alphabet es

end

/-- Whether the first expression is the second one, or a part of it at any depth. -/
inductive Part : Exp K → Exp K → Prop
  | self (e : Exp K) : Part e e
  | child {e f g : Exp K} : f ∈ g.children → Part e f → Part e g

/-- Whether every expression below a star has a constant term that has a star. -/
def StarsDefined (ls : LabelSet) (e : Exp K) : Prop :=
  ∀ g, Part (star g) e → ∃ f k, meaning ls g = some f ∧ Weights.star (f []) = .ok k

theorem starsDefined_iff : StarsDefined ls e ↔
    (∀ g, e = star g → ∃ f k, meaning ls g = some f ∧ Weights.star (f []) = .ok k) ∧
      ∀ f ∈ e.children, StarsDefined ls f := by
  constructor
  · intro defined
    refine ⟨fun g same => defined g (same ▸ .self e), fun f member g part => ?_⟩
    exact defined g (.child member part)
  · rintro ⟨here, below⟩ g part
    cases part with
    | self => exact here g rfl
    | child member part => exact below _ member g part

/-- Nodes other than stars add no condition. -/
theorem starsDefined_of_not_star (other : ∀ g, e ≠ star g) :
    StarsDefined ls e ↔ ∀ f ∈ e.children, StarsDefined ls f := by
  rw [starsDefined_iff]
  exact and_iff_right fun g same => absurd same (other g)

theorem starsDefined_child (other : ∀ g, e ≠ star g) {f : Exp K} (only : e.children = [f]) :
    StarsDefined ls e ↔ StarsDefined ls f := by
  rw [starsDefined_of_not_star other, only]
  simp

/-- A node has a series if its operands have. -/
theorem isSome_node {op : WordSeries K → WordSeries K → WordSeries K} {unit : WordSeries K}
    (nonempty : es ≠ []) :
    (∃ f, (if es.isEmpty then none else (meanings ls es).map (·.foldr op unit)) = some f) ↔
      ∃ fs, meanings ls es = some fs := by
  cases es with
  | nil => exact absurd rfl nonempty
  | cons e es => simp

mutual

/-- A rational expression has a series exactly if its stars are defined. -/
theorem isSome_meaning : (e : Exp K) → e.Rational alphabet →
    ((∃ f, e.meaning (.letters alphabet) = some f) ↔ e.StarsDefined (.letters alphabet))
  | zero, _ => by simp [meaning, starsDefined_of_not_star, children]
  | one, _ => by simp [meaning, starsDefined_of_not_star, children]
  | atom l, rational => by
    obtain ⟨c, rfl, accepted⟩ := rational
    simp [meaning_atom, LabelSet.contains, LabelSet.isTuple, LabelSet.tapes?, accepted,
      starsDefined_of_not_star, children]
  | sum es, rational => by
    rw [meaning, isSome_node rational.1, isSome_meanings es rational.2,
      starsDefined_of_not_star (by simp)]
    rfl
  | prod es, rational => by
    rw [meaning, isSome_node rational.1, isSome_meanings es rational.2,
      starsDefined_of_not_star (by simp)]
    rfl
  | star e, rational => by
    have inner := isSome_meaning e rational
    rw [starsDefined_iff]
    simp only [meaning, Option.bind_eq_some_iff, WordSeries.star?_eq_some, children,
      List.forall_mem_singleton, star.injEq, forall_eq']
    constructor
    · rintro ⟨_, f, defined, k, star, rfl⟩
      exact ⟨⟨f, k, defined, star⟩, inner.mp ⟨f, defined⟩⟩
    · rintro ⟨⟨f, k, defined, star⟩, _⟩
      exact ⟨_, f, defined, k, star, rfl⟩
  | lweight w e, rational => by
    rw [starsDefined_child (by simp) rfl, ← isSome_meaning e rational, meaning]
    simp
  | rweight e w, rational => by
    rw [starsDefined_child (by simp) rfl, ← isSome_meaning e rational, meaning]
    simp

theorem isSome_meanings : (es : List (Exp K)) → RationalEach alphabet es →
    ((∃ fs, meanings (.letters alphabet) es = some fs) ↔
      ∀ e ∈ es, e.StarsDefined (.letters alphabet))
  | [], _ => by simp [meanings]
  | e :: es, rational => by
    rw [List.forall_mem_cons, ← isSome_meaning e rational.1, ← isSome_meanings es rational.2]
    simp only [meanings, Option.bind_eq_some_iff, Option.map_eq_some_iff]
    constructor
    · rintro ⟨_, f, head, fs, tail, rfl⟩
      exact ⟨⟨f, head⟩, fs, tail⟩
    · rintro ⟨⟨f, head⟩, fs, tail⟩
      exact ⟨_, f, head, fs, tail, rfl⟩

end

end WeightedAutomata.Exp
