import WeightedAutomata.Expression.Canonical
import WeightedAutomata.Expression.Printer
import WeightedAutomata.Expression.Rebuild
import WeightedAutomata.Proofs.Text.Reading

/-! What the readers of the canonical dialect make of texts of each strength. -/

namespace WeightedAutomata.ExpressionSet

open Text Text.Reader
open Exp (Strength)

variable {K : Type} [Weights K]

/-! ### Beginnings and ends -/

/-- The signs of suffixes. -/
def suffixSigns : List Char := ['*', '?', '\x7b', 'ᶜ', 'ᵗ']

/-- The signs that open a weight. -/
def weightSigns : List Char := ['<', '⟨']

/-- Whether a text of this strength ends before the character. -/
def Closes : Strength → Char → Prop
  | .sum, c => c = ')'
  | .tuple, c => c = '+' ∨ c = ')'
  | .conjunction, c => c = '|' ∨ c = '+' ∨ c = ')'
  | .shuffle, c => c = '&' ∨ c = '|' ∨ c = '+' ∨ c = ')'
  | .product, c => c = ':' ∨ c = '&' ∨ c = '|' ∨ c = '+' ∨ c = ')'
  | .weight, c => c ∉ suffixSigns ∧ c ∉ weightSigns
  | .suffix, _ | .leaf, _ => True

/-- Whether a text of this strength ends before `rest`. -/
def Follows (strength : Strength) (rest : List Char) : Prop := ∀ c ∈ rest.head?, Closes strength c

/-- Whether an operand begins with the character. -/
def Begins (c : Char) : Prop := isBlank c = false ∧ c ∉ nonOperands ∧ c ≠ '.'

/-- Whether the text begins like an operand. -/
def Opens (t : List Char) : Prop := ∃ c cs, t = c :: cs ∧ Begins c

/-- Whether no weight opens here. -/
def Plain (t : List Char) : Prop := ∀ c ∈ t.head?, c ∉ weightSigns

/-- Whether no suffix stands here. -/
def Unsuffixed (t : List Char) : Prop := ∀ c ∈ t.head?, c ∉ suffixSigns

variable {rest t cs : List Char}

theorem follows_nil (strength : Strength) : Follows strength [] :=
  fun _ member => by cases member

theorem follows_cons {strength : Strength} {c : Char} (closes : Closes strength c)
    (tail : List Char) : Follows strength (c :: tail) :=
  fun _ same => Option.some.inj same ▸ closes

/-- What ends a text before a looser sign is a loose sign. -/
theorem Follows.product {strength : Strength} (loose : strength.level ≤ 4)
    (follows : Follows strength rest) : Follows .product rest := by
  intro c member
  have closes := follows c member
  cases strength with
  | sum => exact .inr (.inr (.inr (.inr closes)))
  | tuple => exact .inr (.inr (.inr closes))
  | conjunction => exact .inr (.inr closes)
  | shuffle => exact .inr closes
  | product => exact closes
  | weight | suffix | leaf => exact absurd loose (by decide)

theorem Follows.weight (follows : Follows .product rest) : Follows .weight rest := by
  intro c member
  rcases follows c member with rfl | rfl | rfl | rfl | rfl <;> exact ⟨by decide, by decide⟩

theorem Follows.solid (follows : Follows .product rest) : Solid rest := by
  intro c member
  rcases follows c member with rfl | rfl | rfl | rfl | rfl <;> decide

theorem Follows.unsuffixed (follows : Follows .weight rest) : Unsuffixed rest :=
  fun c member => (follows c member).1

theorem Follows.plain (follows : Follows .weight rest) : Plain rest :=
  fun c member => (follows c member).2

theorem Follows.cases {strength : Strength} (follows : Follows strength rest) :
    rest = [] ∨ ∃ c tail, rest = c :: tail ∧ Closes strength c := by
  cases rest with
  | nil => exact .inl rfl
  | cons c tail => exact .inr ⟨c, tail, rfl, follows c rfl⟩

theorem Opens.append (opens : Opens t) (rest : List Char) : Opens (t ++ rest) := by
  obtain ⟨c, cs, rfl, begins⟩ := opens
  exact ⟨c, cs ++ rest, rfl, begins⟩

theorem Opens.solid (opens : Opens t) : Solid t := by
  obtain ⟨c, cs, rfl, solid, _⟩ := opens
  exact fun d same => Option.some.inj same ▸ solid

theorem Opens.startsOperand (opens : Opens t) : startsOperand t = true := by
  obtain ⟨c, cs, rfl, _, operand, _⟩ := opens
  simpa [ExpressionSet.startsOperand] using operand

theorem Opens.length_pos (opens : Opens t) : 0 < t.length := by
  obtain ⟨c, cs, rfl, _⟩ := opens
  exact Nat.succ_pos _

theorem Opens.plain_append (opens : Opens t) (plain : Plain t) (rest : List Char) :
    Plain (t ++ rest) := by
  obtain ⟨c, cs, rfl, _⟩ := opens
  exact plain

/-! ### Where loops stop -/

variable {s : ExpressionSet} {acc : Exp K} {fuel pos : Nat}

theorem readTerms_stop (follows : Follows .tuple rest) (plus : '+' ∉ rest.head?) :
    readTerms (fuel + 1) s acc ⟨pos, rest⟩ = .ok acc ⟨pos, rest⟩ := by
  rw [readTerms, skipBlanks_bind (follows.product (by decide)).solid]
  rcases follows.cases with rfl | ⟨c, tail, rfl, rfl | rfl⟩
  · rfl
  · exact absurd rfl plus
  · rfl

theorem readTerms_bar (tail : List Char) :
    readTerms (fuel + 1) s acc ⟨pos, '|' :: tail⟩ = .ok acc ⟨pos, '|' :: tail⟩ := by
  have solid : Solid ('|' :: tail) := fun _ same => Option.some.inj same ▸ by decide
  rw [readTerms, skipBlanks_bind solid]
  rfl

theorem readConjuncts_stop (follows : Follows .conjunction rest) :
    readConjuncts (fuel + 1) s acc ⟨pos, rest⟩ = .ok acc ⟨pos, rest⟩ := by
  rw [readConjuncts, skipBlanks_bind (follows.product (by decide)).solid]
  rcases follows.cases with rfl | ⟨c, tail, rfl, rfl | rfl | rfl⟩ <;> rfl

theorem readShuffled_stop (follows : Follows .shuffle rest) :
    readShuffled (fuel + 1) s acc ⟨pos, rest⟩ = .ok acc ⟨pos, rest⟩ := by
  rw [readShuffled, skipBlanks_bind (follows.product (by decide)).solid]
  rcases follows.cases with rfl | ⟨c, tail, rfl, rfl | rfl | rfl | rfl⟩ <;> rfl

theorem readFactors_stop (follows : Follows .product rest) :
    readFactors (fuel + 1) s acc ⟨pos, rest⟩ = .ok acc ⟨pos, rest⟩ := by
  rw [readFactors, skipBlanks_bind follows.solid]
  rcases follows.cases with rfl | ⟨c, tail, rfl, rfl | rfl | rfl | rfl | rfl⟩ <;> rfl

theorem suffixes_stop (unsuffixed : Unsuffixed rest) (n : Nat) :
    suffixes s n acc ⟨pos, rest⟩ = .ok acc ⟨pos, rest⟩ := by
  cases n with
  | zero => rfl
  | succ n =>
    cases rest with
    | nil => rfl
    | cons c tail =>
      have none := unsuffixed c rfl
      simp only [suffixSigns, List.mem_cons, List.not_mem_nil, or_false, not_or] at none
      obtain ⟨star, option, brace, complement, transposition⟩ := none
      have start : position ⟨pos, c :: tail⟩ = .ok pos ⟨pos, c :: tail⟩ := rfl
      have front : peek ⟨pos, c :: tail⟩ = .ok (some c) ⟨pos, c :: tail⟩ := rfl
      rw [suffixes, bind_ok start, bind_ok front]
      refine congrFun (?_ : _ = (pure acc : Reader (Exp K))) _
      split
      · next same => exact absurd (Option.some.inj same) star
      · next same => exact absurd (Option.some.inj same) option
      · next same => exact absurd (Option.some.inj same) complement
      · next same => exact absurd (Option.some.inj same) transposition
      · next same => exact absurd (Option.some.inj same) brace
      · rfl

theorem weightClosing?_of_plain (plain : Plain rest) : weightClosing? rest = none := by
  cases rest with
  | nil => rfl
  | cons c tail =>
    have none := plain c rfl
    simp only [weightSigns, List.mem_cons, List.not_mem_nil, or_false, not_or] at none
    unfold weightClosing?
    split
    · next same => exact absurd (List.cons.inj same).1 none.1
    · next same => exact absurd (List.cons.inj same).1 none.2
    · rfl

theorem rightWeights_stop (plain : Plain rest) (n : Nat) :
    rightWeights s n acc ⟨pos, rest⟩ = .ok acc ⟨pos, rest⟩ := by
  cases n with
  | zero => rfl
  | succ n =>
    have here : (get : Reader Cursor) ⟨pos, rest⟩ = .ok ⟨pos, rest⟩ ⟨pos, rest⟩ := rfl
    rw [rightWeights, bind_ok here]
    dsimp only
    rw [weightClosing?_of_plain plain]
    rfl

theorem leftWeights_stop (plain : Plain rest) (n : Nat) :
    (leftWeights n : Reader (List K)) ⟨pos, rest⟩ = .ok [] ⟨pos, rest⟩ := by
  cases n with
  | zero => rfl
  | succ n =>
    have here : (get : Reader Cursor) ⟨pos, rest⟩ = .ok ⟨pos, rest⟩ ⟨pos, rest⟩ := rfl
    rw [leftWeights, bind_ok here]
    dsimp only
    rw [weightClosing?_of_plain plain]
    rfl

end WeightedAutomata.ExpressionSet
