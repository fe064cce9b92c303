import Mathlib.Algebra.Field.Rat
import WeightedAutomata.Weights.Exact
import WeightedAutomata.Weights.Tropical

/-! The texts of weights are read back as the weights. -/

namespace WeightedAutomata

namespace Text

theorem trim_of_solid {cs : List Char} (solid : ∀ c ∈ cs, isBlank c = false) : trim cs = cs := by
  apply trim_of_solid_ends
  · exact fun c first => solid c (List.mem_of_mem_head? first)
  · exact fun c last => solid c (List.mem_of_mem_getLast? last)

theorem splitOnce_append {mark : Char} {front : List Char} (back : List Char)
    (absent : mark ∉ front) : splitOnce mark (front ++ mark :: back) = some (front, back) := by
  induction front with
  | nil => simp [splitOnce]
  | cons c front ih =>
    have differ : (c == mark) = false := by
      apply beq_eq_false_iff_ne.mpr
      rintro rfl
      exact absent List.mem_cons_self
    have tail : mark ∉ front := fun member => absent (List.mem_cons_of_mem c member)
    simp [splitOnce, differ, ih tail]

theorem splitOnce_of_not_mem {mark : Char} {cs : List Char} (absent : mark ∉ cs) :
    splitOnce mark cs = none := by
  cases split : splitOnce mark cs with
  | none => rfl
  | some parts =>
    rw [splitOnce_eq_some split] at absent
    exact absurd (List.mem_append_right _ List.mem_cons_self) absent

/-- A character of a decimal numeral with a sign. -/
def IsNumeral (c : Char) : Prop := c = '-' ∨ isDigit c = true

theorem isDigit_of_mem_toDigits {n : Nat} {c : Char} (member : c ∈ Nat.toDigits 10 n) :
    isDigit c = true := by
  have digit : c.isDigit = true := Nat.isDigit_of_mem_toDigits (by decide) (by decide) member
  obtain ⟨low, high⟩ : 48 ≤ c.val.toNat ∧ c.val.toNat ≤ 57 := by
    simpa [Char.isDigit, UInt32.le_iff_toNat_le] using digit
  have bounds : 48 ≤ c.toNat ∧ c.toNat ≤ 57 := ⟨low, high⟩
  simp [isDigit, bounds]

theorem all_isDigit_toDigits (n : Nat) : (Nat.toDigits 10 n).all isDigit = true :=
  List.all_eq_true.mpr fun _ member => isDigit_of_mem_toDigits member

theorem decimalValue_toDigits (n : Nat) : decimalValue (Nat.toDigits 10 n) = n := by
  have digits : (Nat.toDigits 10 n).filter isDigit = Nat.toDigits 10 n :=
    List.filter_eq_self.mpr fun _ member => isDigit_of_mem_toDigits member
  unfold decimalValue
  rw [digits]
  exact Nat.ofDigitChars_ten_toDigits

theorem toList_toString (n : Int) :
    (toString n).toList = if n < 0 then '-' :: Nat.toDigits 10 n.natAbs
      else Nat.toDigits 10 n.natAbs := by
  cases n with
  | ofNat n =>
    have nonnegative : ¬ Int.ofNat n < 0 := Int.not_lt.mpr (Int.natCast_nonneg n)
    rw [if_neg nonnegative]
    exact Nat.toList_repr
  | negSucc n =>
    rw [if_pos (Int.negSucc_lt_zero n)]
    change ("-" ++ Nat.repr (n + 1)).toList = _
    rw [String.toList_append, Nat.toList_repr]
    rfl

theorem isNumeral_of_mem_toString {n : Int} {c : Char} (member : c ∈ (toString n).toList) :
    IsNumeral c := by
  rw [toList_toString] at member
  split at member
  · rcases List.mem_cons.mp member with sign | digit
    · exact .inl sign
    · exact .inr (isDigit_of_mem_toDigits digit)
  · exact .inr (isDigit_of_mem_toDigits member)

theorem splitSign_of_isDigit {c : Char} (digit : isDigit c = true) (cs : List Char) :
    splitSign (c :: cs) = (false, c :: cs) := by
  unfold splitSign
  split
  · next same =>
    rw [(List.cons.inj same).1] at digit
    exact absurd digit (by decide)
  · next same =>
    rw [(List.cons.inj same).1] at digit
    exact absurd digit (by decide)
  · rfl

theorem splitSign_toString (n : Int) :
    splitSign (toString n).toList = (decide (n < 0), Nat.toDigits 10 n.natAbs) := by
  rw [toList_toString]
  by_cases negative : n < 0
  · rw [if_pos negative, decide_eq_true negative]
    rfl
  · rw [if_neg negative, decide_eq_false negative]
    cases digits : Nat.toDigits 10 n.natAbs with
    | nil => exact absurd digits Nat.toDigits_ne_nil
    | cons c cs =>
      apply splitSign_of_isDigit
      apply isDigit_of_mem_toDigits (n := n.natAbs)
      rw [digits]
      exact List.mem_cons_self

theorem signed_natAbs (n : Int) : signed (decide (n < 0)) n.natAbs = n := by
  unfold signed
  by_cases negative : n < 0
  · rw [if_pos (decide_eq_true negative)]
    omega
  · rw [if_neg (by simpa using negative)]
    omega

theorem head?_toDigits_ne (n : Nat) : ((Nat.toDigits 10 n).head? == some '_') = false := by
  cases digits : Nat.toDigits 10 n with
  | nil => rfl
  | cons c cs =>
    apply beq_eq_false_iff_ne.mpr
    intro same
    have member : '_' ∈ Nat.toDigits 10 n := by
      rw [digits, ← Option.some.inj same]
      exact List.mem_cons_self
    exact Nat.underscore_not_in_toDigits member

theorem integer?_toString (n : Int) : integer? (toString n).toList = some n := by
  have digits : ((Nat.toDigits 10 n.natAbs).all fun c => isDigit c || c == '_') = true := by
    apply List.all_eq_true.mpr
    intro c member
    rw [isDigit_of_mem_toDigits member, Bool.true_or]
  have nonempty : (Nat.toDigits 10 n.natAbs).isEmpty = false := by
    simp [List.isEmpty_eq_false_iff]
  unfold integer?
  rw [splitSign_toString]
  simp only [nonempty, head?_toDigits_ne, Bool.or_self, Bool.false_eq_true, if_false, digits,
    if_true, decimalValue_toDigits, signed_natAbs]

theorem integer64?_toString {n : Int} (low : -0x8000000000000000 ≤ n)
    (high : n < 0x8000000000000000) : integer64? (toString n).toList = some n := by
  have digits : digits? (Nat.toDigits 10 n.natAbs) = some n.natAbs := by
    have nonempty : (Nat.toDigits 10 n.natAbs).isEmpty = false := by
      simp [List.isEmpty_eq_false_iff]
    unfold digits?
    rw [nonempty, if_neg Bool.false_ne_true, if_pos (all_isDigit_toDigits _),
      decimalValue_toDigits]
  unfold integer64?
  rw [splitSign_toString]
  simp [digits, signed_natAbs, low, high]

theorem isBlank_of_isNumeral {c : Char} (numeral : IsNumeral c) : isBlank c = false := by
  rcases numeral with rfl | digit
  · decide
  · simp only [isDigit, Bool.and_eq_true, decide_eq_true_eq] at digit
    simp only [isBlank, Bool.or_eq_false_iff, Bool.and_eq_false_iff, decide_eq_false_iff_not,
      beq_eq_false_iff_ne]
    omega

theorem trim_toString (n : Int) : trim (toString n).toList = (toString n).toList :=
  trim_of_solid fun _ member => isBlank_of_isNumeral (isNumeral_of_mem_toString member)

theorem not_mem_toString {n : Int} {c : Char} (other : ¬ IsNumeral c) :
    c ∉ (toString n).toList :=
  fun member => other (isNumeral_of_mem_toString member)

end Text

namespace Weights

/-- The signs around weights, and the one that takes their meaning away. -/
def brackets : List Char := ['<', '>', '⟨', '⟩', '\\']

/-- Weights with a text. -/
class Legible (K : Type) [Weights K] where
  /-- Whether the weight is one that can be written. -/
  Writable : K → Prop
  not_bracket {w : K} {c : Char} (style : Style) (writable : Writable w)
    (member : c ∈ (Weights.format style w).toList) : c ∉ brackets
  reads {w : K} (style : Style) (writable : Writable w) :
    Weights.parse (Weights.format style w).toList = .ok w

theorem not_bracket_of_isNumeral {c : Char} (numeral : Text.IsNumeral c) : c ∉ brackets := by
  intro member
  simp only [brackets, List.mem_cons, List.not_mem_nil, or_false] at member
  rcases member with rfl | rfl | rfl | rfl | rfl <;> revert numeral <;> unfold Text.IsNumeral <;>
    decide

/-- Integers of 64 bits. -/
def Fits64 (n : Int) : Prop := -0x8000000000000000 ≤ n ∧ n < 0x8000000000000000

end Weights

open Weights

instance : Legible Bool where
  Writable _ := True
  not_bracket {w c} _ _ member := by
    have signs : (BooleanWeight.text w).toList.all (· ∉ brackets) := by
      cases w <;> decide +kernel
    exact of_decide_eq_true (List.all_eq_true.mp signs c member)
  reads {w} _ _ := by
    change BooleanWeight.parse (BooleanWeight.text w).toList = .ok w
    cases w <;> decide +kernel

instance : Legible Int where
  Writable _ := True
  not_bracket _ _ member := not_bracket_of_isNumeral (Text.isNumeral_of_mem_toString member)
  reads {w} _ _ := by
    change IntegerWeight.parse (toString w).toList = .ok w
    unfold IntegerWeight.parse
    rw [Text.trim_toString, Text.integer?_toString]

namespace RationalWeight

theorem toList_text (q : Rat) : (text q).toList =
    if q.den = 1 then (toString q.num).toList
    else (toString q.num).toList ++ '/' :: (toString (q.den : Int)).toList := by
  unfold text
  split
  · rfl
  · rw [String.toList_append, String.toList_append, List.append_assoc]
    rfl

theorem slash_or_isNumeral {q : Rat} {c : Char} (member : c ∈ (text q).toList) :
    c = '/' ∨ Text.IsNumeral c := by
  rw [toList_text] at member
  split at member
  · exact .inr (Text.isNumeral_of_mem_toString member)
  · rcases List.mem_append.mp member with numerator | tail
    · exact .inr (Text.isNumeral_of_mem_toString numerator)
    · rcases List.mem_cons.mp tail with slash | denominator
      · exact .inl slash
      · exact .inr (Text.isNumeral_of_mem_toString denominator)

theorem trim_text (q : Rat) : Text.trim (text q).toList = (text q).toList := by
  apply Text.trim_of_solid
  intro c member
  rcases slash_or_isNumeral member with rfl | numeral
  · decide
  · exact Text.isBlank_of_isNumeral numeral

theorem parse_text (q : Rat) : parse (text q).toList = .ok q := by
  have slash : '/' ∉ (toString q.num).toList :=
    Text.not_mem_toString (by unfold Text.IsNumeral; decide)
  unfold parse
  rw [trim_text, toList_text]
  dsimp only
  by_cases whole : q.den = 1
  · have same : (q.num : Rat) = q := Rat.den_eq_one_iff q |>.mp whole
    rw [if_pos whole, Text.splitOnce_of_not_mem slash]
    have unit : Text.integer? (Text.trim ['1']) = some 1 := by decide
    simp only [Option.getD_none, Text.trim_toString, Text.integer?_toString, unit, one_ne_zero,
      if_false, Int.cast_one, div_one, same]
  · have quotient : (q.num : Rat) / ((q.den : Int) : Rat) = q := Rat.num_div_den q
    have nonzero : ((q.den : Int) = 0) = False := by simp [q.den_nz]
    rw [if_neg whole, Text.splitOnce_append _ slash]
    simp only [Option.getD_some, Text.trim_toString, Text.integer?_toString, nonzero, if_false,
      quotient]

end RationalWeight

instance : Legible Rat where
  Writable _ := True
  not_bracket {w c} _ _ member := by
    rcases RationalWeight.slash_or_isNumeral member with rfl | numeral
    · decide
    · exact not_bracket_of_isNumeral numeral
  reads {w} _ _ := RationalWeight.parse_text w

namespace Tropical

variable {e : Extremum}

/-- Whether the text of the weight names it: the infinite element of the maximum is written like the
one of the minimum. -/
def Writable (e : Extremum) : Tropical e → Prop
  | infinite => e = .min
  | finite n => Fits64 n

theorem isNumeral_or_eq_o {w : Tropical e} {c : Char} (member : c ∈ w.text.toList) :
    c = 'o' ∨ Text.IsNumeral c := by
  cases w with
  | infinite =>
    have letters : "oo".toList.all (· = 'o') := by decide +kernel
    exact .inl (of_decide_eq_true (List.all_eq_true.mp letters c member))
  | finite n => exact .inr (Text.isNumeral_of_mem_toString member)

/-- A numeral is no spelling of the infinite element. -/
theorem infiniteTexts_of_integer {cs : List Char} {n : Int}
    (numeral : Text.integer64? cs = some n) :
    (infiniteTexts e).contains (String.ofList cs) = false := by
  cases found : (infiniteTexts e).contains (String.ofList cs) with
  | false => rfl
  | true =>
    have spelled : ∀ text ∈ infiniteTexts e, Text.integer64? text.toList = none := by
      cases e <;> decide
    have none := spelled _ (List.contains_iff_mem.mp found)
    rw [String.toList_ofList, numeral] at none
    cases none

theorem parse_text {w : Tropical e} (writable : w.Writable e) :
    parse w.text.toList = .ok w := by
  cases w with
  | infinite =>
    obtain rfl : e = .min := writable
    decide
  | finite n =>
    have reads := Text.integer64?_toString writable.1 writable.2
    change parse (toString n).toList = _
    unfold parse
    rw [Text.trim_toString]
    dsimp only
    rw [infiniteTexts_of_integer reads, if_neg Bool.false_ne_true, reads]

/-- The maximum does not read the text of its infinite element. -/
theorem parse_text_of_infinite :
    (parse (infinite (e := .max)).text.toList : Result (Tropical .max)) =
      .error (.badWeight "tropical" ['o', 'o']) := rfl

instance : Legible (Tropical e) where
  Writable := Writable e
  not_bracket _ _ member := by
    rcases isNumeral_or_eq_o member with rfl | numeral
    · decide
    · exact not_bracket_of_isNumeral numeral
  reads _ writable := parse_text writable

end Tropical

end WeightedAutomata
