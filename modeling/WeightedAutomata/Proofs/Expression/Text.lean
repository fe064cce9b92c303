import WeightedAutomata.Expression.Printer

/-! The characters of the texts of expressions, node by node. -/

namespace WeightedAutomata.Exp

variable {K : Type} {style : Style}

/-- The strength that an operand needs in front of a weight. -/
def rightStrength : Exp K → Strength
  | lweight _ _ => .suffix
  | _ => .weight

theorem rightStrength_cases (e : Exp K) :
    e.rightStrength = .weight ∨ e.rightStrength = .suffix := by
  cases e with
  | lweight => exact .inr rfl
  | _ => exact .inl rfl

theorem rightStrength_le (e : Exp K) : e.rightStrength.level ≤ 6 := by
  rcases rightStrength_cases e with same | same <;> rw [same] <;> decide

theorem not_rightStrength_le {e : Exp K} {least : Strength} (loose : least.level ≤ 4) :
    ¬ e.rightStrength.level ≤ least.level := by
  intro high
  have low : e.rightStrength.level ≤ 4 := Nat.le_trans high loose
  rcases rightStrength_cases e with same | same <;> rw [same] at low <;> exact absurd low (by decide)

variable [Weights K]

attribute [local simp] formatWith

/-- The text of an expression as a list of characters. -/
def chars (style : Style) (e : Exp K) : List Char := (e.format style).toList

/-- The text of an expression where it has to hold together at least so much. -/
def guardedChars (style : Style) (e : Exp K) (least : Strength) : List Char :=
  if e.strength.level < least.level then '(' :: (e.chars style ++ [')']) else e.chars style

theorem toList_guarded (e : Exp K) (least : Strength) :
    (guarded e least (formatWith (Weights.format style) style e)).toList =
      e.guardedChars style least := by
  unfold guarded guardedChars
  split
  · rw [String.toList_append, String.toList_append]
    rfl
  · rfl

/-! ### Operands -/

/-- The sign between the operands of a variadic node. -/
def sign : Kind → Char
  | .sum => '+'
  | .tuple => '|'
  | .conjunction => '&'
  | _ => ':'

theorem toList_separator (kind : Kind) : (separator kind).toList = [sign kind] := by
  cases kind <;> decide +kernel

/-- The operands but the first, each after the sign. -/
def laterChars (style : Style) (kind : Kind) (es : List (Exp K)) : List Char :=
  (es.map (·.guardedChars style (operandStrength kind))).flatMap ([sign kind] ++ ·)

theorem toList_formatOperands (kind : Kind) (e : Exp K) (es : List (Exp K)) :
    (formatOperands (Weights.format style) style kind (e :: es)).toList =
      e.guardedChars style (operandStrength kind) ++ laterChars style kind es := by
  induction es generalizing e with
  | nil =>
    rw [formatOperands, toList_guarded]
    exact (List.append_nil _).symm
  | cons f es ih =>
    rw [formatOperands, String.toList_append, String.toList_append, toList_guarded,
      toList_separator, ih, List.append_assoc]
    rfl

theorem chars_sum (e : Exp K) (es : List (Exp K)) : (sum (e :: es)).chars style =
    e.guardedChars style .tuple ++ laterChars style .sum es := by
  unfold chars format
  rw [formatWith]
  exact toList_formatOperands .sum e es

theorem chars_tuple (e : Exp K) (es : List (Exp K)) : (tuple (e :: es)).chars style =
    e.guardedChars style .conjunction ++ laterChars style .tuple es := by
  unfold chars format
  rw [formatWith]
  exact toList_formatOperands .tuple e es

theorem chars_conjunction (e : Exp K) (es : List (Exp K)) : (conjunction (e :: es)).chars style =
    e.guardedChars style .shuffle ++ laterChars style .conjunction es := by
  unfold chars format
  rw [formatWith]
  exact toList_formatOperands .conjunction e es

theorem chars_shuffle (e : Exp K) (es : List (Exp K)) : (shuffle (e :: es)).chars style =
    e.guardedChars style .product ++ laterChars style .shuffle es := by
  unfold chars format
  rw [formatWith]
  exact toList_formatOperands .shuffle e es

/-- The factors of a product, `isFirst` telling whether they are all of them. -/
def factorChars (style : Style) (isFirst : Bool) : List (Exp K) → List Char
  | [] => []
  | e :: es => e.guardedChars style (factorStrength isFirst es.isEmpty e) ++
      factorChars style false es

theorem chars_prod (es : List (Exp K)) :
    (prod es).chars style = factorChars style true es := by
  have factors (isFirst : Bool) :
      (formatFactors (Weights.format style) style isFirst es).toList =
        factorChars style isFirst es := by
    induction es generalizing isFirst with
    | nil =>
      rw [formatFactors]
      rfl
    | cons e es ih =>
      rw [formatFactors, String.toList_append, toList_guarded, ih]
      rfl
  unfold chars format
  rw [formatWith]
  exact factors true

/-! ### Weights and suffixes -/

/-- The signs around a weight. -/
def opening : Style → Char
  | .ascii => '<'
  | .symbols => '⟨'

def closing : Style → Char
  | .ascii => '>'
  | .symbols => '⟩'

/-- A weight in its brackets. -/
def weightChars (style : Style) (w : K) : List Char :=
  opening style :: ((Weights.format style w).toList ++ [closing style])

theorem toList_inBrackets (w : K) :
    (inBrackets style (Weights.format style w)).toList = weightChars style w := by
  cases style <;> simp [inBrackets, weightChars, opening, closing]

theorem chars_lweight (w : K) (e : Exp K) : (lweight w e).chars style =
    weightChars style w ++ e.guardedChars style .weight := by
  simp [chars, format, toList_inBrackets, toList_guarded]

theorem chars_rweight (e : Exp K) (w : K) : (rweight e w).chars style =
    e.guardedChars style e.rightStrength ++ weightChars style w := by
  have text : (rweight e w).format style = guarded e e.rightStrength
      (formatWith (Weights.format style) style e) ++
        inBrackets style (Weights.format style w) := by
    cases e <;> rfl
  unfold chars
  rw [text, String.toList_append, toList_inBrackets, toList_guarded]

theorem chars_star (e : Exp K) : (star e).chars style = e.guardedChars style .suffix ++ ['*'] := by
  simp [chars, format, toList_guarded]

/-- The sign of a complement. -/
def complementSign : Style → List Char
  | .ascii => ['\x7b', 'c', '\x7d']
  | .symbols => ['ᶜ']

theorem chars_complement (e : Exp K) :
    (complement e).chars style = e.guardedChars style .suffix ++ complementSign style := by
  unfold chars format
  cases style <;> rw [formatWith, String.toList_append, toList_guarded] <;> rfl

/-- The sign of a transposition. -/
def transpositionSign : Style → List Char
  | .ascii => ['\x7b', 'T', '\x7d']
  | .symbols => ['ᵗ']

theorem chars_transposition (e : Exp K) :
    (transposition e).chars style = e.guardedChars style .suffix ++ transpositionSign style := by
  unfold chars format
  cases style <;> rw [formatWith, String.toList_append, toList_guarded] <;> rfl

/-! ### Leaves -/

/-- The sign of zero. -/
def zeroSign : Style → List Char
  | .ascii => ['\\', 'z']
  | .symbols => ['∅']

theorem chars_zero : (zero : Exp K).chars style = zeroSign style := by
  unfold chars format
  cases style <;> rw [formatWith] <;> decide +kernel

/-- The sign of the empty word. -/
def oneSign : Style → List Char
  | .ascii => ['\\', 'e']
  | .symbols => ['ε']

theorem chars_one : (one : Exp K).chars style = oneSign style := by
  unfold chars format
  cases style <;> rw [formatWith] <;> decide +kernel

theorem chars_atom_one : (atom .one : Exp K).chars style = oneSign style := by
  unfold chars format
  cases style <;> rw [formatWith, labelText] <;> decide +kernel

theorem chars_atom_letter (c : Char) :
    (atom (.letter c) : Exp K).chars style = Letter.escape c := by
  unfold chars format
  rw [formatWith, labelText, Label.text, String.toList_ofList]
  all_goals simp

/-- A label of several tapes is written like the tuple of the labels of the tapes. -/
theorem chars_atom_tuple {labels : List Label}
    (leaves : ∀ l ∈ labels, (atom l : Exp K).strength = .leaf) :
    (atom (.tuple labels) : Exp K).chars style =
      (tuple (labels.map atom) : Exp K).chars style := by
  have tapes : tapeTexts style labels =
      formatOperands (Weights.format (K := K) style) style .tuple (labels.map atom) := by
    induction labels with
    | nil => rw [tapeTexts, List.map_nil, formatOperands]
    | cons l labels ih =>
      obtain ⟨first, others⟩ := List.forall_mem_cons.mp leaves
      have bare : guarded (atom l : Exp K) (operandStrength .tuple)
          (formatWith (Weights.format (K := K) style) style (atom l)) = labelText style l := by
        unfold guarded
        rw [first, formatWith]
        exact if_neg (by decide)
      cases labels with
      | nil => rw [tapeTexts, List.map_singleton, formatOperands, bare]
      | cons m rest =>
        rw [tapeTexts, ih others, ← bare]
        rfl
  unfold chars format
  rw [formatWith, formatWith, labelText, tapes]

end WeightedAutomata.Exp
