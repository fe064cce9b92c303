import WeightedAutomata.Proofs.Expression.Strength
import WeightedAutomata.Proofs.Weights.Spelling

/-! The texts of suffixes and weights are read as the operators. -/

namespace WeightedAutomata.ExpressionSet

open Text Text.Reader

variable {K : Type} [Weights K] {s r : ExpressionSet} {e f : Exp K} {t rest : List Char}
variable {style : Style} {fails : Bool} {P : Exp K → Prop} {n pos : Nat}

/-! ### Suffixes -/

/-- A sign of which the loop of suffixes makes an operator. -/
theorem Reading.suffixed (reading : Reading s e .suffix t) {sign : List Char}
    (op : ExpressionSet → Exp K → Exp K) (present : 0 < sign.length)
    (round : ∀ r n v pos rest, suffixes r (n + 1) v ⟨pos, sign ++ rest⟩ =
      suffixes r n (op r v) ⟨pos + sign.length, rest⟩)
    (value : ∀ v, s.normalize e = .ok v → s.normalize f = .ok (op s v)) :
    Reading s f .suffix (t ++ sign) where
  opens := reading.opens.append sign
  plain _ := reading.opens.plain_append (reading.plain (Exp.rightStrength_le e)) sign
  reads {fails r} setting := by
    intro rest fuel enough
    rw [List.append_assoc] at enough ⊢
    apply (reading.reads setting _ fuel enough).step
    · rw [List.length_append]
      omega
    · intro n v pos operand long
      rw [List.length_append] at long
      refine .inl ⟨op r v, pos + sign.length, n, ?_, by omega, round r n v pos rest⟩
      intro strict
      subst strict
      have same : r = s := setting
      rw [same]
      exact value v (operand rfl)

theorem Reading.star (reading : Reading s e .suffix t) : Reading s (.star e) .suffix (t ++ ['*']) :=
  reading.suffixed ExpressionSet.star (by decide) (fun _ _ _ _ _ => rfl) fun v operand => by
    rw [normalize, operand]
    rfl

theorem Reading.transposition (reading : Reading s e .suffix t) :
    Reading s (.transposition e) .suffix (t ++ Exp.transpositionSign style) := by
  apply reading.suffixed ExpressionSet.transposition
  · cases style <;> decide
  · intro r n v pos rest
    cases style with
    | ascii => rfl
    | symbols => rfl
  · intro v operand
    rw [normalize, operand]
    rfl

/-- Complements need Boolean weights, whatever set they are read in. -/
theorem Reading.complement (boolean : Weights.isBoolean K = true)
    (reading : Reading s e .suffix t) :
    Reading s (.complement e) .suffix (t ++ Exp.complementSign style) := by
  have done (r : ExpressionSet) (v : Exp K) : r.complement v = .ok (r.complementNode v) := by
    unfold ExpressionSet.complement
    rw [if_pos boolean]
  apply reading.suffixed ExpressionSet.complementNode
  · cases style <;> decide
  · intro r n v pos rest
    cases style with
    | ascii =>
      change (do suffixes r n (← lift (r.complement v)) : Reader (Exp K)) ⟨pos + 3, rest⟩ = _
      rw [done]
      rfl
    | symbols =>
      change (do suffixes r n (← lift (r.complement v)) : Reader (Exp K)) ⟨pos + 1, rest⟩ = _
      rw [done]
      rfl
  · intro v operand
    rw [normalize, operand]
    exact done s v

/-! ### Weights -/

theorem weightClosing?_weightChars (w : K) (rest : List Char) :
    weightClosing? (Exp.weightChars style w ++ rest) =
      some (Exp.opening style, Exp.closing style) := by
  cases style <;> rfl

theorem opens_weightChars (style : Style) (w : K) : Opens (Exp.weightChars style w) := by
  cases style <;> exact ⟨_, _, rfl, by decide, by decide, by decide⟩

variable [Weights.Legible K] {w : K}

open Weights (Legible)

theorem bracketedWeight_weightChars (style : Style) (writable : Legible.Writable w) (pos : Nat)
    (rest : List Char) : ∃ stop, (bracketedWeight (Exp.opening style) (Exp.closing style) :
      Reader K) ⟨pos, Exp.weightChars style w ++ rest⟩ = .ok w ⟨stop, rest⟩ := by
  have known : Exp.opening style ∈ Weights.brackets ∧ Exp.closing style ∈ Weights.brackets ∧
      Exp.closing style ≠ Exp.opening style ∧ Exp.closing style ≠ '\\' := by
    cases style <;> decide
  obtain ⟨opening, closing, differ, escape⟩ := known
  have plain : ∀ c ∈ (Weights.format style w).toList,
      c ≠ Exp.opening style ∧ c ≠ Exp.closing style ∧ c ≠ '\\' := by
    intro c member
    have free := Legible.not_bracket style writable member
    exact ⟨fun same => free (same ▸ opening), fun same => free (same ▸ closing),
      fun same => free (same ▸ by decide)⟩
  have body := delimited_append differ escape plain (pos + 1) rest
  have text : Exp.weightChars style w ++ rest =
      Exp.opening style :: ((Weights.format style w).toList ++ Exp.closing style :: rest) := by
    unfold Exp.weightChars
    rw [List.cons_append, List.append_assoc]
    rfl
  rw [text]
  unfold bracketedWeight
  change ∃ stop, (do
    let body ← delimited (Exp.opening style) (Exp.closing style)
    lift ((Weights.parse body).shift (pos + 1)) : Reader K)
      ⟨pos + 1, (Weights.format style w).toList ++ Exp.closing style :: rest⟩ = _
  rw [bind_ok body, Legible.reads style writable]
  exact ⟨_, rfl⟩

theorem rightWeights_weightChars (style : Style) (writable : Legible.Writable w) (v : Exp K)
    (n pos : Nat)
    (rest : List Char) : ∃ stop, rightWeights r (n + 1) v ⟨pos, Exp.weightChars style w ++ rest⟩ =
      rightWeights r n (r.rweight v w) ⟨stop, rest⟩ := by
  obtain ⟨stop, weight⟩ := bracketedWeight_weightChars style writable pos rest
  refine ⟨stop, ?_⟩
  have here (c : Cursor) : (get : Reader Cursor) c = .ok c c := rfl
  rw [rightWeights, bind_ok (here _)]
  dsimp only
  rw [weightClosing?_weightChars]
  exact bind_ok weight

/-- A weight on the left of an operand is read before all else and applied after it. -/
theorem readOperand_weightChars (style : Style) (writable : Legible.Writable w) (solid : Solid rest)
    (fuel n pos : Nat) : ∃ stop, readOperand fuel r (n + 1) ⟨pos, Exp.weightChars style w ++ rest⟩ =
      (do return r.lweight w (← readOperand fuel r n)) ⟨stop, rest⟩ := by
  obtain ⟨stop, weight⟩ := bracketedWeight_weightChars style writable pos rest
  refine ⟨stop, ?_⟩
  have lefts : (leftWeights (n + 1) : Reader (List K)) ⟨pos, Exp.weightChars style w ++ rest⟩ =
      (do return w :: (← leftWeights n)) ⟨stop, rest⟩ := by
    have here (c : Cursor) : (get : Reader Cursor) c = .ok c c := rfl
    rw [leftWeights, bind_ok (here _)]
    dsimp only
    rw [weightClosing?_weightChars]
    exact (bind_ok weight).trans (skipBlanks_bind solid _ _)
  unfold readOperand
  rw [bind_congr lefts]
  simp only [bind_assoc, pure_bind, List.foldr_cons]

theorem Reading.lweight (writable : Legible.Writable w) (reading : Reading s e .weight t) :
    Reading s (.lweight w e) .weight (Exp.weightChars style w ++ t) where
  opens := (opens_weightChars style w).append t
  plain tight := absurd (show 6 ≤ 5 from tight) (by decide)
  reads {fails r} setting := by
    constructor
    · intro rest fuel n follows enough long
      rw [List.append_assoc, List.length_append] at enough long
      have shorter := (opens_weightChars style w).length_pos
      obtain ⟨n, rfl⟩ : ∃ m, n = m + 1 := ⟨n - 1, by omega⟩
      have operand := (reading.reads setting).1 rest fuel n follows (by omega) (by omega)
      intro pos
      obtain ⟨stop, read⟩ := readOperand_weightChars (r := r) style writable
        (reading.opens.append rest).solid fuel n pos
      rw [List.append_assoc, read]
      refine operand.bind (fun v value => Reads.pure ?_) stop
      intro strict
      subst strict
      have same : r = s := setting
      rw [same, normalize, value rfl]
      rfl
    · intro plain
      cases style with
      | ascii => exact absurd (plain '<' rfl) (by decide)
      | symbols => exact absurd (plain '⟨' rfl) (by decide)

theorem Reading.rweight (writable : Legible.Writable w) (flat : s.labels.Flat)
    (reading : Reading s e e.rightStrength t) :
    Reading s (.rweight e w) .weight (t ++ Exp.weightChars style w) where
  opens := reading.opens.append _
  plain _ := reading.opens.plain_append (reading.plain (Nat.le_refl _)) _
  reads {fails r} setting := by
    have below : Exp.Strength.weight.level ≤ e.rightStrength.level := by
      rcases Exp.rightStrength_cases e with same | same
      · rw [same]
      · rw [same]
        decide
    have plain := reading.plain (Nat.le_refl _)
    have operand := ((reading.loosen flat below).reads setting).2 plain
    apply ReadAt.weight_of_trailed (reading.opens.append _) (reading.opens.plain_append plain _)
    intro rest fuel unsuffixed enough
    rw [List.append_assoc] at enough ⊢
    have next : Unsuffixed (Exp.weightChars style w ++ rest) := by
      intro c same
      cases style <;> exact Option.some.inj same ▸ by decide
    have shorter := (opens_weightChars style w).length_pos
    apply (operand _ fuel next enough).step
    · rw [List.length_append]
      omega
    · intro n v pos value long
      rw [List.length_append] at long
      obtain ⟨stop, round⟩ :=
        rightWeights_weightChars (r := r) style writable v n pos rest
      refine .inl ⟨r.rweight v w, stop, n, ?_, by omega, round⟩
      intro strict
      subst strict
      have same : r = s := setting
      rw [same, normalize, value rfl]
      rfl

end WeightedAutomata.ExpressionSet
