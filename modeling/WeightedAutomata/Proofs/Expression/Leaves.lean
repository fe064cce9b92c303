import WeightedAutomata.Proofs.Expression.Strength
import WeightedAutomata.Proofs.Letter.Escape

/-! The texts of constants and letters are read as such. -/

namespace WeightedAutomata.ExpressionSet

open Text Text.Reader

variable {K : Type} [Weights K] {s r : ExpressionSet} {e : Exp K} {t : List Char} {style : Style}

/-- A text that readers take for a leaf, whatever comes next. -/
theorem Reading.leaf {c : Char} (begins : Begins c) (plain : c ∉ weightSigns)
    (reads : ∀ {fails r}, Over fails r s → ∀ fuel rest,
      Reads fails false (readPrimary (fuel + 1) r) (c :: t ++ rest) rest (Value fails s e)) :
    Reading s e .leaf (c :: t) where
  opens := ⟨c, t, rfl, begins⟩
  plain _ _ same := Option.some.inj same ▸ plain
  reads setting rest fuel enough := by
    obtain ⟨fuel, rfl⟩ : ∃ n, fuel = n + 1 := ⟨fuel - 1, by omega⟩
    exact reads setting fuel rest

theorem reading_zero (s : ExpressionSet) (style : Style) :
    Reading s (.zero : Exp K) .leaf (Exp.zeroSign style) := by
  cases style <;> apply Reading.leaf ⟨by decide, by decide, by decide⟩ (by decide) <;>
    intro fails r _ fuel rest pos <;> rw [readPrimary] <;> exact .ok fun _ => rfl

theorem reading_one (one : ∀ v, v = .one → s.normalize e = .ok v) (style : Style) :
    Reading s e .leaf (Exp.oneSign style) := by
  cases style <;> apply Reading.leaf ⟨by decide, by decide, by decide⟩ (by decide) <;>
    intro fails r _ fuel rest pos <;> rw [readPrimary] <;> exact .ok fun _ => one _ rfl

/-- The letter of an atom, of which only the set itself must have a label. -/
theorem reads_letterAtom {c : Char} {fails : Bool} (setting : Over fails r s)
    (single : s.labels.Single) (member : s.labels.contains (.letter c) = true) (start : Nat)
    (rest : List Char) : Reads fails false (letterAtom r c start) rest rest
      (Value fails s (.atom (.letter c) : Exp K)) := by
  have free : r.labels.isTuple = false := by
    cases fails with
    | true => exact congrArg Option.isSome setting
    | false =>
      have same : r = s := setting
      exact congrArg Option.isSome (same ▸ single.tapes?)
  have letter : s.labels.letter c = .letter c := by
    cases labels : s.labels with
    | words => exact (labels ▸ single).elim
    | _ => rfl
  unfold letterAtom
  rw [free, if_neg Bool.false_ne_true]
  apply Reads.bind (Reads.lift (P := fun _ => True) (fun _ _ => trivial) _)
  · intro _ _
    apply Reads.pure
    intro strict
    subst strict
    have same : r = s := setting
    rw [same, letter, normalize]
  · intro strict
    subst strict
    have same : r = s := setting
    rw [same, letter, LabelSet.check, member]
    exact ⟨(), rfl⟩

/-- What comes after a backslash and is no constant is a letter. -/
theorem readPrimary_escape {tail : List Char} (zero : 'z' ∉ tail.head?) (one : 'e' ∉ tail.head?)
    (fuel pos : Nat) : (readPrimary (fuel + 1) r : Reader (Exp K)) ⟨pos, '\\' :: tail⟩ =
      (do let c ← escapedLetter; letterAtom r c pos) ⟨pos, '\\' :: tail⟩ := by
  have start : position ⟨pos, '\\' :: tail⟩ = .ok pos ⟨pos, '\\' :: tail⟩ := rfl
  have here : (get : Reader Cursor) ⟨pos, '\\' :: tail⟩ =
      .ok ⟨pos, '\\' :: tail⟩ ⟨pos, '\\' :: tail⟩ := rfl
  rw [readPrimary, bind_ok start, bind_ok here]
  refine congrFun ?_ _
  split
  · next same => cases same
  · next same => exact absurd (List.cons.inj same).1 (by decide)
  · next same => exact absurd (List.cons.inj same).1 (by decide)
  · next same => exact absurd (List.cons.inj same).1 (by decide)
  · next same => exact absurd (List.cons.inj same).1 (by decide)
  · next same => exact absurd (List.cons.inj same).1 (by decide)
  · next same => exact absurd (congrArg List.head? (List.cons.inj same).2) zero
  · next same => exact absurd (congrArg List.head? (List.cons.inj same).2) one
  · rfl
  · next other same => exact (other (List.cons.inj same).1.symm).elim

/-- The characters that leaves other than plain letters begin with. -/
def leafSigns : List Char := ['(', '∅', 'ε', '[', '\'', '\\']

theorem readPrimary_plain {c : Char} (plain : c ∉ leafSigns) (fuel pos : Nat) (tail : List Char) :
    (readPrimary (fuel + 1) r : Reader (Exp K)) ⟨pos, c :: tail⟩ =
      letterAtom r c pos ⟨pos + 1, tail⟩ := by
  have start : position ⟨pos, c :: tail⟩ = .ok pos ⟨pos, c :: tail⟩ := rfl
  have here : (get : Reader Cursor) ⟨pos, c :: tail⟩ = .ok ⟨pos, c :: tail⟩ ⟨pos, c :: tail⟩ := rfl
  simp only [leafSigns, List.mem_cons, List.not_mem_nil, or_false, not_or] at plain
  obtain ⟨parenthesis, zero, one, bracket, quote, backslash⟩ := plain
  rw [readPrimary, bind_ok start, bind_ok here]
  refine (congrFun (?_ : _ = (do advance 1; letterAtom r c pos : Reader (Exp K))) _).trans rfl
  split
  · next same => cases same
  · next same => exact absurd (List.cons.inj same).1 parenthesis
  · next same => exact absurd (List.cons.inj same).1 zero
  · next same => exact absurd (List.cons.inj same).1 one
  · next same => exact absurd (List.cons.inj same).1 bracket
  · next same => exact absurd (List.cons.inj same).1 quote
  · next same => exact absurd (List.cons.inj same).1 backslash
  · next same => exact absurd (List.cons.inj same).1 backslash
  · next same => exact absurd (List.cons.inj same).1 backslash
  · next same => rw [(List.cons.inj same).1]

theorem reading_letter {c : Char} (writable : Letter.Writable c) (single : s.labels.Single)
    (member : s.labels.contains (.letter c) = true) :
    Reading s (.atom (.letter c) : Exp K) .leaf (Letter.escape c) := by
  have ways := Letter.writing_escape c
  generalize Letter.escape c = text at ways ⊢
  cases ways with
  | escaped operator =>
    apply Reading.leaf ⟨by decide, by decide, by decide⟩ (by decide)
    intro fails r setting fuel rest pos
    have differ : c ≠ 'x' := fun same => absurd (same ▸ operator) (by decide)
    have zero : 'z' ∉ (c :: rest).head? := by
      intro same
      exact absurd (Option.some.inj same ▸ operator) (by decide)
    have one : 'e' ∉ (c :: rest).head? := by
      intro same
      exact absurd (Option.some.inj same ▸ operator) (by decide)
    change Ends _ _ _ _ (readPrimary (fuel + 1) r ⟨pos, '\\' :: c :: rest⟩)
    rw [readPrimary_escape zero one, bind_ok (Letter.escapedLetter_escaped differ pos rest)]
    exact reads_letterAtom setting single member pos rest _
  | coded =>
    apply Reading.leaf ⟨by decide, by decide, by decide⟩ (by decide)
    intro fails r setting fuel rest pos
    have letter : escapedLetter ⟨pos, '\\' :: ('x' :: hexDigits c.toNat ++ rest)⟩ =
        .ok c ⟨pos + 4, rest⟩ := Letter.escapedLetter_coded writable pos rest
    change Ends _ _ _ _
      (readPrimary (fuel + 1) r ⟨pos, '\\' :: ('x' :: hexDigits c.toNat ++ rest)⟩)
    rw [readPrimary_escape (by simp) (by simp), bind_ok letter]
    exact reads_letterAtom setting single member pos rest _
  | plain other raw =>
    obtain ⟨low, high⟩ := Letter.not_needsCode_iff.mp raw
    have ascii : c.toNat < 0x7f := by
      have below := writable.2
      omega
    have solid : isBlank c = false := by
      have space : c.toNat ≠ 0x20 := by
        intro same
        have blank : c = ' ' := Char.toNat_inj.mp same
        exact absurd (blank ▸ other) (by decide)
      simp only [isBlank, Bool.or_eq_false_iff, Bool.and_eq_false_iff, decide_eq_false_iff_not,
        beq_eq_false_iff_ne]
      omega
    -- The ASCII characters that mean something here are among those that are written escaped.
    have ordinary (signs : List Char)
        (known : signs.all fun d => d.toNat < 0x7f → d ∈ Letter.operators) : c ∉ signs :=
      fun member => other (of_decide_eq_true (List.all_eq_true.mp known c member) ascii)
    have dot : c ≠ '.' := fun same => absurd (same ▸ other) (by decide)
    apply Reading.leaf ⟨solid, ordinary nonOperands (by decide), dot⟩
      (ordinary weightSigns (by decide))
    intro fails r setting fuel rest pos
    change Ends _ _ _ _ (readPrimary (fuel + 1) r ⟨pos, c :: rest⟩)
    rw [readPrimary_plain (ordinary leafSigns (by decide))]
    exact reads_letterAtom setting single member pos rest _

end WeightedAutomata.ExpressionSet
