import WeightedAutomata.Proofs.Expression.Built

/-! Rebuilding an expression keeps its series, and building its mirror image reverses the words. -/

set_option linter.unusedSectionVars false

namespace WeightedAutomata

open scoped Weights

namespace Interpretation

variable {K : Type} [Weights K] [Weights.Lawful K]
variable {s : ExpressionSet} {single : s.labels.isTuple = false}
variable {P Q : Exp K → Prop} {keeps : Structural s P} {turns : Structural s Q}

/-- The mirror image of a label spells the mirror image of its word. -/
theorem mirrorAtom (single : s.labels.isTuple = false) (structural : Structural s P) {l : Label}
    (member : s.labels.contains l = true) :
    (series s single structural).Denotes (s.atom l.mirror)
      (WordSeries.mirror (WordSeries.ofWord l.letters)) := by
  rw [WordSeries.mirror_ofWord, ← LabelSet.letters_mirror single member]
  have mirrored := LabelSet.contains_mirror single member
  exact ⟨Exp.meaning_setAtom single mirrored, structural.setAtom l.mirror⟩

theorem transposed {e : Exp K} {f : WordSeries K} (denotes : (series s single keeps).Denotes e f)
    (node : Q (.transposition e)) :
    (series s single turns).Denotes (s.transposition e) (WordSeries.mirror f) := by
  have turned : (series s single turns).Denotes (.transposition e) (WordSeries.mirror f) :=
    ⟨Option.map_eq_some_iff.mpr ⟨f, denotes.1, rfl⟩, node⟩
  unfold ExpressionSet.transposition
  split
  · exact turned
  split
  · rw [(series s single keeps).unique denotes (series s single keeps).zero, WordSeries.mirror_zero]
    exact (series s single turns).zero
  · rw [(series s single keeps).unique denotes (series s single keeps).one, WordSeries.mirror_one]
    exact (series s single turns).one
  · obtain ⟨member, _, rfl⟩ := Exp.meaning_atom.mp denotes.1
    exact mirrorAtom single turns member
  · exact turned

/-! ### Rebuilding -/

/-- The reading of tidy expressions as series. -/
abbrev language (K : Type) [Weights K] [Weights.Lawful K] (s : ExpressionSet)
    (single : s.labels.isTuple = false) : Interpretation K s (WordSeries K) :=
  series s single (Structural.tidy s)

mutual

theorem normalized (single : s.labels.isTuple = false) {e : Exp K} {f : WordSeries K}
    (defined : e.meaning s.labels = some f) :
    ∃ r, s.normalize e = .ok r ∧ (language K s single).Denotes r f := by
  let I := language K s single
  cases e with
  | zero =>
    cases defined
    exact ⟨.zero, rfl, I.zero⟩
  | one =>
    cases defined
    exact ⟨.one, rfl, I.one⟩
  | atom l =>
    obtain ⟨member, _, rfl⟩ := Exp.meaning_atom.mp defined
    exact ⟨s.atom l, rfl, Exp.meaning_setAtom single member, (Structural.tidy s).setAtom l⟩
  | sum es =>
    rw [Exp.meaning, Exp.meaning_node] at defined
    obtain ⟨rs, built, nonempty, folds⟩ := normalizedEach single defined.1 defined.2
    exact ⟨_, by rw [ExpressionSet.normalize, built]; rfl, I.chained nonempty I.added folds⟩
  | prod es =>
    rw [Exp.meaning, Exp.meaning_node] at defined
    obtain ⟨rs, built, nonempty, folds⟩ := normalizedEach single defined.1 defined.2
    exact ⟨_, by rw [ExpressionSet.normalize, built]; rfl, I.chained nonempty I.multiplied folds⟩
  | conjunction es =>
    rw [Exp.meaning, Exp.meaning_node] at defined
    obtain ⟨rs, built, nonempty, folds⟩ := normalizedEach single defined.1 defined.2
    exact ⟨_, by rw [ExpressionSet.normalize, built]; rfl,
      I.chained nonempty I.conjoined folds⟩
  | shuffle es =>
    rw [Exp.meaning, Exp.meaning_node] at defined
    obtain ⟨rs, built, nonempty, folds⟩ := normalizedEach single defined.1 defined.2
    exact ⟨_, by rw [ExpressionSet.normalize, built]; rfl, I.chained nonempty I.shuffled folds⟩
  | star e =>
    obtain ⟨g, inner, star⟩ := Option.bind_eq_some_iff.mp defined
    obtain ⟨r, built, denotes⟩ := normalized single inner
    exact ⟨s.star r, by rw [ExpressionSet.normalize, built]; rfl, I.starred denotes star⟩
  | transposition e =>
    obtain ⟨g, inner, rfl⟩ := Option.map_eq_some_iff.mp defined
    obtain ⟨r, built, denotes⟩ := normalized single inner
    exact ⟨s.transposition r, by rw [ExpressionSet.normalize, built]; rfl,
      transposed denotes denotes.2⟩
  | complement e =>
    rw [Exp.meaning] at defined
    split at defined
    · rename_i boolean
      obtain ⟨g, inner, rfl⟩ := Option.map_eq_some_iff.mp defined
      obtain ⟨r, built, denotes⟩ := normalized single inner
      exact ⟨s.complementNode r,
        by rw [ExpressionSet.normalize, built]; exact if_pos boolean,
        I.complementNode boolean denotes rfl⟩
    · cases defined
  | lweight w e =>
    obtain ⟨g, inner, rfl⟩ := Option.map_eq_some_iff.mp defined
    obtain ⟨r, built, denotes⟩ := normalized single inner
    exact ⟨s.lweight w r, by rw [ExpressionSet.normalize, built]; rfl, I.lweighted w denotes⟩
  | rweight e w =>
    obtain ⟨g, inner, rfl⟩ := Option.map_eq_some_iff.mp defined
    obtain ⟨r, built, denotes⟩ := normalized single inner
    exact ⟨s.rweight r w, by rw [ExpressionSet.normalize, built]; rfl, I.rweighted w denotes⟩
  | tuple es => cases defined

theorem normalizedEach (single : s.labels.isTuple = false) {es : List (Exp K)}
    {op : WordSeries K → WordSeries K → WordSeries K} {unit f : WordSeries K} (operands : es ≠ [])
    (defined : Folds (fun e f => Exp.meaning s.labels e = some f) op unit es f) :
    ∃ rs, s.normalizeEach es = .ok rs ∧ rs ≠ [] ∧
      Folds (language K s single).Denotes op unit rs f := by
  match es, operands, defined with
  | [e], _, defined =>
    obtain ⟨g, h, head, tail, rfl⟩ := Folds.cons_iff.mp defined
    obtain ⟨r, built, denotes⟩ := normalized single head
    refine ⟨[r], by simp only [ExpressionSet.normalizeEach, built]; rfl, List.cons_ne_nil _ _, ?_⟩
    exact Folds.cons denotes (Folds.nil_iff.mpr (Folds.nil_iff.mp tail))
  | e :: e' :: es, _, defined =>
    obtain ⟨g, h, head, tail, rfl⟩ := Folds.cons_iff.mp defined
    obtain ⟨r, built, denotes⟩ := normalized single head
    obtain ⟨rs, others, _, folds⟩ := normalizedEach single (List.cons_ne_nil e' es) tail
    refine ⟨r :: rs, ?_, List.cons_ne_nil _ _, Folds.cons denotes folds⟩
    rw [ExpressionSet.normalizeEach, built, others]
    rfl

end

end Interpretation

/-- Rewriting an expression keeps its series. -/
theorem ExpressionSet.meaning_normalize {K : Type} [Weights K] [Weights.Lawful K]
    {s : ExpressionSet} {e : Exp K} {f : WordSeries K} (single : s.labels.isTuple = false)
    (defined : e.meaning s.labels = some f) :
    ∃ n, s.normalize e = .ok n ∧ n.meaning s.labels = some f := by
  obtain ⟨n, built, denotes⟩ := Interpretation.normalized single defined
  exact ⟨n, built, denotes.1⟩

theorem ExpressionSet.meaning_normalize_of_mirrored_complement :
    let s : ExpressionSet := ⟨.words (.ofLetters false ['a', 'b']), .distributive⟩
    let e : Exp Bool := .transposition (.complement (.lweight true (.sum
      [.prod [.atom (.word ['a']), .atom (.word ['b'])], .star (.atom (.word ['b']))])))
    ∃ f n, e.meaning s.labels = some f ∧ s.normalize e = .ok n ∧ n.meaning s.labels = some f ∧
      f ['b', 'a'] = false ∧ f ['a', 'b'] = true := by
  intro s e
  obtain ⟨n, built, same⟩ := ExpressionSet.meaning_normalize (s := s) (e := e) rfl rfl
  exact ⟨_, n, rfl, built, same, rfl, rfl⟩

namespace Interpretation

variable {K : Type} [Weights K] [Weights.Lawful K]
variable {s : ExpressionSet} {single : s.labels.isTuple = false}

/-! ### Mirror images -/

/-- The reading as series of tidy expressions in which transpositions are nested `n` deep at
most. -/
abbrev shallow (K : Type) [Weights K] [Weights.Lawful K] (s : ExpressionSet)
    (single : s.labels.isTuple = false) (n : Nat) : Interpretation K s (WordSeries K) :=
  series s single (Structural.shallow s n)

theorem mapM_ok {α : Type} (rs : List α) :
    (rs.map fun r => (.ok r : Result α)).mapM id = .ok rs := by
  induction rs with
  | nil => rfl
  | cons r rs ih =>
    rw [List.map_cons, List.mapM_cons, ih]
    rfl

theorem mirror_star? {f g : WordSeries K} (star : f.star? = some g) :
    (WordSeries.mirror f).star? = some (WordSeries.mirror g) := by
  obtain ⟨k, constant, rfl⟩ := WordSeries.star?_eq_some.mp star
  refine WordSeries.star?_eq_some.mpr ⟨k, constant, ?_⟩
  rw [← WordSeries.mirror_proper, WordSeries.mirror_star k (WordSeries.proper_nil f)]

theorem mirror_complement (ls : LabelSet) (f : WordSeries K) :
    WordSeries.mirror (f.complement ls) = (WordSeries.mirror f).complement ls := by
  ext u
  simp [WordSeries.complement]

/-- The mirror images of operands combine to the mirror image of what the operands combine to. -/
theorem mirror_folds {op : WordSeries K → WordSeries K → WordSeries K} {unit : WordSeries K}
    {D E : Exp K → WordSeries K → Prop} {es rs : List (Exp K)} {f : WordSeries K}
    (turned : List.Forall₂ (fun e r => ∀ g, D e g → E r (WordSeries.mirror g)) es rs)
    (mirror_op : ∀ g h, WordSeries.mirror (op g h) = op (WordSeries.mirror g) (WordSeries.mirror h))
    (mirror_unit : WordSeries.mirror unit = unit) (folds : Folds D op unit es f) :
    Folds E op unit rs (WordSeries.mirror f) := by
  induction turned generalizing f with
  | nil =>
    rw [Folds.nil_iff.mp folds, mirror_unit]
    exact Folds.nil_iff.mpr rfl
  | cons head _ ih =>
    obtain ⟨g, h, first, rest, rfl⟩ := Folds.cons_iff.mp folds
    rw [mirror_op]
    exact Folds.cons (head g first) (ih rest)

/-- The mirror images of factors multiply in reverse order. -/
theorem mirror_multiplies {D E : Exp K → WordSeries K → Prop} {es rs : List (Exp K)}
    {f : WordSeries K}
    (turned : List.Forall₂ (fun e r => ∀ g, D e g → E r (WordSeries.mirror g)) es rs)
    (folds : Folds D (· * ·) 1 es f) : Folds E (· * ·) 1 rs.reverse (WordSeries.mirror f) := by
  induction turned generalizing f with
  | nil =>
    rw [Folds.nil_iff.mp folds, WordSeries.mirror_one]
    exact Folds.nil_iff.mpr rfl
  | cons head _ ih =>
    obtain ⟨g, h, first, rest, rfl⟩ := Folds.cons_iff.mp folds
    rw [WordSeries.mirror_mul, List.reverse_cons]
    exact Folds.append (ih rest) (Folds.singleton_iff.mpr (head g first))

mutual

theorem mirrored (single : s.labels.isTuple = false) {n : Nat} {e : Exp K} {f : WordSeries K}
    (denotes : (shallow K s single (n + 1)).Denotes e f) :
    ∃ r, s.transpose e = .ok r ∧ (shallow K s single n).Denotes r (WordSeries.mirror f) := by
  let I := shallow K s single (n + 1)
  let J := shallow K s single n
  cases e with
  | zero =>
    rw [I.unique denotes I.zero, WordSeries.mirror_zero]
    exact ⟨.zero, rfl, J.zero⟩
  | one =>
    rw [I.unique denotes I.one, WordSeries.mirror_one]
    exact ⟨.one, rfl, J.one⟩
  | atom l =>
    obtain ⟨member, _, rfl⟩ := Exp.meaning_atom.mp denotes.1
    exact ⟨s.atom l.mirror, rfl, mirrorAtom single (Structural.shallow s n) member⟩
  | sum es =>
    obtain ⟨operands, folds⟩ := I.sum.mp denotes
    obtain ⟨rs, built, nonempty, turned⟩ := mirroredEach single operands folds
    refine ⟨_, by rw [ExpressionSet.transpose, built, mapM_ok]; rfl, J.chained nonempty J.added ?_⟩
    exact mirror_folds turned WordSeries.mirror_add WordSeries.mirror_zero folds
  | prod es =>
    obtain ⟨operands, folds⟩ := I.prod.mp denotes
    obtain ⟨rs, built, nonempty, turned⟩ := mirroredEach single operands folds
    refine ⟨_, by rw [ExpressionSet.transpose, built, ← List.map_reverse, mapM_ok]; rfl,
      J.chained (List.reverse_ne_nil_iff.mpr nonempty) J.multiplied ?_⟩
    exact mirror_multiplies turned folds
  | conjunction es =>
    obtain ⟨operands, folds⟩ := I.conjunction.mp denotes
    obtain ⟨rs, built, nonempty, turned⟩ := mirroredEach single operands folds
    refine ⟨_, by rw [ExpressionSet.transpose, built, mapM_ok]; rfl,
      J.chained nonempty J.conjoined ?_⟩
    exact mirror_folds turned WordSeries.mirror_pointwise rfl folds
  | shuffle es =>
    obtain ⟨operands, folds⟩ := I.shuffles.mp denotes
    obtain ⟨rs, built, nonempty, turned⟩ := mirroredEach single operands folds
    refine ⟨_, by rw [ExpressionSet.transpose, built, mapM_ok]; rfl,
      J.chained nonempty J.shuffled ?_⟩
    exact mirror_folds turned WordSeries.mirror_shuffle WordSeries.mirror_one folds
  | star e =>
    obtain ⟨g, inner, star⟩ := I.star.mp denotes
    obtain ⟨r, built, turned⟩ := mirrored single inner
    exact ⟨s.star r, by rw [ExpressionSet.transpose, built]; rfl,
      J.starred turned (mirror_star? star)⟩
  | transposition e =>
    obtain ⟨defined, tidy, nested⟩ := denotes
    obtain ⟨g, inner, rfl⟩ := Option.map_eq_some_iff.mp defined
    rw [WordSeries.mirror_mirror]
    exact ⟨e, rfl, inner, tidy, Nat.le_of_succ_le_succ nested⟩
  | complement e =>
    obtain ⟨boolean, g, inner, rfl⟩ := I.complement.mp denotes
    obtain ⟨r, built, turned⟩ := mirrored single inner
    exact ⟨s.complementNode r,
      by rw [ExpressionSet.transpose, built]; exact if_pos boolean,
      J.complementNode boolean turned (mirror_complement s.labels g)⟩
  | lweight w e =>
    obtain ⟨_, g, inner, rfl⟩ := I.lweight.mp denotes
    obtain ⟨r, built, turned⟩ := mirrored single inner
    exact ⟨s.rweight r w,
      by rw [ExpressionSet.transpose, built, Weights.Lawful.mirror_eq]; rfl,
      J.rweighted w turned⟩
  | rweight e w =>
    obtain ⟨_, g, inner, rfl⟩ := I.rweight.mp denotes
    obtain ⟨r, built, turned⟩ := mirrored single inner
    exact ⟨s.lweight w r,
      by rw [ExpressionSet.transpose, built, Weights.Lawful.mirror_eq]; rfl,
      J.lweighted w turned⟩
  | tuple es => cases denotes.1

theorem mirroredEach (single : s.labels.isTuple = false) {n : Nat} {es : List (Exp K)}
    {op : WordSeries K → WordSeries K → WordSeries K} {unit f : WordSeries K} (operands : es ≠ [])
    (folds : Folds (shallow K s single (n + 1)).Denotes op unit es f) :
    ∃ rs, s.transposeEach es = rs.map (.ok ·) ∧ rs ≠ [] ∧
      List.Forall₂ (fun e r => ∀ g, (shallow K s single (n + 1)).Denotes e g →
        (shallow K s single n).Denotes r (WordSeries.mirror g)) es rs := by
  match es, operands, folds with
  | e :: es, _, folds =>
    obtain ⟨g, h, head, tail, rfl⟩ := Folds.cons_iff.mp folds
    obtain ⟨r, built, turned⟩ := mirrored single head
    have first : ∀ g', (shallow K s single (n + 1)).Denotes e g' →
        (shallow K s single n).Denotes r (WordSeries.mirror g') := by
      intro g' other
      rwa [(shallow K s single (n + 1)).unique other head]
    cases es with
    | nil =>
      exact ⟨[r], by rw [ExpressionSet.transposeEach, built]; rfl, List.cons_ne_nil _ _,
        .cons first .nil⟩
    | cons e' es =>
      obtain ⟨rs, others, _, rest⟩ := mirroredEach single (List.cons_ne_nil e' es) tail
      exact ⟨r :: rs, by rw [ExpressionSet.transposeEach, built, others]; rfl,
        List.cons_ne_nil _ _, .cons first rest⟩

end

end Interpretation

end WeightedAutomata
