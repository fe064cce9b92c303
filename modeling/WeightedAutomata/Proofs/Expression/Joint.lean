import WeightedAutomata.Proofs.Expression.Built
import WeightedAutomata.Proofs.Expression.Rebuilding
import WeightedAutomata.Proofs.Series.Tapes

/-! The series of expressions over tuples of words, and the expressions that sums, products, stars,
weights and tuples build. -/

set_option linter.unusedSectionVars false

namespace WeightedAutomata

open scoped Weights

variable {K : Type} [Weights K] [Weights.Lawful K]
variable {s : ExpressionSet} {e : Exp K} {es : List (Exp K)}

namespace TupleSeries

/-- The star of a series, where its constant term has one. -/
def star? (f : TupleSeries K) : Option (TupleSeries K) :=
  (Weights.star (f [])).toOption.map fun k => star k (proper f)

theorem star?_eq_some {f g : TupleSeries K} :
    f.star? = some g ↔ ∃ k, Weights.star (f []) = .ok k ∧ g = star k (proper f) := by
  unfold star?
  cases Weights.star (f []) with
  | ok k => simp [Except.toOption, eq_comm]
  | error e => simp [Except.toOption]

theorem proper_zero : proper (0 : TupleSeries K) = 0 := ext fun _ => ite_self _

theorem star?_zero : (0 : TupleSeries K).star? = some 1 := by
  refine star?_eq_some.mpr ⟨1, Weights.Lawful.star_zero, ?_⟩
  rw [star_eq, proper_zero, zero_mul, add_zero, one_smul]

/-- The series of the words that a label spells on each tape. -/
def ofLabel : Label → TupleSeries K
  | .tuple labels => ofWords (labels.map Label.letters)
  | l => ofWords [l.letters]

end TupleSeries

namespace Exp

/-- The series of expressions, one on each tape. -/
def tapeMeanings : List LabelSet → List (Exp K) → Option (List (WordSeries K))
  | [], [] => some []
  | ls :: tapes, e :: es => (meaning ls e).bind fun f => (tapeMeanings tapes es).map (f :: ·)
  | _, _ => none

mutual

/-- The series of an expression over tuples of words, where sums, products and stars are those of
the product of the tapes. Atoms outside the labels and nodes without operands have none, nor have
the operators that single tapes have besides. -/
def tupleMeaning (tapes : List LabelSet) : Exp K → Option (TupleSeries K)
  | zero => some 0
  | one => some 1
  | atom l => if (LabelSet.tuple tapes).contains l then some (TupleSeries.ofLabel l) else none
  | sum es => if es.isEmpty then none else (tupleMeaningEach tapes es).map (·.foldr (· + ·) 0)
  | prod es => if es.isEmpty then none else (tupleMeaningEach tapes es).map (·.foldr (· * ·) 1)
  | star e => (tupleMeaning tapes e).bind TupleSeries.star?
  | lweight w e => (tupleMeaning tapes e).map (w • ·)
  | rweight e w => (tupleMeaning tapes e).map (w • ·)
  | tuple es => (tapeMeanings tapes es).map TupleSeries.tensor
  | conjunction _ | shuffle _ | transposition _ | complement _ => none

/-- The series of each expression of a list. -/
def tupleMeaningEach (tapes : List LabelSet) : List (Exp K) → Option (List (TupleSeries K))
  | [] => some []
  | e :: es => (tupleMeaning tapes e).bind fun f => (tupleMeaningEach tapes es).map (f :: ·)

end

mutual

/-- Whether there are no conjunctions, shuffles, transpositions and complements. -/
def Plain : Exp K → Prop
  | zero | one | atom _ => True
  | sum es | prod es | tuple es => PlainEach es
  | star e | lweight _ e | rweight e _ => Plain e
  | conjunction _ | shuffle _ | transposition _ | complement _ => False

def PlainEach : List (Exp K) → Prop
  | [] => True
  | e :: es => Plain e ∧ PlainEach es

end

/-- A node denotes what its operands combine to. -/
theorem tupleMeaning_node {tapes : List LabelSet} {f unit : TupleSeries K}
    {op : TupleSeries K → TupleSeries K → TupleSeries K} :
    (if es.isEmpty then none else (tupleMeaningEach tapes es).map (·.foldr op unit)) = some f ↔
      es ≠ [] ∧ Folds (fun e f => tupleMeaning tapes e = some f) op unit es f :=
  Folds.node_iff rfl fun _ _ => rfl

theorem plainEach_iff : PlainEach es ↔ ∀ e ∈ es, Plain e := by
  induction es with
  | nil => simp [PlainEach]
  | cons e es ih => simp [PlainEach, ih]

end Exp

/-! ### Plain expressions -/

namespace Semantics

variable {A : Type} [Semiring A] [Algebra K A]

/-- The reading of plain expressions only. -/
def plain (I : Semantics K s A) : Semantics K s A where
  Denotes e f := I.Denotes e f ∧ e.Plain
  Starred := I.Starred
  unique left right := I.unique left.1 right.1
  zero := ⟨I.zero, trivial⟩
  one := ⟨I.one, trivial⟩
  sum := by
    intro es f
    rw [Folds.and_iff, I.sum, Exp.Plain, Exp.plainEach_iff, and_assoc]
  prod := by
    intro es f
    rw [Folds.and_iff, I.prod, Exp.Plain, Exp.plainEach_iff, and_assoc]
  star := by
    intro e f
    rw [I.star, Exp.Plain]
    tauto
  lweight := by
    intro w e f
    rw [I.lweight, Exp.Plain]
    tauto
  rweight := by
    intro w e f
    rw [I.rweight, Exp.Plain]
    tauto
  concat words left right joined := by
    refine ⟨I.concat words left.1 right.1 joined, ?_⟩
    unfold ExpressionSet.atom
    split <;> trivial
  starred_zero := I.starred_zero

/-- The reading of tidy and plain expressions as series of tuples. -/
def joint (K : Type) [Weights K] [Weights.Lawful K] {s : ExpressionSet} {tapes : List LabelSet}
    (labels : s.labels = .tuple tapes) : Semantics K s (TupleSeries K) where
  Denotes e f := e.tupleMeaning tapes = some f ∧ e.Tidy s ∧ e.Plain
  Starred f g := f.star? = some g
  unique left right := Option.some.inj (left.1.symm.trans right.1)
  zero := ⟨rfl, trivial, trivial⟩
  one := ⟨rfl, trivial, trivial⟩
  sum := by
    intro es f
    rw [Folds.and_iff, Exp.tupleMeaning, Exp.tupleMeaning_node, Exp.Tidy, Exp.Plain,
      Exp.tidyEach_iff, Exp.plainEach_iff, forall₂_and]
    tauto
  prod := by
    intro es f
    rw [Folds.and_iff, Exp.tupleMeaning, Exp.tupleMeaning_node, Exp.Tidy, Exp.Plain,
      Exp.tidyEach_iff, Exp.plainEach_iff, forall₂_and]
    tauto
  star := by
    intro e f
    rw [Exp.tupleMeaning, Option.bind_eq_some_iff]
    constructor
    · rintro ⟨⟨g, inner, star⟩, neat⟩
      exact ⟨g, ⟨inner, neat⟩, star⟩
    · rintro ⟨g, ⟨inner, neat⟩, star⟩
      exact ⟨⟨g, inner, star⟩, neat⟩
  lweight := by
    intro w e f
    rw [Exp.tupleMeaning, Option.map_eq_some_iff]
    constructor
    · rintro ⟨⟨g, inner, rfl⟩, ⟨allowed, tidy⟩, plain⟩
      exact ⟨allowed, g, ⟨inner, tidy, plain⟩, rfl⟩
    · rintro ⟨allowed, g, ⟨inner, tidy, plain⟩, rfl⟩
      exact ⟨⟨g, inner, rfl⟩, ⟨allowed, tidy⟩, plain⟩
  rweight := by
    intro w e f
    rw [Exp.tupleMeaning, Option.map_eq_some_iff]
    constructor
    · rintro ⟨⟨g, inner, rfl⟩, ⟨allowed, tidy⟩, plain⟩
      exact ⟨allowed, g, ⟨inner, tidy, plain⟩, rfl⟩
    · rintro ⟨allowed, g, ⟨inner, tidy, plain⟩, rfl⟩
      exact ⟨⟨g, inner, rfl⟩, ⟨allowed, tidy⟩, plain⟩
  concat words := by
    rw [labels] at words
    cases words
  starred_zero := by
    intro f star
    rw [TupleSeries.star?_zero] at star
    exact (Option.some.inj star).symm

end Semantics

/-! ### What the operations build -/

namespace ExpressionSet

/-- The expressions that a set builds by sums, products, stars and weights and, on each tape by
itself, by the same operators. -/
inductive Rational : ExpressionSet → Exp K → Prop
  | zero {s : ExpressionSet} : Rational s .zero
  | one {s : ExpressionSet} : Rational s .one
  | atom {s : ExpressionSet} (l : Label) : Rational s (s.atom l)
  | add {s : ExpressionSet} {l r : Exp K} : Rational s l → Rational s r → Rational s (s.add l r)
  | mul {s : ExpressionSet} {l r : Exp K} : Rational s l → Rational s r → Rational s (s.mul l r)
  | star {s : ExpressionSet} {e : Exp K} : Rational s e → Rational s (s.star e)
  | lweight {s : ExpressionSet} (w : K) {e : Exp K} : Rational s e → Rational s (s.lweight w e)
  | rweight {s : ExpressionSet} {e : Exp K} (w : K) : Rational s e → Rational s (s.rweight e w)
  | tuple {s : ExpressionSet} {es : List (Exp K)} {r : Exp K} :
    (∀ {i : Nat} {e : Exp K} {tape : ExpressionSet}, es[i]? = some e → s.tape? i = some tape →
      Rational tape e) → s.tuple es = .ok r → Rational s r

end ExpressionSet

namespace Exp

mutual

theorem tidy_tape (ls : LabelSet) : (e : Exp K) → (Tidy { s with labels := ls } e ↔ Tidy s e)
  | zero | one | atom _ => Iff.rfl
  | sum es | prod es | conjunction es | shuffle es => and_congr_right fun _ => tidyEach_tape ls es
  | star e | transposition e => tidy_tape ls e
  | lweight _ e | rweight e _ | complement e => and_congr_right fun _ => tidy_tape ls e
  | tuple es => tidyEach_tape ls es

theorem tidyEach_tape (ls : LabelSet) :
    (es : List (Exp K)) → (TidyEach { s with labels := ls } es ↔ TidyEach s es)
  | [] => Iff.rfl
  | e :: es => and_congr (tidy_tape ls e) (tidyEach_tape ls es)

end

end Exp

namespace ExpressionSet

theorem tuple_eq_ok {r : Exp K} : s.tuple es = .ok r ↔
    (∃ sets, s.labels.tapes? = some sets ∧ es.length = sets.length) ∧ s.joinTapes es = r := by
  unfold tuple requireTapes
  cases s.labels.tapes? with
  | none => exact iff_of_false nofun fun ⟨⟨_, there, _⟩, _⟩ => nomatch there
  | some sets =>
    dsimp only
    split
    · rename_i same
      exact Iff.trans ⟨Except.ok.inj, congrArg Except.ok⟩ (and_iff_right ⟨sets, rfl, same⟩).symm
    · rename_i differ
      refine iff_of_false nofun fun ⟨⟨_, there, same⟩, _⟩ => ?_
      exact differ (Option.some.inj there ▸ same)

/-- A tuple that is not a label. -/
def tapeNode (s : ExpressionSet) (es : List (Exp K)) : Exp K :=
  if s.uses .trivial && es.any Exp.isZero then .zero else .tuple es

theorem joinTapes_of_none (none : es.mapM labelOf? = none) : s.joinTapes es = s.tapeNode es := by
  unfold joinTapes tapeNode
  rw [none]

theorem joinTapes_of_labels {labels : List Label} (found : es.mapM labelOf? = some labels) :
    s.joinTapes es = if (Label.tuple labels).isOne then .one
      else if s.labels.contains (.tuple labels) then .atom (.tuple labels) else s.tapeNode es := by
  unfold joinTapes tapeNode
  rw [found]
  dsimp only
  by_cases one : (Label.tuple labels).isOne = true
  · rw [if_pos one, if_pos one]
  · rw [if_neg one, if_neg one, atom, if_neg one]

/-- The reading that only tells whether expressions are tidy and plain. -/
def neatness (K : Type) [Weights K] [Weights.Lawful K] (s : ExpressionSet) : Semantics K s PUnit :=
  (Interpretation.shape s (Structural.tidy s)).toSemantics.plain

theorem neat_joinTapes (neat : ∀ e ∈ es, e.Tidy s ∧ e.Plain) :
    (s.joinTapes es).Tidy s ∧ (s.joinTapes es).Plain := by
  have node : (s.tapeNode es).Tidy s ∧ (s.tapeNode es).Plain := by
    unfold tapeNode
    split
    · exact ⟨trivial, trivial⟩
    · exact ⟨Exp.tidyEach_iff.mpr fun e member => (neat e member).1,
        Exp.plainEach_iff.mpr fun e member => (neat e member).2⟩
  cases labels : es.mapM labelOf? with
  | none => rwa [joinTapes_of_none labels]
  | some labels' =>
    rw [joinTapes_of_labels labels]
    split
    · exact ⟨trivial, trivial⟩
    · rename_i notOne
      split
      · exact ⟨Bool.eq_false_iff.mpr notOne, trivial⟩
      · exact node

/-- What is built is tidy and plain. -/
theorem Rational.neat (rational : s.Rational e) : e.Tidy s ∧ e.Plain := by
  induction rational with
  | zero | one => exact ⟨trivial, trivial⟩
  | @atom s l =>
    refine ⟨Exp.tidy_atom s l, ?_⟩
    unfold ExpressionSet.atom
    split <;> trivial
  | @add s _ _ _ _ left right => exact (neatness K s).added (f := 0) (g := 0) left right
  | @mul s _ _ _ _ left right => exact (neatness K s).multiplied (f := 0) (g := 0) left right
  | @star s _ _ inner => exact (neatness K s).starred (f := 0) (g := 0) inner trivial
  | @lweight s w _ _ inner => exact (neatness K s).lweighted (f := 0) w inner
  | @rweight s _ w _ inner => exact (neatness K s).rweighted (f := 0) w inner
  | @tuple s es r _ built each =>
    obtain ⟨⟨sets, tapes, same⟩, rfl⟩ := tuple_eq_ok.mp built
    refine neat_joinTapes fun e member => ?_
    obtain ⟨i, inside, rfl⟩ := List.mem_iff_getElem.mp member
    have tape : s.tape? i = some { s with labels := sets.get ⟨i, same ▸ inside⟩ } := by
      unfold tape? LabelSet.tape?
      rw [tapes]
      simp [same ▸ inside]
    obtain ⟨tidy, plain⟩ := each (List.getElem?_eq_getElem inside) tape
    exact ⟨(Exp.tidy_tape _ _).mp tidy, plain⟩

end ExpressionSet

/-! ### Tuples -/

namespace Semantics

variable {alphabet : Alphabet} {alphabets : List Alphabet} {f : WordSeries K} {F : TupleSeries K}

/-- The reading of tidy and plain expressions on one tape. -/
def tape (K : Type) [Weights K] [Weights.Lawful K] (s : ExpressionSet) (alphabet : Alphabet) :
    Semantics K { s with labels := .nullable alphabet } (WordSeries K) :=
  (Interpretation.language K { s with labels := .nullable alphabet } rfl).toSemantics.plain

/-- What expressions on the tapes denote together. -/
inductive TapesDenote (s : ExpressionSet) : List Alphabet → List (Exp K) → TupleSeries K → Prop
  | nil : TapesDenote s [] [] 1
  | cons {alphabet : Alphabet} {alphabets : List Alphabet} {e : Exp K} {es : List (Exp K)}
    {f : WordSeries K} {F : TupleSeries K} : (tape K s alphabet).Denotes e f →
    TapesDenote s alphabets es F → TapesDenote s (alphabet :: alphabets) (e :: es) (.cross f F)

namespace TapesDenote

theorem length (denotes : TapesDenote s alphabets es F) : es.length = alphabets.length := by
  induction denotes with
  | nil => rfl
  | cons _ _ ih => exact congrArg (· + 1) ih

theorem iff_tapeMeanings : TapesDenote s alphabets es F ↔
    (∃ fs, Exp.tapeMeanings (alphabets.map .nullable) es = some fs ∧ F = .tensor fs) ∧
      ∀ e ∈ es, e.Tidy s ∧ e.Plain := by
  constructor
  · intro denotes
    induction denotes with
    | nil => exact ⟨⟨[], rfl, rfl⟩, by simp⟩
    | @cons _ _ _ _ f _ head _ ih =>
      obtain ⟨⟨meaning, tidy⟩, plain⟩ := head
      obtain ⟨⟨fs, meanings, rfl⟩, neat⟩ := ih
      refine ⟨⟨f :: fs, ?_, rfl⟩, List.forall_mem_cons.mpr ⟨⟨(Exp.tidy_tape _ _).mp tidy, plain⟩, neat⟩⟩
      change (Exp.meaning _ _).bind _ = _
      rw [meaning, Option.bind_some, meanings]
      rfl
  · rintro ⟨⟨fs, meanings, rfl⟩, neat⟩
    induction es generalizing alphabets fs with
    | nil =>
      cases alphabets with
      | nil =>
        cases meanings
        exact .nil
      | cons _ _ => cases meanings
    | cons e es ih =>
      cases alphabets with
      | nil => cases meanings
      | cons alphabet alphabets =>
        obtain ⟨f, head, rest⟩ := Option.bind_eq_some_iff.mp meanings
        obtain ⟨gs, tail, rfl⟩ := Option.map_eq_some_iff.mp rest
        obtain ⟨⟨tidy, plain⟩, others⟩ := List.forall_mem_cons.mp neat
        exact .cons ⟨⟨head, (Exp.tidy_tape _ _).mpr tidy⟩, plain⟩ (ih others gs tail)

theorem eq_zero (denotes : TapesDenote s alphabets es F) (zero : es.any Exp.isZero = true) :
    F = 0 := by
  induction denotes with
  | nil => cases zero
  | cons head _ ih =>
    rw [List.any_cons, Bool.or_eq_true] at zero
    rcases zero with first | later
    · rw [(tape K s _).eq_zero head first, TupleSeries.zero_cross]
    · rw [ih later, TupleSeries.cross_zero]

/-- Labels on all tapes spell words on them. -/
theorem eq_ofWords {labels : List Label} (denotes : TapesDenote s alphabets es F)
    (found : es.mapM ExpressionSet.labelOf? = some labels) :
    F = .ofWords (labels.map Label.letters) := by
  induction denotes generalizing labels with
  | nil =>
    cases found
    rfl
  | @cons alphabet _ e es f F head _ ih =>
    rw [List.mapM_cons] at found
    obtain ⟨l, first, found⟩ := Option.bind_eq_some_iff.mp found
    obtain ⟨ls, rest, found⟩ := Option.bind_eq_some_iff.mp found
    cases found
    have spelled : f = .ofWord l.letters := by
      cases e with
      | one =>
        cases first
        exact (tape K s alphabet).unique head (tape K s alphabet).one
      | atom l' =>
        cases first
        exact (Exp.meaning_atom.mp head.1.1).2.2
      | _ => cases first
    rw [spelled, ih rest]
    rfl

end TapesDenote

theorem ofWords_of_empty {vs : List (List Char)} (empty : ∀ v ∈ vs, v = []) :
    (TupleSeries.ofWords vs : TupleSeries K) = 1 := by
  refine TupleSeries.tensor_of_one fun f member => ?_
  obtain ⟨v, listed, rfl⟩ := List.mem_map.mp member
  rw [empty v listed]
  rfl

/-- Expressions on all tapes are joined to a tuple of what they denote. -/
theorem joined (labels : s.labels = .tuple (alphabets.map .nullable))
    (denotes : TapesDenote s alphabets es F) :
    ∃ r, s.tuple es = .ok r ∧ (joint K labels).Denotes r F := by
  obtain ⟨⟨fs, meanings, value⟩, neat⟩ := TapesDenote.iff_tapeMeanings.mp denotes
  refine ⟨_, ExpressionSet.tuple_eq_ok.mpr ⟨⟨alphabets.map .nullable, ?_, ?_⟩, rfl⟩, ?_,
    ExpressionSet.neat_joinTapes neat⟩
  · rw [labels]
    rfl
  · rw [denotes.length, List.length_map]
  have node : (s.tapeNode es).tupleMeaning (alphabets.map .nullable) = some F := by
    unfold ExpressionSet.tapeNode
    split
    · rename_i zero
      rw [denotes.eq_zero (Bool.and_eq_true_iff.mp zero).2]
      rfl
    · rw [value, Exp.tupleMeaning, meanings]
      rfl
  cases found : es.mapM ExpressionSet.labelOf? with
  | none => rwa [ExpressionSet.joinTapes_of_none found]
  | some ls =>
    rw [ExpressionSet.joinTapes_of_labels found]
    split
    · rename_i ones
      have empty : ∀ v ∈ ls.map Label.letters, v = [] := by
        intro v member
        obtain ⟨l, listed, rfl⟩ := List.mem_map.mp member
        exact Label.letters_of_isOne (Label.allOne_iff.mp ones l listed)
      rw [denotes.eq_ofWords found, ofWords_of_empty empty]
      rfl
    · split
      · rename_i member
        rw [labels] at member
        rw [Exp.tupleMeaning, if_pos member, denotes.eq_ofWords found]
        rfl
      · exact node

end Semantics

end WeightedAutomata
