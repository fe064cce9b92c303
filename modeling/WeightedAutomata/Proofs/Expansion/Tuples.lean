import WeightedAutomata.Proofs.Expansion.Splitting
import WeightedAutomata.Proofs.Expression.Joint
import WeightedAutomata.Proofs.Expression.Tapes

/-! Expansions of tuples: all tapes move at once, and those that have ended stand still. -/

set_option linter.unusedSectionVars false

namespace WeightedAutomata

open scoped Weights

open Semantics (tape joint TapesDenote)

variable {K : Type} [Weights K] [Weights.Lawful K]
variable {s : ExpressionSet} {alphabet : Alphabet} {alphabets : List Alphabet}

/-- Pairs of members add up to what the two sums make together. -/
theorem Folds.product {X Y Z A B C : Type} [AddCommMonoid A] [AddCommMonoid B] [AddCommMonoid C]
    {first : X → A → Prop} {second : Y → B → Prop} {both : Z → C → Prop} (op : A → B → C)
    {pair : X → Y → Z} {xs : List X} {ys : List Y} {f : A} {g : B}
    (zero_op : ∀ b, op 0 b = 0) (op_zero : ∀ a, op a 0 = 0)
    (add_op : ∀ a a' b, op (a + a') b = op a b + op a' b)
    (op_add : ∀ a b b', op a (b + b') = op a b + op a b')
    (paired : ∀ {x y a b}, first x a → second y b → both (pair x y) (op a b))
    (left : Folds first (· + ·) 0 xs f) (right : Folds second (· + ·) 0 ys g) :
    Folds both (· + ·) 0 (xs.flatMap fun x => ys.map fun y => pair x y) (op f g) := by
  have row {x : X} {a : A} (head : first x a) :
      Folds both (· + ·) 0 (ys.map fun y => pair x y) (op a g) := by
    induction ys generalizing g with
    | nil =>
      rw [nil_iff.mp right, op_zero]
      exact nil_iff.mpr rfl
    | cons y ys ih =>
      obtain ⟨b, h, here, tail, rfl⟩ := cons_iff.mp right
      rw [op_add]
      exact cons (paired head here) (ih tail)
  induction xs generalizing f with
  | nil =>
    rw [nil_iff.mp left, zero_op]
    exact nil_iff.mpr rfl
  | cons x xs ih =>
    obtain ⟨a, h, head, tail, rfl⟩ := cons_iff.mp left
    rw [List.flatMap_cons, add_op]
    exact append (row head) (ih tail)

/-! ### Readings with labels -/

/-- Labels on the tapes that spell nothing are the empty word. -/
theorem LabelSet.allOne_of_letters {labels : List Label}
    (member : containsEach (alphabets.map .nullable) labels = true)
    (empty : ∀ l ∈ labels, l.letters = []) : Label.allOne labels = true := by
  induction labels generalizing alphabets with
  | nil => rfl
  | cons l labels ih =>
    cases alphabets with
    | nil => cases member
    | cons a alphabets =>
      obtain ⟨first, rest⟩ := containsEach_cons.mp member
      obtain ⟨head, tail⟩ := List.forall_mem_cons.mp empty
      rw [Label.allOne, ih rest tail, Bool.and_true, ← Bool.not_eq_false]
      exact fun notOne => letters_ne_nil rfl first notOne head

namespace Labelling

/-- Expressions on one tape, with letters for labels. -/
def tape (K : Type) [Weights K] [Weights.Lawful K] (s : ExpressionSet) (alphabet : Alphabet) :
    Labelling K { s with labels := .nullable alphabet } (WordSeries K) :=
  { Semantics.tape K s alphabet with
    ofLabel := fun l => .ofWord l.letters
    Valid := fun l => (LabelSet.nullable alphabet).contains l = true ∧ l.isOne = false }

/-- Expressions on all tapes, with tuples for labels. -/
def joint (K : Type) [Weights K] [Weights.Lawful K] {s : ExpressionSet}
    (labels : s.labels = .tuple (alphabets.map .nullable)) : Labelling K s (TupleSeries K) :=
  { Semantics.joint K labels with
    ofLabel := TupleSeries.ofLabel
    Valid := fun l =>
      (LabelSet.tuple (alphabets.map .nullable)).contains l = true ∧ l.isOne = false }

def gradedTape (K : Type) [Weights K] [Weights.Lawful K] (s : ExpressionSet)
    (alphabet : Alphabet) : (tape K s alphabet).Graded where
  proper := {
    carrier := { f | f [] = 0 }
    zero_mem' := rfl
    add_mem' := fun {f g} left right => by
      change f [] + g [] = 0
      rw [left, right, add_zero] }
  ofLabel_mul {l} f valid := by
    have single : (LabelSet.nullable alphabet).isTuple = false := rfl
    have letters := LabelSet.letters_ne_nil single valid.1 valid.2
    change ((WordSeries.ofWord l.letters : WordSeries K) * f) [] = 0
    rw [WordSeries.mul_nil, WordSeries.ofWord, if_neg letters.symm, zero_mul]
  atom denotes := by
    obtain ⟨member, _, rfl⟩ := Exp.meaning_atom.mp denotes.1.1
    exact ⟨⟨member, denotes.1.2⟩, denotes.1.2, rfl⟩
  starred {f g k} proper star := by
    obtain ⟨c, defined, rfl⟩ := WordSeries.star?_eq_some.mp star
    have constant : (k • 1 + f : WordSeries K) [] = k := by
      rw [WordSeries.add_apply, WordSeries.smul_apply, WordSeries.one_nil, mul_one]
      exact (congrArg (k + ·) proper).trans (add_zero k)
    have rest : (k • 1 + f : WordSeries K).proper = f := by
      refine WordSeries.ext_shift proper.symm fun c => ?_
      rw [WordSeries.shift_proper, WordSeries.shift_add, WordSeries.shift_smul,
        WordSeries.shift_one, smul_zero, zero_add]
    rw [constant] at defined
    refine ⟨c, defined, ?_⟩
    rw [rest]
    exact WordSeries.star_eq c proper
  conjunction denotes := denotes.2
  shuffle denotes := denotes.2
  complement denotes := denotes.2
  transposition denotes := denotes.2

def gradedJoint (K : Type) [Weights K] [Weights.Lawful K] {s : ExpressionSet}
    (labels : s.labels = .tuple (alphabets.map .nullable)) : (joint K labels).Graded where
  proper := {
    carrier := { f | f.IsProper }
    zero_mem' := fun _ _ => rfl
    add_mem' := fun {f g} left right us empty => by
      rw [TupleSeries.add_apply, left us empty, right us empty, add_zero] }
  ofLabel_mul {l} f valid := by
    refine TupleSeries.IsProper.mul ?_ f
    cases l with
    | tuple ls =>
      refine TupleSeries.IsProper.ofWords fun empty => ?_
      have ones := LabelSet.allOne_of_letters valid.1 fun l listed =>
        empty _ (List.mem_map_of_mem listed)
      exact Bool.false_ne_true (valid.2.symm.trans ones)
    | _ => cases valid.1
  atom {l f} denotes := by
    obtain ⟨meaning, notOne, _⟩ := denotes
    unfold Exp.tupleMeaning at meaning
    split at meaning
    · rename_i member
      exact ⟨⟨member, notOne⟩, notOne, (Option.some.inj meaning).symm⟩
    · cases meaning
  starred {f g k} proper star := by
    obtain ⟨c, defined, rfl⟩ := TupleSeries.star?_eq_some.mp star
    have constant : (k • 1 + f : TupleSeries K) [] = k := by
      rw [TupleSeries.add_apply, TupleSeries.smul_apply, TupleSeries.one_nil, mul_one,
        proper [] nofun, add_zero]
    have rest : (k • 1 + f : TupleSeries K).proper = f := TupleSeries.proper_add k proper
    rw [constant] at defined
    refine ⟨c, defined, ?_⟩
    conv_lhs => rw [TupleSeries.star_eq, rest]
    rw [rest]
  conjunction denotes := denotes.2.2
  shuffle denotes := denotes.2.2
  complement denotes := denotes.2.2
  transposition denotes := denotes.2.2

end Labelling

/-! ### Moves of the tapes -/

namespace Expansion

/-- All ways to choose a move on each tape. -/
def choices : List (List (Label × List (Exp K × K))) →
    List (List Label × List (List (Exp K) × K))
  | [] => [([], [([], Weights.one)])]
  | moves :: rest => moves.flatMap fun (l, following) => (choices rest).map fun (ls, terms) =>
    (l :: ls, following.flatMap fun (e, v) => terms.map fun (es, w) => (e :: es, Weights.mul v w))

theorem jointMoves_eq (moves : List (List (Label × List (Exp K × K)))) (labels : List Label)
    (terms : List (List (Exp K) × K)) : jointMoves moves labels terms =
      (choices moves).map fun (ls, rest) => (labels ++ ls,
        terms.flatMap fun (es, v) => rest.map fun (fs, w) => (es ++ fs, Weights.mul v w)) := by
  induction moves generalizing labels terms with
  | nil =>
    have unit (v : K) : Weights.mul v Weights.one = v := mul_one v
    simp [jointMoves, choices, unit]
  | cons first rest ih =>
    have assoc (u v w : K) : Weights.mul (Weights.mul u v) w = Weights.mul u (Weights.mul v w) :=
      mul_assoc u v w
    simp only [jointMoves, choices, ih, List.map_flatMap, List.map_map, List.flatMap_assoc,
      List.flatMap_map, Function.comp_def, List.append_assoc, List.singleton_append, assoc]

theorem jointMoves_start (moves : List (List (Label × List (Exp K × K)))) :
    jointMoves moves [] [([], Weights.one)] = choices moves := by
  have unit (w : K) : Weights.mul Weights.one w = w := one_mul w
  rw [jointMoves_eq]
  simp [unit]

/-- What one move on a tape stands for. -/
def MoveDenotes (K : Type) [Weights K] [Weights.Lawful K] (s : ExpressionSet) (alphabet : Alphabet)
    (move : Label × List (Exp K × K)) (f : WordSeries K) : Prop :=
  (LabelSet.nullable alphabet).contains move.1 = true ∧
    (move.1.isOne = true → ∀ term ∈ move.2, term.1 = .one) ∧
    ∃ g, Folds (Combination.TermDenotes (tape K s alphabet)) (· + ·) 0 move.2 g ∧
      f = .ofWord move.1.letters * g

/-- What one weighted tuple stands for. -/
def TupleTerm (s : ExpressionSet) (alphabets : List Alphabet) (term : List (Exp K) × K)
    (F : TupleSeries K) : Prop := ∃ G, TapesDenote s alphabets term.1 G ∧ F = term.2 • G

/-- What moves on all tapes stand for. -/
def ChoiceDenotes (s : ExpressionSet) (alphabets : List Alphabet)
    (choice : List Label × List (List (Exp K) × K)) (F : TupleSeries K) : Prop :=
  LabelSet.containsEach (alphabets.map .nullable) choice.1 = true ∧
    (Label.allOne choice.1 = true → ∀ term ∈ choice.2, ∀ e ∈ term.1, e = .one) ∧
    ∃ G, Folds (TupleTerm s alphabets) (· + ·) 0 choice.2 G ∧
      F = .ofWords (choice.1.map Label.letters) * G

variable {x : Expansion K} {f : WordSeries K} {F G : TupleSeries K}

/-- The moves of a tape add up to what it denotes. -/
theorem denotes_tapeMoves (splits : (Labelling.tape K s alphabet).Splits x f) :
    Folds (MoveDenotes K s alphabet) (· + ·) 0 (tapeMoves x) f := by
  obtain ⟨g, parts, rfl⟩ := splits
  refine Folds.append ?_ ?_
  · split
    · rename_i none
      rw [Weights.isZero_iff.mp none, zero_smul]
      exact Folds.nil_iff.mpr rfl
    · refine Folds.singleton_iff.mpr ⟨rfl, fun _ term member => ?_, x.constant • 1, ?_, ?_⟩
      · rw [List.mem_singleton.mp member]
      · exact Folds.singleton_iff.mpr ⟨1, (tape K s alphabet).one, rfl⟩
      · exact (one_mul _).symm
  · generalize x.polynomials = polynomials at parts
    induction polynomials generalizing g with
    | nil => exact Folds.nil_iff.mpr (Folds.nil_iff.mp parts)
    | cons part rest ih =>
      obtain ⟨_, h, ⟨valid, g', denotes, rfl⟩, tail, rfl⟩ := Folds.cons_iff.mp parts
      refine Folds.cons ⟨valid.1, fun one => ?_, g', denotes, rfl⟩ (ih h tail)
      exact absurd one (Bool.eq_false_iff.mp valid.2)

/-- The moves of a tape and those of the tapes behind it. -/
theorem MoveDenotes.cons {move : Label × List (Exp K × K)}
    {choice : List Label × List (List (Exp K) × K)} (head : MoveDenotes K s alphabet move f)
    (rest : ChoiceDenotes s alphabets choice F) : ChoiceDenotes s (alphabet :: alphabets)
      (move.1 :: choice.1, move.2.flatMap fun (e, v) =>
        choice.2.map fun (es, w) => (e :: es, Weights.mul v w)) (.cross f F) := by
  obtain ⟨member, stops, g, terms, rfl⟩ := head
  obtain ⟨members, stop, G, tuples, rfl⟩ := rest
  refine ⟨LabelSet.containsEach_cons.mpr ⟨member, members⟩, fun ones => ?_, .cross g G, ?_, ?_⟩
  · rw [Label.allOne, Bool.and_eq_true] at ones
    intro term listed
    obtain ⟨⟨e, v⟩, first, listed⟩ := List.mem_flatMap.mp listed
    obtain ⟨⟨es, w⟩, last, rfl⟩ := List.mem_map.mp listed
    exact List.forall_mem_cons.mpr ⟨stops ones.1 _ first, stop ones.2 _ last⟩
  · refine Folds.product TupleSeries.cross TupleSeries.zero_cross TupleSeries.cross_zero
      (fun _ _ _ => TupleSeries.add_cross _ _ _) (fun _ _ _ => TupleSeries.cross_add _ _ _)
      ?_ terms tuples
    rintro ⟨e, v⟩ ⟨es, w⟩ _ _ ⟨a, head, rfl⟩ ⟨A, tail, rfl⟩
    refine ⟨.cross a A, .cons head tail, ?_⟩
    rw [TupleSeries.smul_cross, TupleSeries.cross_smul, smul_smul]
    rfl
  · rw [← TupleSeries.cross_mul_cross]
    rfl

section

variable {mirrored : ExpressionSet → Exp K → Result (Expansion K)} {es : List (Exp K)} {e : Exp K}

/-- The expansion of an expression on one tape. -/
theorem splits_tape (mirrored : ExpressionSet → Exp K → Result (Expansion K))
    (denotes : (tape K s alphabet).Denotes e f) :
    ∃ x, ofExpWith mirrored { s with labels := .nullable alphabet } e = .ok x ∧
      (Labelling.tape K s alphabet).Splits x f :=
  (Labelling.gradedTape K s alphabet).splits_ofExpWith (fun denotes => nomatch denotes.1.1) denotes

/-- The tapes from some place on are expanded, and the choices of their moves add up to what they
denote. -/
theorem denotes_ofTapes (mirrored : ExpressionSet → Exp K → Result (Expansion K))
    (front : List Alphabet) {back : List Alphabet}
    (labels : s.labels = .tuple ((front ++ back).map .nullable))
    (denotes : TapesDenote s back es F) : ∃ xs, ofTapes mirrored s front.length es = .ok xs ∧
      Folds (ChoiceDenotes s back) (· + ·) 0 (choices (xs.map tapeMoves)) F := by
  induction denotes generalizing front with
  | nil =>
    refine ⟨[], rfl, Folds.singleton_iff.mpr ⟨rfl, fun _ term member => ?_, 1, ?_, ?_⟩⟩
    · rw [List.mem_singleton.mp member]
      exact nofun
    · exact Folds.singleton_iff.mpr ⟨1, .nil, (one_smul K 1).symm⟩
    · exact (mul_one 1).symm
  | @cons a back e es f F head _ ih =>
    have here : s.tape? front.length = some { s with labels := .nullable a } := by
      have found := ExpressionSet.tape?_append (labels.trans
        (by rw [List.map_append, List.map_cons] : _ = LabelSet.tuple (_ ++ .nullable a :: _)))
      rwa [List.length_map] at found
    obtain ⟨x, first, splits⟩ := splits_tape mirrored head
    obtain ⟨xs, others, denotes⟩ := ih (front ++ [a])
      (labels.trans (by rw [List.append_assoc, List.singleton_append]))
    rw [List.length_append, List.length_singleton] at others
    refine ⟨x :: xs, ?_, ?_⟩
    · rw [ofTapes, here]
      dsimp only
      rw [first, others]
      rfl
    · exact Folds.product TupleSeries.cross TupleSeries.zero_cross TupleSeries.cross_zero
        (fun _ _ _ => TupleSeries.add_cross _ _ _) (fun _ _ _ => TupleSeries.cross_add _ _ _)
        MoveDenotes.cons (denotes_tapeMoves splits) denotes

/-! ### Tuples -/

variable {labels : s.labels = .tuple (alphabets.map .nullable)}

theorem TapesDenote.eq_one (denotes : TapesDenote s alphabets es F) (ones : ∀ e ∈ es, e = .one) :
    F = 1 := by
  induction denotes with
  | nil => rfl
  | cons head _ ih =>
    obtain ⟨rfl, rest⟩ := List.forall_mem_cons.mp ones
    rw [(tape K s _).unique head (tape K s _).one, ih rest, TupleSeries.one_cross_one]

/-- Tapes that all have ended add their weights to the constant. -/
theorem constants_of_ones {terms : List (List (Exp K) × K)}
    (folds : Folds (TupleTerm s alphabets) (· + ·) 0 terms F)
    (ones : ∀ term ∈ terms, ∀ e ∈ term.1, e = .one) (c : K) :
    (terms.foldl (fun sum (_, w) => Weights.add sum w) c) • (1 : TupleSeries K) = c • 1 + F := by
  induction terms generalizing c F with
  | nil => rw [Folds.nil_iff.mp folds, add_zero, List.foldl_nil]
  | cons term rest ih =>
    obtain ⟨_, G, ⟨H, tapes, rfl⟩, tail, rfl⟩ := Folds.cons_iff.mp folds
    obtain ⟨first, others⟩ := List.forall_mem_cons.mp ones
    rw [List.foldl_cons, ih tail others, TapesDenote.eq_one tapes first, ← add_assoc, ← add_smul]
    rfl

/-- Weighted tuples of expressions are joined and added. -/
theorem joined_terms {terms : List (List (Exp K) × K)} {p : Combination K}
    (start : Combination.Denotes (joint K labels) p G)
    (folds : Folds (TupleTerm s alphabets) (· + ·) 0 terms F) :
    ∃ q, terms.foldlM (fun (p : Combination K) (es, w) => do
        return p.addTerm (← s.tuple es) w) p = (.ok q : Result (Combination K)) ∧
      Combination.Denotes (joint K labels) q (G + F) := by
  induction terms generalizing p F G with
  | nil =>
    rw [Folds.nil_iff.mp folds, add_zero]
    exact ⟨p, rfl, start⟩
  | cons term rest ih =>
    obtain ⟨es, w⟩ := term
    obtain ⟨_, G', ⟨H, tapes, rfl⟩, tail, rfl⟩ := Folds.cons_iff.mp folds
    obtain ⟨r, built, denotes⟩ := Semantics.joined labels tapes
    obtain ⟨q, rest, total⟩ := ih (Combination.denotes_addTerm start denotes w) tail
    refine ⟨q, ?_, ?_⟩
    · rw [List.foldlM_cons]
      dsimp only
      rw [built]
      exact rest
    · rwa [← add_assoc]

/-- One choice of moves on all tapes is added. -/
theorem splits_addJointMove {choice : List Label × List (List (Exp K) × K)}
    (splits : (Labelling.joint K labels).Splits x F)
    (denotes : ChoiceDenotes s alphabets choice G) :
    ∃ y, addJointMove s x choice.1 choice.2 = .ok y ∧
      (Labelling.joint K labels).Splits y (F + G) := by
  obtain ⟨member, stops, H, terms, rfl⟩ := denotes
  obtain ⟨F', parts, rfl⟩ := splits
  unfold addJointMove
  have all : choice.1.all Label.isOne = Label.allOne choice.1 := by
    rw [Bool.eq_iff_iff, List.all_eq_true, Label.allOne_iff]
  rw [all]
  split
  · rename_i ones
    refine ⟨_, rfl, F', parts, ?_⟩
    have empty : (TupleSeries.ofWords (choice.1.map Label.letters) : TupleSeries K) = 1 := by
      refine Semantics.ofWords_of_empty fun v listed => ?_
      obtain ⟨l, there, rfl⟩ := List.mem_map.mp listed
      exact Label.letters_of_isOne (Label.allOne_iff.mp ones l there)
    rw [empty, one_mul, constants_of_ones terms (stops ones), add_right_comm]
  · rename_i some
    have contained : s.labels.contains (.tuple choice.1) = true := by
      rw [labels]
      exact member
    rw [if_pos contained]
    obtain ⟨p, built, sum⟩ :=
      joined_terms (Combination.denotes_zero (I := Semantics.joint K labels)) terms
    rw [built]
    refine ⟨_, rfl, _, Labelling.parts_addPolynomial parts
      ⟨member, Bool.eq_false_iff.mpr some⟩ (zero_add H ▸ sum), ?_⟩
    rw [constant_addPolynomial, add_assoc]
    rfl

/-- The expansion of a tuple is found, and it splits the series of all tapes. -/
theorem splits_tuple (denotes : (joint K labels).Denotes (.tuple es) F) :
    ∃ x, ofExpWith mirrored s (.tuple es) = .ok x ∧ (Labelling.joint K labels).Splits x F := by
  obtain ⟨meaning, tidy, plain⟩ := denotes
  obtain ⟨fs, meanings, rfl⟩ := Option.map_eq_some_iff.mp meaning
  have tapes : TapesDenote s alphabets es (.tensor fs) :=
    Semantics.TapesDenote.iff_tapeMeanings.mpr ⟨⟨fs, meanings, rfl⟩, fun e member =>
      ⟨Exp.tidyEach_iff.mp tidy e member, Exp.plainEach_iff.mp plain e member⟩⟩
  obtain ⟨xs, expanded, folds⟩ := denotes_ofTapes mirrored [] labels tapes
  have steps {cs : List (List Label × List (List (Exp K) × K))} {x : Expansion K}
      {F G : TupleSeries K} (start : (Labelling.joint K labels).Splits x F)
      (folds : Folds (ChoiceDenotes s alphabets) (· + ·) 0 cs G) :
      ∃ y, cs.foldlM (fun x (labels, terms) => addJointMove s x labels terms) x = .ok y ∧
        (Labelling.joint K labels).Splits y (F + G) := by
    induction cs generalizing x F G with
    | nil =>
      rw [Folds.nil_iff.mp folds, add_zero]
      exact ⟨x, rfl, start⟩
    | cons choice rest ih =>
      obtain ⟨_, H, head, tail, rfl⟩ := Folds.cons_iff.mp folds
      obtain ⟨y, first, splits⟩ := splits_addJointMove start head
      obtain ⟨z, others, total⟩ := ih splits tail
      refine ⟨z, ?_, ?_⟩
      · rw [List.foldlM_cons]
        dsimp only
        rw [first]
        exact others
      · rwa [← add_assoc]
  obtain ⟨y, built, splits⟩ := steps Labelling.splits_zero folds
  refine ⟨y, ?_, zero_add (TupleSeries.tensor fs) ▸ splits⟩
  have isTuple : s.labels.isTuple = true := by
    rw [labels]
    rfl
  rw [ofExpWith, if_pos isTuple]
  change (do tuple s (← ofTapes mirrored s 0 es) : Result (Expansion K)) = _
  have tapes : ofTapes mirrored s 0 es = .ok xs := expanded
  rw [tapes]
  change tuple s xs = _
  rw [tuple, jointMoves_start]
  exact built

/-- The expansion of every expression is found, and it splits what the expression denotes. -/
theorem splits_ofExp (denotes : (joint K labels).Denotes e F) :
    ∃ x, ofExp s e = .ok x ∧ (Labelling.joint K labels).Splits x F := by
  unfold ofExp
  cases e.depth with
  | zero => exact (Labelling.gradedJoint K labels).splits_ofExpWith splits_tuple denotes
  | succ n => exact (Labelling.gradedJoint K labels).splits_ofExpWith splits_tuple denotes

end

end Expansion

end WeightedAutomata
