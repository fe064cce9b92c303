import WeightedAutomata.Proofs.Expansion.Coefficients
import WeightedAutomata.Proofs.Expansion.Recursion

/-! The expansion of an expression is its series, split by the first letter. -/

set_option linter.unusedSectionVars false

namespace WeightedAutomata

open scoped Weights

open Interpretation (language shallow)

variable {K : Type} [Weights K] [Weights.Lawful K]
variable {s : ExpressionSet} {single : s.labels.isTuple = false}

namespace Expansion

/-- The constant is the weight of the empty word, and the polynomial of each letter denotes what
follows that letter. -/
structure Expands (s : ExpressionSet) (single : s.labels.isTuple = false) (x : Expansion K)
    (f : WordSeries K) : Prop where
  constant : x.constant = f []
  follows : Follows (language K s single).toSemantics x.polynomials fun c => WordSeries.shift c f

variable {x y : Expansion K} {e e' : Exp K} {f g : WordSeries K}

theorem constant_addPolynomial (x : Expansion K) (l : Label) (p : Combination K) :
    (x.addPolynomial l p).constant = x.constant := by
  unfold addPolynomial
  split <;> rfl

theorem constant_foldl {α : Type} {step : Expansion K → α → Expansion K}
    (keeps : ∀ x a, (step x a).constant = x.constant) (x : Expansion K) (as : List α) :
    (as.foldl step x).constant = x.constant := by
  induction as generalizing x with
  | nil => rfl
  | cons a as ih => rw [List.foldl_cons, ih, keeps]

theorem expands_ofWeight (w : K) : Expands s single (ofWeight w) (w • 1) where
  constant := by
    rw [WordSeries.smul_apply, WordSeries.one_nil, mul_one]
    rfl
  follows := Follows.nil.congr fun c => by
    rw [WordSeries.shift_smul, WordSeries.shift_one, smul_zero]

theorem expands_zero : Expands s single (ofWeight Weights.zero) (0 : WordSeries K) := by
  rw [← zero_smul K (1 : WordSeries K)]
  exact expands_ofWeight 0

theorem expands_one : Expands s single (ofWeight Weights.one) (1 : WordSeries K) := by
  rw [← one_smul K (1 : WordSeries K)]
  exact expands_ofWeight 1

theorem expands_letter {d : Char} : Expands s single
    ((ofWeight Weights.zero).addPolynomial (.letter d) (.monomial .one Weights.one))
    (WordSeries.ofWord [d] : WordSeries K) where
  constant := constant_addPolynomial _ _ _
  follows := by
    have monomial : Combination.Denotes (language K s single).toSemantics (.monomial .one Weights.one)
        ((Weights.one : K) • 1) :=
      Combination.denotes_monomial (language K s single).one _
    refine ((expands_zero (s := s)).follows.addPolynomial monomial).congr fun c => ?_
    rw [WordSeries.shift_ofWord, WordSeries.shift_zero, WordSeries.ofWord_nil, zero_add]
    split
    · exact one_smul K 1
    · rfl

theorem expands_add (left : Expands s single x f) (right : Expands s single y g) :
    Expands s single (x.add y) (f + g) where
  constant := by
    rw [WordSeries.add_apply, ← left.constant, ← right.constant]
    exact constant_foldl (fun _ _ => constant_addPolynomial _ _ _) _ y.polynomials
  follows := Follows.fold (fun _ h => h) (fun _ => rfl) Follows.addPolynomial right.follows
    left.follows

theorem expands_scaleLeft (expands : Expands s single x f) (k : K) :
    Expands s single (x.scaleLeft k) (k • f) where
  constant := by
    rw [WordSeries.smul_apply, ← expands.constant]
    rfl
  follows := expands.follows.scaled (k • ·) (smul_zero k)
    fun denotes => Combination.denotes_scaleLeft denotes k

theorem expands_scaleRight (expands : Expands s single x f) (k : K) :
    Expands s single (x.scaleRight s k) (k • f) where
  constant := by
    rw [WordSeries.smul_apply, ← expands.constant, mul_comm]
    rfl
  follows := expands.follows.scaled (f := fun p => p.scaleRight s k) (k • ·) (smul_zero k)
    fun denotes => Combination.denotes_scaleRight denotes k

/-- Polynomials that are changed one by one behind a constant. -/
theorem follows_mapPolynomials {c : K} {change : Combination K → Combination K}
    (op : WordSeries K → WordSeries K) (zero : op 0 = 0)
    (changed : ∀ {p h}, Combination.Denotes (language K s single).toSemantics p h →
      Combination.Denotes (language K s single).toSemantics (change p) (op h))
    (expands : Expands s single x f) :
    Follows (language K s single).toSemantics (x.mapPolynomials c change).polynomials
      fun d => op (WordSeries.shift d f) := by
  refine (Follows.fold (fun _ => op) (fun _ => zero) ?_ expands.follows Follows.nil).congr ?_
  · intro y G d p h follows denotes
    exact follows.addPolynomial (changed denotes)
  · exact fun d => zero_add _

theorem constant_mapPolynomials (c : K) (change : Combination K → Combination K)
    (x : Expansion K) : (x.mapPolynomials c change).constant = c :=
  constant_foldl (fun _ _ => constant_addPolynomial _ _ _) _ _

/-! ### Products -/

theorem expands_followedBy (expands : Expands s single x f)
    (denotes : (language K s single).Denotes e g) :
    Expands s single (x.followedBy s e) (f.proper * g) where
  constant := by
    rw [WordSeries.mul_nil, WordSeries.proper_nil, zero_mul]
    exact constant_mapPolynomials _ _ _
  follows := by
    refine (follows_mapPolynomials (· * g) (zero_mul g) (Combination.denotes_map_mul denotes)
      expands).congr fun c => ?_
    rw [WordSeries.shift_mul, WordSeries.proper_nil, zero_smul, zero_add, WordSeries.shift_proper]

/-! ### Conjunctions and shuffles -/

theorem expands_conjunction (left : Expands s single x f) (right : Expands s single y g) :
    Expands s single (conjunction s x y) (WordSeries.pointwise f g) where
  constant := by
    rw [WordSeries.pointwise_apply, ← left.constant, ← right.constant]
    refine constant_foldl (fun z term => ?_) (ofWeight (Weights.mul x.constant y.constant)) _
    dsimp only
    split
    · exact constant_addPolynomial _ _ _
    · rfl
  follows := by
    refine (Follows.fold (fun c h => WordSeries.pointwise h (WordSeries.shift c g))
      (fun _ => WordSeries.zero_pointwise _) ?_ left.follows Follows.nil).congr ?_
    · intro z G d p h follows denotes
      have other := right.follows.after d
      dsimp only
      split
      · rename_i q present
        rw [present] at other
        exact follows.addPolynomial (Combination.denotes_pairwise WordSeries.zero_pointwise
          WordSeries.pointwise_zero WordSeries.add_pointwise WordSeries.pointwise_add
          WordSeries.smul_pointwise WordSeries.pointwise_smul (language K s single).conjoined
          denotes other)
      · rename_i absent
        rw [absent] at other
        refine follows.congr fun c => ?_
        have nothing : WordSeries.shift d g = 0 := Folds.nil_iff.mp other
        rw [nothing, WordSeries.pointwise_zero, add_zero, ite_self]
    · exact fun c => zero_add _

theorem expands_shuffle (left : Expands s single x f) (right : Expands s single y g)
    (leftDenotes : (language K s single).Denotes e f)
    (rightDenotes : (language K s single).Denotes e' g) :
    Expands s single (shuffle s e e' x y) (WordSeries.shuffle f g) where
  constant := by
    rw [WordSeries.shuffle_nil, ← left.constant, ← right.constant]
    unfold shuffle
    rw [constant_foldl (fun _ _ => constant_addPolynomial _ _ _)]
    exact constant_mapPolynomials _ _ _
  follows := by
    have front : Follows (language K s single).toSemantics
        (x.mapPolynomials (Weights.mul x.constant y.constant) (·.map (s.shuffle · e'))).polynomials
        fun c => WordSeries.shuffle (WordSeries.shift c f) g :=
      follows_mapPolynomials (WordSeries.shuffle · g) (WordSeries.zero_shuffle g)
        (Combination.denotes_map (WordSeries.shuffle · g) (WordSeries.zero_shuffle g)
          (fun _ _ => WordSeries.add_shuffle _ _ _) (fun _ _ => WordSeries.smul_shuffle _ _ _)
          fun denotes => (language K s single).shuffled denotes rightDenotes) left
    refine (Follows.fold (fun _ h => WordSeries.shuffle f h) (fun _ => WordSeries.shuffle_zero f) ?_
      right.follows front).congr fun c => (WordSeries.shift_shuffle c f g).symm
    intro z G d p h follows denotes
    exact follows.addPolynomial (Combination.denotes_map (WordSeries.shuffle f)
      (WordSeries.shuffle_zero f) (fun _ _ => WordSeries.shuffle_add _ _ _)
      (fun _ _ => WordSeries.shuffle_smul _ _ _)
      (fun denotes => (language K s single).shuffled leftDenotes denotes) denotes)

/-! ### Stars and complements -/

theorem expands_star {c : K} (expands : Expands s single x f)
    (denotes : (language K s single).Denotes e (WordSeries.star c f.proper)) :
    Expands s single (x.mapPolynomials c fun p => (p.scaleLeft c).map (s.mul · e))
      (WordSeries.star c f.proper) where
  constant := by
    rw [constant_mapPolynomials, WordSeries.star_nil c (WordSeries.proper_nil f)]
  follows := by
    refine (follows_mapPolynomials (fun h => (c • h) * WordSeries.star c f.proper)
      ?_ ?_ expands).congr fun d => ?_
    · rw [smul_zero, zero_mul]
    · exact fun sum => Combination.denotes_map_mul denotes (Combination.denotes_scaleLeft sum c)
    · rw [WordSeries.shift_star c (WordSeries.proper_nil f), WordSeries.shift_proper,
        smul_mul_assoc]

theorem shift_complement (ls : LabelSet) (f : WordSeries K) (c : Char) :
    WordSeries.shift c (f.complement ls) =
      if ls.accepts c then (WordSeries.shift c f).complement ls else 0 := by
  ext u
  by_cases accepted : ls.accepts c = true
  · simp [WordSeries.complement, accepted]
  · simp [WordSeries.complement, accepted, Weights.ofBool_false]

/-- The expression of what follows the letter `c`. -/
theorem denotes_after (expands : Expands s single x f) (c : Char) :
    (language K s single).Denotes
      (((x.polynomials.get? (.letter c)).map fun p => p.toExp s).getD Exp.zero)
      (WordSeries.shift c f) := by
  have after := expands.follows.after c
  cases present : x.polynomials.get? (.letter c) with
  | none =>
    rw [present] at after
    have nothing : WordSeries.shift c f = 0 := Folds.nil_iff.mp after
    rw [nothing]
    exact (language K s single).zero
  | some p =>
    rw [present] at after
    exact Combination.denotes_toExp after

/-- The complements of what follows the letters of a list. -/
theorem expands_complementLetters {cs : List Char} {z : Expansion K} {G : Char → WordSeries K}
    (expands : Expands s single x f) (distinct : cs.Nodup)
    (start : Follows (language K s single).toSemantics z.polynomials G)
    (built : (cs.map Label.letter).foldlM (fun (sum : Expansion K) (l : Label) => do
      let inner := ((x.polynomials.get? l).map fun (p : Combination K) => p.toExp s).getD Exp.zero
      return sum.addPolynomial l (.monomial (← s.complement inner) Weights.one)) z = .ok y) :
    y.constant = z.constant ∧ Follows (language K s single).toSemantics y.polynomials
      fun c => if c ∈ cs then G c + (WordSeries.shift c f).complement s.labels else G c := by
  induction cs generalizing z G with
  | nil =>
    cases built
    exact ⟨rfl, start.congr fun c => (if_neg List.not_mem_nil).symm⟩
  | cons d cs ih =>
    obtain ⟨fresh, distinct⟩ := List.nodup_cons.mp distinct
    rw [List.map_cons, List.foldlM_cons] at built
    obtain ⟨next, step, built⟩ := Result.bind_eq_ok.mp built
    obtain ⟨r, complement, added⟩ := Result.bind_eq_ok.mp step
    cases added
    have denotes := (language K s single).complemented (denotes_after expands d) rfl complement
    have monomial := Combination.denotes_monomial denotes (Weights.one : K)
    obtain ⟨constant, follows⟩ := ih distinct (start.addPolynomial (d := d) monomial) built
    refine ⟨constant.trans (constant_addPolynomial _ _ _), follows.congr fun c => ?_⟩
    have scaled (h : WordSeries K) : (Weights.one : K) • h = h := one_smul K h
    by_cases same : c = d
    · subst same
      rw [if_neg fresh, if_pos rfl, if_pos List.mem_cons_self, scaled]
    · simp only [List.mem_cons, same, false_or, if_false]

theorem expands_complement {labels : List Label} (expands : Expands s single x f)
    (closed : complementLabels s = .ok labels) (built : complement s labels x = .ok y) :
    Expands s single y (f.complement s.labels) := by
  obtain ⟨a, alphabet, isClosed, rfl⟩ : ∃ a, s.labels = .letters a ∧ a.isOpen = false ∧
      labels = a.letters.map .letter := by
    unfold complementLabels at closed
    cases labelSet : s.labels with
    | letters a =>
      rw [labelSet] at closed
      cases isOpen : a.isOpen with
      | false =>
        simp only [LabelSet.isFree, LabelSet.generators?, LabelSet.closedLetters?, isOpen] at closed
        exact ⟨a, rfl, isOpen, (Except.ok.inj closed).symm⟩
      | true =>
        simp [LabelSet.isFree, LabelSet.generators?, LabelSet.closedLetters?, isOpen] at closed
    | tuple tapes => simp [labelSet, LabelSet.isTuple, LabelSet.tapes?] at single
    | _ =>
      rw [labelSet] at closed
      cases closed
  have distinct : a.letters.Nodup := a.sorted.imp fun below => Char.ne_of_lt below
  obtain ⟨constant, follows⟩ :=
    expands_complementLetters (z := ofWeight _) expands distinct Follows.nil built
  refine ⟨?_, follows.congr fun c => ?_⟩
  · rw [constant, WordSeries.complement, ← expands.constant]
    rfl
  · rw [shift_complement, zero_add, alphabet]
    simp [LabelSet.accepts, Alphabet.accepts, isClosed]

/-! ### Expressions -/

theorem expands_shuffleAll {es : List (Exp K)} {xs : List (Expansion K)} {fs : List (WordSeries K)}
    (denotes : List.Forall₂ (language K s single).Denotes es fs)
    (expands : List.Forall₂ (Expands s single) xs fs)
    (first : (language K s single).Denotes e f) (firstExpands : Expands s single x f) :
    Expands s single (shuffleAll s e x (es.zip xs))
      (WordSeries.shuffle f (fs.foldr WordSeries.shuffle 1)) := by
  induction denotes generalizing xs e x f with
  | nil =>
    cases expands
    rw [List.foldr_nil, WordSeries.shuffle_one]
    exact firstExpands
  | cons head _ ih =>
    cases expands with
    | cons headExpands rest =>
      rw [List.foldr_cons, ← WordSeries.shuffle_assoc]
      exact ih rest ((language K s single).shuffled first head)
        (expands_shuffle firstExpands headExpands first head)

theorem forget {n : Nat} (denotes : (shallow K s single n).Denotes e f) :
    (language K s single).Denotes e f :=
  ⟨denotes.1, denotes.2.1⟩

theorem proper_add (f : WordSeries K) : f.proper + f [] • 1 = f := by
  apply WordSeries.ext_shift
  · rw [WordSeries.add_apply, WordSeries.proper_nil, WordSeries.smul_apply, WordSeries.one_nil,
      mul_one, zero_add]
  · intro c
    rw [WordSeries.shift_add, WordSeries.shift_proper, WordSeries.shift_smul,
      WordSeries.shift_one, smul_zero, add_zero]

section

variable {mirrored : ExpressionSet → Exp K → Result (Expansion K)} {n : Nat}

mutual

theorem expands_ofExpWith (letterized : s.labels.isLetterized = true)
    (turned : ∀ {e : Exp K} {f : WordSeries K} {x : Expansion K},
      (shallow K s single n).Denotes (.transposition e) f →
      (do mirrored s (← s.transpose e)) = .ok x → Expands s single x f)
    {e : Exp K} {f : WordSeries K} {x : Expansion K} (denotes : (shallow K s single n).Denotes e f)
    (built : ofExpWith mirrored s e = .ok x) : Expands s single x f := by
  let I := shallow K s single n
  cases e with
  | zero =>
    cases built
    rw [I.unique denotes I.zero]
    exact expands_zero
  | one =>
    cases built
    rw [I.unique denotes I.one]
    exact expands_one
  | atom l =>
    have notOne : l.isOne = false := (Structural.shallow s n).atom.mp denotes.2
    obtain ⟨member, _, rfl⟩ := Exp.meaning_atom.mp denotes.1
    obtain ⟨c, rfl⟩ := LabelSet.letter_of_contains single letterized member notOne
    cases built
    exact expands_letter
  | sum es =>
    obtain ⟨_, fs, each, rfl⟩ := I.sum.mp denotes
    rw [ofExpWith] at built
    obtain ⟨xs, operands, built⟩ := Result.bind_eq_ok.mp built
    cases built
    have expanded := expands_ofEach letterized turned each operands
    rw [← zero_add (fs.foldr (· + ·) 0)]
    exact Folds.foldl expands_add expands_zero ⟨fs, expanded, rfl⟩
  | prod es =>
    obtain ⟨_, fs, each, rfl⟩ := I.prod.mp denotes
    rw [← one_mul (fs.foldr (· * ·) 1)]
    exact expands_ofFactors letterized turned each expands_one built
  | conjunction es =>
    obtain ⟨nonempty, fs, each, rfl⟩ := I.conjunction.mp denotes
    rw [ofExpWith] at built
    obtain ⟨xs, operands, built⟩ := Result.bind_eq_ok.mp built
    cases expands_ofEach letterized turned each operands with
    | nil =>
      cases each
      exact absurd rfl nonempty
    | cons first rest =>
      cases built
      exact Folds.foldl expands_conjunction first ⟨_, rest, rfl⟩
  | shuffle es =>
    obtain ⟨nonempty, fs, each, rfl⟩ := I.shuffles.mp denotes
    rw [ofExpWith] at built
    obtain ⟨xs, operands, built⟩ := Result.bind_eq_ok.mp built
    have expanded := expands_ofEach letterized turned each operands
    cases each with
    | nil => exact absurd rfl nonempty
    | cons head tail =>
      cases expanded with
      | cons first rest =>
        cases built
        exact expands_shuffleAll (tail.imp fun _ _ => forget) rest (forget head) first
  | star e =>
    obtain ⟨g, inner, star⟩ := I.star.mp denotes
    obtain ⟨k, constant, rfl⟩ := WordSeries.star?_eq_some.mp star
    rw [ofExpWith] at built
    obtain ⟨y, operand, built⟩ := Result.bind_eq_ok.mp built
    have expanded := expands_ofExpWith letterized turned inner operand
    obtain ⟨c, defined, built⟩ := Result.bind_eq_ok.mp built
    rw [expanded.constant, constant] at defined
    cases defined
    cases built
    exact expands_star expanded (forget denotes)
  | transposition e => exact turned denotes built
  | lweight w e =>
    obtain ⟨_, g, inner, rfl⟩ := I.lweight.mp denotes
    rw [ofExpWith] at built
    obtain ⟨y, operand, built⟩ := Result.bind_eq_ok.mp built
    cases built
    exact expands_scaleLeft (expands_ofExpWith letterized turned inner operand) w
  | rweight e w =>
    obtain ⟨_, g, inner, rfl⟩ := I.rweight.mp denotes
    rw [ofExpWith] at built
    obtain ⟨y, operand, built⟩ := Result.bind_eq_ok.mp built
    cases built
    exact expands_scaleRight (expands_ofExpWith letterized turned inner operand) w
  | complement e =>
    obtain ⟨_, g, inner, rfl⟩ := I.complement.mp denotes
    rw [ofExpWith] at built
    obtain ⟨labels, closed, built⟩ := Result.bind_eq_ok.mp built
    obtain ⟨y, operand, built⟩ := Result.bind_eq_ok.mp built
    exact expands_complement (expands_ofExpWith letterized turned inner operand) closed built
  | tuple es => cases denotes.1

theorem expands_ofEach (letterized : s.labels.isLetterized = true)
    (turned : ∀ {e : Exp K} {f : WordSeries K} {x : Expansion K},
      (shallow K s single n).Denotes (.transposition e) f →
      (do mirrored s (← s.transpose e)) = .ok x → Expands s single x f)
    {es : List (Exp K)} {fs : List (WordSeries K)} {xs : List (Expansion K)}
    (denotes : List.Forall₂ (shallow K s single n).Denotes es fs)
    (built : ofEach mirrored s es = .ok xs) : List.Forall₂ (Expands s single) xs fs := by
  match es, denotes with
  | [], .nil =>
    cases built
    exact .nil
  | e :: es, .cons head tail =>
    rw [ofEach] at built
    obtain ⟨x, first, built⟩ := Result.bind_eq_ok.mp built
    obtain ⟨xs, rest, built⟩ := Result.bind_eq_ok.mp built
    cases built
    exact .cons (expands_ofExpWith letterized turned head first)
      (expands_ofEach letterized turned tail rest)

theorem expands_ofFactors (letterized : s.labels.isLetterized = true)
    (turned : ∀ {e : Exp K} {f : WordSeries K} {x : Expansion K},
      (shallow K s single n).Denotes (.transposition e) f →
      (do mirrored s (← s.transpose e)) = .ok x → Expands s single x f)
    {es : List (Exp K)} {fs : List (WordSeries K)} {g : WordSeries K} {x y : Expansion K}
    (denotes : List.Forall₂ (shallow K s single n).Denotes es fs)
    (start : Expands s single x g) (built : ofFactors mirrored s es x = .ok y) :
    Expands s single y (g * fs.foldr (· * ·) 1) := by
  match es, fs, denotes with
  | [], [], .nil =>
    cases built
    rwa [List.foldr_nil, mul_one]
  | e :: es, h :: fs, .cons head tail =>
    rw [ofFactors] at built
    split at built
    · rename_i noConstant
      cases built
      -- Without a constant term only the first factor is split.
      have proper : g.proper = g := by
        have decomposed := proper_add g
        rwa [← start.constant, Weights.isZero_iff.mp noConstant, zero_smul, add_zero] at decomposed
      have factors : (language K s single).Denotes (es.foldl s.mul e) (h * fs.foldr (· * ·) 1) :=
        Folds.foldl (language K s single).multiplied (forget head)
          ⟨fs, tail.imp fun _ _ => forget, rfl⟩
      have followed := expands_followedBy start factors
      rwa [proper] at followed
    · obtain ⟨y', first, built⟩ := Result.bind_eq_ok.mp built
      have expanded := expands_ofExpWith letterized turned head first
      have next : Expands s single ((x.followedBy s e).add (y'.scaleLeft x.constant)) (g * h) := by
        have sum := expands_add (expands_followedBy start (forget head))
          (expands_scaleLeft expanded x.constant)
        have whole : g.proper * h + x.constant • h = g * h := by
          conv_rhs => rw [← proper_add g]
          rw [add_mul, smul_mul_assoc, one_mul, start.constant]
        rwa [whole] at sum
      have constant : x.constant * y'.constant = (g * h) [] := by
        rw [WordSeries.mul_nil, start.constant, expanded.constant]
      rw [List.foldr_cons, ← mul_assoc]
      have scaled : Expands s single
          { (x.followedBy s e).add (y'.scaleLeft x.constant) with
            constant := x.constant * y'.constant } (g * h) := ⟨constant, next.follows⟩
      exact expands_ofFactors letterized turned tail scaled built

end

end

theorem expands_ofExpWithin (letterized : s.labels.isLetterized = true) (n : Nat)
    {e : Exp K} {f : WordSeries K} {x : Expansion K} (denotes : (shallow K s single n).Denotes e f)
    (built : ofExpWithin n s e = .ok x) : Expands s single x f := by
  induction n generalizing e f x with
  | zero =>
    refine expands_ofExpWith letterized (fun {e f x} transposed turned => ?_) denotes built
    obtain ⟨r, mirror, _⟩ := Result.bind_eq_ok.mp turned
    obtain ⟨_, below, _⟩ := denotes_mirror transposed mirror
    cases below
  | succ n ih =>
    refine expands_ofExpWith letterized (fun {e f x} transposed turned => ?_) denotes built
    obtain ⟨r, mirror, expanded⟩ := Result.bind_eq_ok.mp turned
    obtain ⟨_, below, inner⟩ := denotes_mirror transposed mirror
    cases below
    exact ih inner expanded

/-- The expansion of an expression is its series, split by the first letter. -/
theorem expands_ofExp (letterized : s.labels.isLetterized = true)
    (denotes : (language K s single).Denotes e f) (built : ofExp s e = .ok x) :
    Expands s single x f :=
  expands_ofExpWithin letterized e.depth ⟨denotes.1, denotes.2, e.nesting_le_depth⟩ built

end Expansion

end WeightedAutomata
