import WeightedAutomata.Proofs.Polynomial.Quotients

/-! Common left divisors of polynomials. A single term divides a polynomial if its word begins all
words and its weight divides all weights, so that the longest common beginning with the greatest
common divisor of the weights is the greatest of the single terms that divide. -/

set_option linter.unusedSectionVars false

namespace WeightedAutomata.Polynomial

open scoped Weights

open Label (Precedes ofWord letters_ofWord ofWord_letters contains_ofWord)

open WordSeries (Leads)

variable {K : Type} [Weights K] [Weights.Lawful K]
variable {p q g : Polynomial K} {u v w : List Char} {us : List (List Char)} {k c : K} {ws : List K}
variable {alphabet : Alphabet}

/-! ### Common beginnings and common divisors of weights -/

theorem prefix_commonFront : w <+: commonFront u v ↔ w <+: u ∧ w <+: v := by
  induction w generalizing u v with
  | nil => simp
  | cons c w ih =>
    cases u with
    | nil => simp [commonFront]
    | cons d u =>
      cases v with
      | nil => simp [commonFront]
      | cons e v =>
        unfold commonFront
        by_cases same : d = e
        · rw [if_pos same, List.cons_prefix_cons, List.cons_prefix_cons, List.cons_prefix_cons, ih,
            ← same]
          tauto
        · rw [if_neg same, List.cons_prefix_cons, List.cons_prefix_cons]
          constructor
          · intro none
            exact absurd (List.prefix_nil.mp none) (List.cons_ne_nil _ _)
          · rintro ⟨⟨rfl, _⟩, rfl, _⟩
            exact absurd rfl same

theorem prefix_commonFronts (some : us ≠ []) :
    w <+: commonFronts us ↔ ∀ u ∈ us, w <+: u := by
  have fold (us : List (List Char)) (u : List Char) :
      w <+: us.foldl commonFront u ↔ w <+: u ∧ ∀ v ∈ us, w <+: v := by
    induction us generalizing u with
    | nil => simp
    | cons v us ih => rw [List.foldl_cons, ih, prefix_commonFront, List.forall_mem_cons, and_assoc]
  cases us with
  | nil => exact absurd rfl some
  | cons u us => rw [commonFronts, fold, List.forall_mem_cons]

section

variable [Weights.Dividing K]

theorem dvd_iff {a b : K} : a ∣ b ↔ ∃ c, Weights.mul a c = b := by
  constructor
  · rintro ⟨c, rfl⟩
    exact ⟨c, rfl⟩
  · rintro ⟨c, rfl⟩
    exact ⟨c, rfl⟩

theorem dvd_gcd_iff {a b : K} (nonzero : k ≠ 0) : k ∣ Weights.gcd a b ↔ k ∣ a ∧ k ∣ b := by
  constructor
  · intro divides
    exact ⟨divides.trans (dvd_iff.mpr (Weights.Dividing.gcd_left a b)),
      divides.trans (dvd_iff.mpr (Weights.Dividing.gcd_right a b))⟩
  · rintro ⟨left, right⟩
    exact dvd_iff.mpr (Weights.Dividing.divides_gcd (Weights.isZero_eq_false.mpr nonzero)
      (dvd_iff.mp left) (dvd_iff.mp right))

theorem foldl_gcd_dvd (ws : List K) (c : K) : ws.foldl Weights.gcd c ∣ c := by
  induction ws generalizing c with
  | nil => exact dvd_rfl
  | cons w ws ih => exact (ih _).trans (dvd_iff.mpr (Weights.Dividing.gcd_left c w))

theorem dvd_foldl_gcd (nonzero : k ≠ 0) :
    k ∣ ws.foldl Weights.gcd c ↔ k ∣ c ∧ ∀ w ∈ ws, k ∣ w := by
  induction ws generalizing c with
  | nil => simp
  | cons w ws ih => rw [List.foldl_cons, ih, dvd_gcd_iff nonzero, List.forall_mem_cons, and_assoc]

/-- What divides all weights divides the greatest common divisor, which is not zero. -/
theorem commonWeight_spec (some : ws ≠ []) (nonzeros : ∀ w ∈ ws, w ≠ 0) :
    commonWeight ws ≠ 0 ∧ ∀ k : K, k ≠ 0 → (k ∣ commonWeight ws ↔ ∀ w ∈ ws, k ∣ w) := by
  cases ws with
  | nil => exact absurd rfl some
  | cons c ws =>
    obtain ⟨first, _⟩ := List.forall_mem_cons.mp nonzeros
    have common : ws.foldl Weights.gcd c ≠ 0 := ne_zero_of_dvd_ne_zero first (foldl_gcd_dvd ws c)
    have same : commonWeight (c :: ws) = ws.foldl Weights.gcd c := by
      rw [commonWeight, Weights.isZero_eq_false.mpr common]
      rfl
    rw [same]
    refine ⟨common, fun k nonzero => ?_⟩
    rw [dvd_foldl_gcd nonzero, List.forall_mem_cons]

end

/-! ### Left divisors -/

/-- Whether `q` is a product with the left factor `p`. -/
def LeftDivides (ls : LabelSet) (p q : Polynomial K) : Prop := ∃ r, r.Over ls ∧ mul ls p r = .ok q

theorem Over.leftDivides_iff (left : p.Over (.words alphabet)) (right : q.Over (.words alphabet)) :
    LeftDivides (.words alphabet) p q ↔
      ∃ r : Polynomial K, r.Over (.words alphabet) ∧ p.value * r.value = q.value :=
  exists_congr fun _ => and_congr_right fun within => left.mul_eq_iff within right

/-- The term that makes `t` together with `<k>u`. -/
def stripTerm (u : List Char) (k : K) (t : Label × K) : Label × K :=
  (ofWord (t.1.letters.drop u.length), (Weights.leftQuotient k t.2).getD Weights.zero)

theorem timesTerm_strip [Weights.Dividing K] {ts : Terms Label K} (nonzero : k ≠ 0)
    (members : ∀ t ∈ ts, (LabelSet.words alphabet).contains t.1 = true)
    (divides : ∀ t ∈ ts, u <+: t.1.letters ∧ k ∣ t.2) :
    timesTerm (ofWord u, k) (ts.map (stripTerm u k)) = ts := by
  rw [timesTerm, List.map_map]
  refine (List.map_congr_left fun t present => ?_).trans (List.map_id ts)
  obtain ⟨⟨v, joined⟩, divided⟩ := divides t present
  obtain ⟨c, product⟩ := dvd_iff.mp divided
  have quotient : Weights.leftQuotient k t.2 = some c :=
    (Weights.Dividing.leftQuotient_iff (Weights.isZero_eq_false.mpr nonzero)).mpr product
  apply Prod.ext
  · change ofWord ((ofWord u).letters ++ (ofWord (t.1.letters.drop u.length)).letters) = t.1
    rw [letters_ofWord, letters_ofWord, ← joined, List.drop_left, joined,
      ofWord_letters (members t present)]
  · change Weights.mul k ((Weights.leftQuotient k t.2).getD Weights.zero) = t.2
    rw [quotient]
    exact product

/-- A single term divides if its word begins all words and its weight divides all weights. -/
theorem Over.monomial_divides_iff [Weights.Dividing K] (within : p.Over (.words alphabet))
    (member : (LabelSet.words alphabet).contains (ofWord u) = true) (nonzero : k ≠ 0) :
    LeftDivides (.words alphabet) (monomial (ofWord u) k) p ↔
      ∀ t ∈ p.terms, u <+: t.1.letters ∧ k ∣ t.2 := by
  rw [(over_monomial member k).leftDivides_iff within, value_monomial member, letters_ofWord]
  constructor
  · rintro ⟨r, -, product⟩ ⟨l, c⟩ present
    have weight := within.value_letters present
    have weighted : ((k • WordSeries.ofWord u : WordSeries K) * r.value) l.letters ≠ 0 := by
      rw [product, weight]
      exact within.ne_zero present
    obtain ⟨u', v, joined, front, _⟩ := WordSeries.exists_of_mul_ne_zero weighted
    obtain rfl := WordSeries.eq_of_smul_ofWord front
    refine ⟨⟨v, joined.symm⟩, r.value v, ?_⟩
    have single : ((k • WordSeries.ofWord u' : WordSeries K) * r.value) (u' ++ v) =
        (k • WordSeries.ofWord u' : WordSeries K) u' * r.value v :=
      WordSeries.mul_append_of_single fun x y _ cut =>
        WordSeries.eq_of_smul_ofWord (left_ne_zero_of_mul cut)
    rw [product, ← joined, weight, WordSeries.smul_apply, WordSeries.ofWord, if_pos rfl,
      mul_one] at single
    exact single
  · intro divides
    have stripped : ∀ t ∈ p.terms.map (stripTerm u k),
        (LabelSet.words alphabet).contains t.1 = true := by
      rw [List.forall_mem_map]
      intro t present
      have accepted := within.labelled t present
      rw [← ofWord_letters accepted, contains_ofWord] at accepted
      rw [stripTerm, contains_ofWord]
      exact List.all_eq_true.mpr fun c used =>
        List.all_eq_true.mp accepted c (List.mem_of_mem_drop used)
    refine ⟨zero.addTerms (p.terms.map (stripTerm u k)), (over_zero _).addTerms stripped, ?_⟩
    have product := sumOf_timesTerm (ofWord u, k) (p.terms.map (stripTerm u k))
    rw [timesTerm_strip nonzero within.labelled divides, letters_ofWord] at product
    rw [(over_zero _).value_addTerms stripped, value_zero, zero_add, within.value_eq_sumOf, product]

/-! ### Divisors that division finds -/

/-- Whether `p` is a left factor of `q` that division finds, unless `p` is zero. -/
structure Factor (ls : LabelSet) (p q : Polynomial K) : Prop where
  divides : LeftDivides ls p q
  found : p.isZero = false → ∃ r, leftQuotient ls p q = .ok r

section

variable [Weights.Dividing K] [Weights.Reducing K]
variable (left : p.Over (.words alphabet)) (right : q.Over (.words alphabet))

include left right

theorem Over.factor_of_uncovered {r : Polynomial K} (within : r.Over (.words alphabet))
    (uncovered : Uncovered p r) (product : p.value * r.value = q.value) :
    Factor (.words alphabet) p q := by
  have multiplied := (left.mul_eq_iff within right).mpr product
  refine ⟨⟨r, within, multiplied⟩, fun nonzero => ⟨r, ?_⟩⟩
  rcases Weights.Reducing.kind (K := K) with ring | positive
  · exact left.leftQuotient_of_ring right nonzero within multiplied
  · exact left.leftQuotient_of_uncovered right nonzero within multiplied uncovered

theorem Over.factor_of_found (nonzero : p.isZero = false)
    (found : (leftQuotient (.words alphabet) p q).succeeded = true) :
    Factor (.words alphabet) p q := by
  obtain ⟨r, found⟩ := Result.succeeded_iff.mp found
  exact ⟨⟨r, left.exists_quotient right nonzero found⟩, fun _ => ⟨r, found⟩⟩

theorem Over.factor_zero (zero : q.isZero = true) : Factor (.words alphabet) p q := by
  obtain ⟨terms⟩ := q
  obtain rfl := List.isEmpty_iff.mp zero
  exact left.factor_of_uncovered right (over_zero _)
    (fun _ _ _ _ _ _ weighted => absurd rfl weighted) (mul_zero _)

omit right

theorem Over.factor_self : Factor (.words alphabet) p p := by
  have member : (LabelSet.words alphabet).contains (ofWord []) = true := rfl
  refine left.factor_of_uncovered left (over_monomial member Weights.one) ?_ ?_
  · intro first u v v' _ _ weighted weighted' before
    rw [value_monomial member] at weighted weighted'
    rw [WordSeries.eq_of_smul_ofWord weighted, WordSeries.eq_of_smul_ofWord weighted'] at before
    exact absurd before (Label.not_precedes_self _)
  · rw [value_monomial member, letters_ofWord, WordSeries.ofWord_nil, Weights.one_eq, one_smul,
      mul_one]

theorem Over.factor_monomial (member : (LabelSet.words alphabet).contains (ofWord u) = true)
    (nonzero : k ≠ 0) (divides : ∀ t ∈ p.terms, u <+: t.1.letters ∧ k ∣ t.2) :
    Factor (.words alphabet) (monomial (ofWord u) k) p := by
  have within := over_monomial member k
  obtain ⟨r, overQuotient, product⟩ := (within.leftDivides_iff left).mp
    ((left.monomial_divides_iff member nonzero).mpr divides)
  refine within.factor_of_uncovered left overQuotient ?_ product
  intro first u' v v' leads weighted _ _ before same
  rw [value_monomial member, letters_ofWord] at leads weighted
  rw [WordSeries.eq_of_smul_ofWord weighted, WordSeries.eq_of_smul_ofWord leads.weighted] at same
  rw [List.append_cancel_left same] at before
  exact Label.not_precedes_self _ before

end

/-! ### The greatest common divisor -/

/-- Whether `g` is a left factor of `p` and `q`, and each single term that is one is also one of
`g`. -/
structure GreatestFactor (ls : LabelSet) (g p q : Polynomial K) : Prop where
  within : g.Over ls
  left : Factor ls g p
  right : Factor ls g q
  greatest {l : Label} {k : K} : ls.contains l = true → Weights.isZero k = false →
    LeftDivides ls (monomial l k) p → LeftDivides ls (monomial l k) q →
      LeftDivides ls (monomial l k) g

section

variable [Weights.Dividing K] [Weights.Reducing K]
variable (left : p.Over (.words alphabet)) (right : q.Over (.words alphabet))

include left right

/-- The longest common beginning with the common divisor of the weights. -/
theorem Over.greatest_term (some : p.isZero = false) :
    ∃ l, (LabelSet.words alphabet).word
        (commonFronts ((p.terms ++ q.terms).map fun t => t.1.letters)) = .ok l ∧
      GreatestFactor (.words alphabet)
        (monomial l (commonWeight ((p.terms ++ q.terms).map (·.2)))) p q := by
  set front := commonFronts ((p.terms ++ q.terms).map fun t => t.1.letters) with front_eq
  set weight := commonWeight ((p.terms ++ q.terms).map (·.2)) with weight_eq
  obtain ⟨l, w, rest, first⟩ := exists_cons some
  have listed : p.terms ++ q.terms ≠ [] := by
    rw [first]
    exact List.cons_ne_nil _ _
  have nonzeros : ∀ w ∈ (p.terms ++ q.terms).map (·.2), w ≠ 0 := by
    rw [List.forall_mem_map, List.forall_mem_append]
    exact ⟨fun t present => left.ne_zero present, fun t present => right.ne_zero present⟩
  obtain ⟨nonzero, divides⟩ := commonWeight_spec (mt List.map_eq_nil_iff.mp listed) nonzeros
  -- the words and weights that divide are those that divide in all terms
  have common (u : List Char) (k : K) (notZero : k ≠ 0) : (u <+: front ∧ k ∣ weight) ↔
      ∀ t ∈ p.terms ++ q.terms, u <+: t.1.letters ∧ k ∣ t.2 := by
    rw [prefix_commonFronts (mt List.map_eq_nil_iff.mp listed), divides k notZero,
      List.forall_mem_map, List.forall_mem_map, ← forall₂_and]
  have all := (common front weight nonzero).mp ⟨List.prefix_rfl, dvd_rfl⟩
  obtain ⟨inLeft, inRight⟩ := List.forall_mem_append.mp all
  have member : (LabelSet.words alphabet).contains (ofWord front) = true := by
    have present : (l, w) ∈ p.terms := first ▸ List.mem_cons_self
    have accepted : (LabelSet.words alphabet).contains l = true := left.labelled _ present
    rw [← ofWord_letters accepted, contains_ofWord] at accepted
    rw [contains_ofWord]
    exact List.all_eq_true.mpr fun c used =>
      List.all_eq_true.mp accepted c ((inLeft _ present).1.subset used)
  have within := over_monomial member weight
  refine ⟨ofWord front, Label.word_words front, within, left.factor_monomial member nonzero inLeft,
    right.factor_monomial member nonzero inRight, ?_⟩
  intro l k contained notZero ofLeft ofRight
  rw [Weights.isZero_eq_false] at notZero
  obtain ⟨u, rfl⟩ : ∃ u, l = ofWord u := ⟨l.letters, (ofWord_letters contained).symm⟩
  rw [left.monomial_divides_iff contained notZero] at ofLeft
  rw [right.monomial_divides_iff contained notZero] at ofRight
  rw [within.monomial_divides_iff contained notZero, terms_monomial nonzero,
    List.forall_mem_singleton, letters_ofWord]
  exact (common _ k notZero).mpr (List.forall_mem_append.mpr ⟨ofLeft, ofRight⟩)

end

/-- The common divisor is one, and each single term that divides both polynomials divides it. -/
theorem exists_leftGcd [Weights.Dividing K] [Weights.Reducing K]
    (left : p.Over (.words alphabet)) (right : q.Over (.words alphabet)) :
    ∃ g, leftGcd (.words alphabet) p q = .ok g ∧ GreatestFactor (.words alphabet) g p q := by
  unfold leftGcd
  by_cases zero : p.isZero = true
  · rw [if_pos zero]
    exact ⟨q, rfl, right, right.factor_zero left zero, right.factor_self,
      fun _ _ _ ofRight => ofRight⟩
  · rw [if_neg zero]
    have nonzero := eq_false_of_ne_true zero
    by_cases first : (q.isZero || p.same q || (leftQuotient (.words alphabet) p q).succeeded) = true
    · rw [if_pos first]
      refine ⟨p, rfl, left, left.factor_self, ?_, fun _ _ ofLeft _ => ofLeft⟩
      rw [Bool.or_eq_true, Bool.or_eq_true] at first
      rcases first with (zero | same) | found
      · exact left.factor_zero right zero
      · rw [← same_iff.mp same]
        exact left.factor_self
      · exact left.factor_of_found right nonzero found
    · rw [if_neg first]
      by_cases second : (leftQuotient (.words alphabet) q p).succeeded = true
      · rw [if_pos second]
        have notZero : q.isZero = false := by
          simp only [Bool.or_eq_true, not_or, Bool.not_eq_true] at first
          exact first.1.1
        exact ⟨q, rfl, right, right.factor_of_found left notZero second, right.factor_self,
          fun _ _ _ ofRight => ofRight⟩
      · rw [if_neg second]
        obtain ⟨l, word, greatest⟩ := left.greatest_term right nonzero
        refine ⟨_, ?_, greatest⟩
        dsimp only
        generalize commonFronts ((p.terms ++ q.terms).map fun t => t.1.letters) = front at word ⊢
        cases front <;> cases word <;> rfl

/-- No polynomial divides the other one, but all words begin with `a` and all weights are even. -/
theorem exists_leftGcd_of_even_weights :
    let p : Polynomial Int := ⟨[(.word ['a', 'b'], 4), (.word ['a', 'c'], 6)]⟩
    let q : Polynomial Int := ⟨[(.word ['a', 'd'], 10)]⟩
    let g : Polynomial Int := ⟨[(.word ['a'], 2)]⟩
    let ls : LabelSet := .words ⟨['a', 'b', 'c', 'd'], false, by decide⟩
    p.Over ls ∧ q.Over ls ∧ leftGcd ls p q = .ok g ∧ GreatestFactor ls g p q := by
  intro p q g ls
  have left : p.Over ls := by decide
  have right : q.Over ls := by decide
  have computed : leftGcd ls p q = .ok g := rfl
  obtain ⟨g', found, greatest⟩ := exists_leftGcd left right
  rw [Except.ok.inj (found.symm.trans computed)] at greatest
  exact ⟨left, right, computed, greatest⟩

end WeightedAutomata.Polynomial
