import WeightedAutomata.Proofs.Series.Star
import WeightedAutomata.Proofs.Series.Tuples

/-! Series of tuples that are made from one series for each tape, and stars. -/

namespace WeightedAutomata.TupleSeries

variable {K : Type}

/-- Two series give the same weights to all tuples of less than `n` letters. -/
def AgreeBelow (n : Nat) (s t : TupleSeries K) : Prop :=
  ∀ us : List (List Char), letterCount us < n → s us = t us

theorem eq_of_agreeBelow {s t : TupleSeries K} (agree : ∀ n, AgreeBelow n s t) : s = t := by
  ext us
  exact agree (letterCount us + 1) us (Nat.lt_succ_self _)

section

variable [CommSemiring K] {k : K} {p : TupleSeries K} {f g : WordSeries K} {F G : TupleSeries K}
variable {fs gs : List (WordSeries K)} {us vs ws : List (List Char)}

/-! ### Tapes -/

/-- One series for the first tape and one for the tapes behind it. -/
def cross (f : WordSeries K) (F : TupleSeries K) : TupleSeries K :=
  fun us => f (us.headD []) * F us.tail

/-- One series for each tape: the weight of a tuple is the product of those of its words. -/
def tensor : List (WordSeries K) → TupleSeries K
  | [] => 1
  | f :: fs => cross f (tensor fs)

/-- The series in which only one tuple has a weight, which is one. -/
def ofWords (vs : List (List Char)) : TupleSeries K := tensor (vs.map WordSeries.ofWord)

theorem cross_cons (f : WordSeries K) (F : TupleSeries K) (u : List Char) (us : List (List Char)) :
    cross f F (u :: us) = f u * F us := rfl

theorem add_cross (f g : WordSeries K) (F : TupleSeries K) :
    cross (f + g) F = cross f F + cross g F := ext fun _ => add_mul _ _ _

theorem cross_add (f : WordSeries K) (F G : TupleSeries K) :
    cross f (F + G) = cross f F + cross f G := ext fun _ => mul_add _ _ _

theorem smul_cross (w : K) (f : WordSeries K) (F : TupleSeries K) :
    cross (w • f) F = w • cross f F := ext fun _ => mul_assoc _ _ _

theorem cross_smul (w : K) (f : WordSeries K) (F : TupleSeries K) :
    cross f (w • F) = w • cross f F := ext fun _ => mul_left_comm _ _ _

theorem zero_cross (F : TupleSeries K) : cross 0 F = 0 := ext fun _ => zero_mul _

theorem cross_zero (f : WordSeries K) : cross f 0 = 0 := ext fun _ => mul_zero _

theorem wordSum_mul_series (f g : WordSeries K) (u : List Char) :
    (wordSum u fun p q => f p * g q) = (f * g) u := by
  induction u generalizing f with
  | nil => rw [wordSum_nil, WordSeries.mul_nil]
  | cons c u ih =>
    rw [wordSum_cons, WordSeries.mul_cons, ← ih]
    rfl

theorem cross_mul_cross (f g : WordSeries K) (F G : TupleSeries K) :
    cross f F * cross g G = cross (f * g) (F * G) := by
  ext us
  cases us with
  | nil =>
    rw [mul_apply, cutSum_nil]
    have tails : (F * G) [] = F [] * G [] := cutSum_nil _
    change f [] * F [] * (g [] * G []) = (f * g) [] * (F * G) []
    rw [tails, WordSeries.mul_nil, mul_mul_mul_comm]
  | cons u us =>
    rw [mul_apply, cutSum_cons, cross_cons, ← wordSum_mul_series, wordSum_mul]
    refine wordSum_congr fun p q => ?_
    rw [mul_apply, mul_cutSum]
    exact cutSum_congr fun ps qs => mul_mul_mul_comm _ _ _ _

theorem one_cross_one : cross (1 : WordSeries K) (1 : TupleSeries K) = 1 := by
  ext us
  cases us with
  | nil =>
    refine (congrArg₂ (· * ·) WordSeries.one_nil one_nil).trans ?_
    rw [mul_one, one_nil]
  | cons u us =>
    rw [cross_cons, one_cons]
    cases u with
    | nil => rw [WordSeries.one_nil, one_mul, if_pos rfl]
    | cons c u => rw [WordSeries.one_cons, zero_mul, if_neg nofun]

theorem tensor_of_one (ones : ∀ f ∈ fs, f = 1) : tensor fs = (1 : TupleSeries K) := by
  induction fs with
  | nil => rfl
  | cons f fs ih =>
    obtain ⟨first, rest⟩ := List.forall_mem_cons.mp ones
    rw [tensor, first, ih rest, one_cross_one]

/-! ### Words in front -/

/-- The series of the tapes behind the first one, where that holds the word `u`. -/
def rest (u : List Char) (F : TupleSeries K) : TupleSeries K := fun us => F (u :: us)

theorem cross_ofWord_mul (v u : List Char) (F G : TupleSeries K) (us : List (List Char)) :
    (cross (.ofWord v) F * G : TupleSeries K) (u :: us) =
      wordSum u fun p q => if p = v then (F * rest q G : TupleSeries K) us else 0 := by
  rw [mul_apply, cutSum_cons]
  refine wordSum_congr fun p q => ?_
  split
  · rename_i here
    refine cutSum_congr fun ps qs => ?_
    rw [cross_cons, WordSeries.ofWord, if_pos here, one_mul]
    rfl
  · rename_i elsewhere
    refine (cutSum_congr fun ps qs => ?_).trans cutSum_zero
    rw [cross_cons, WordSeries.ofWord, if_neg elsewhere, zero_mul, zero_mul]

/-- Behind given words, the rest of a tuple has its own weight. -/
theorem ofWords_mul_join (same : vs.length = us.length) (F : TupleSeries K) :
    (ofWords vs * F : TupleSeries K) (join vs us) = F us := by
  induction vs generalizing us F with
  | nil =>
    rw [List.length_eq_zero_iff.mp same.symm]
    exact congrFun (one_mul F) []
  | cons v vs ih =>
    match us, same with
    | u :: us, same =>
      refine (cross_ofWord_mul v (v ++ u) _ F (join vs us)).trans ?_
      rw [wordSum_behind_word]
      exact ih (Nat.succ.inj same) (rest u F)

theorem ofWords_mul_of_not_join (same : vs.length = us.length)
    (no : ∀ ws, ws.length = us.length → us ≠ join vs ws) (F : TupleSeries K) :
    (ofWords vs * F : TupleSeries K) us = 0 := by
  induction vs generalizing us F with
  | nil =>
    rw [List.length_eq_zero_iff.mp same.symm] at no
    exact absurd rfl (no [] rfl)
  | cons v vs ih =>
    match us, same with
    | u :: us, same =>
      refine (cross_ofWord_mul v u _ F us).trans ?_
      by_cases front : ∃ w, u = v ++ w
      · obtain ⟨w, rfl⟩ := front
        rw [wordSum_behind_word]
        refine ih (Nat.succ.inj same) (fun ws long equal => ?_) (rest w F)
        exact no (w :: ws) (congrArg (· + 1) long) (congrArg ((v ++ w) :: ·) equal)
      · exact wordSum_of_not_prefix _ fun w equal => front ⟨w, equal⟩

/-! ### Stars -/

/-- The series without its constant term. -/
def proper (f : TupleSeries K) : TupleSeries K := fun us => if ∀ u ∈ us, u = [] then 0 else f us

/-- Whether the series has no constant term. -/
def IsProper (f : TupleSeries K) : Prop := ∀ us, (∀ u ∈ us, u = []) → f us = 0

theorem IsProper.mul (isProper : IsProper p) (s : TupleSeries K) : IsProper (p * s) := by
  intro us empty
  refine (cutSum_congr_of_mem fun ps qs member => ?_).trans cutSum_zero
  obtain ⟨long, _, rfl⟩ := mem_cuts member
  have none := letterCount_eq_zero.mpr empty
  rw [letterCount_join long] at none
  rw [isProper ps (letterCount_eq_zero.mp (Nat.eq_zero_of_add_eq_zero_right none)), zero_mul]

theorem IsProper.ofWords (some : ¬∀ v ∈ vs, v = []) : IsProper (ofWords vs : TupleSeries K) := by
  induction vs with
  | nil => exact absurd nofun some
  | cons v vs ih =>
    intro us empty
    have head : us.headD [] = [] := by
      cases us with
      | nil => rfl
      | cons u us => exact empty u List.mem_cons_self
    change WordSeries.ofWord v (us.headD []) * TupleSeries.ofWords vs us.tail = (0 : K)
    by_cases first : v = []
    · rw [ih (fun rest => some (List.forall_mem_cons.mpr ⟨first, rest⟩)) us.tail
        fun u member => empty u (List.mem_of_mem_tail member), mul_zero]
    · rw [head, WordSeries.ofWord, if_neg (Ne.symm first), zero_mul]

theorem proper_add (k : K) (isProper : IsProper p) : proper (k • 1 + p) = p := by
  ext us
  unfold proper
  split
  · rename_i empty
    exact (isProper us empty).symm
  · rename_i some
    rw [add_apply, smul_apply, one_apply, if_neg some, mul_zero, zero_add]

/-- One round of the equation of the star. -/
def starRound (k : K) (p s : TupleSeries K) : TupleSeries K := k • (1 + p * s)

/-- The star of a series `p` without constant term, with the constant term `k`. Each round of the
equation settles the tuples of one more letter. -/
def star (k : K) (p : TupleSeries K) : TupleSeries K :=
  fun us => ((starRound k p)^[letterCount us + 1] 0) us

theorem agreeBelow_starRound {n : Nat} {s t : TupleSeries K} (agree : AgreeBelow n s t) :
    AgreeBelow (n + 1) (starRound k (proper p) s) (starRound k (proper p) t) := by
  intro us short
  have cuts : (proper p * s : TupleSeries K) us = (proper p * t : TupleSeries K) us := by
    refine cutSum_congr_of_mem fun ps qs member => ?_
    obtain ⟨long, _, rfl⟩ := mem_cuts member
    by_cases empty : ∀ u ∈ ps, u = []
    · rw [proper, if_pos empty, zero_mul, zero_mul]
    · have fewer := Nat.pos_of_ne_zero (mt letterCount_eq_zero.mp empty)
      rw [letterCount_join long] at short
      rw [agree qs (by omega)]
  simp only [starRound, smul_apply, add_apply, cuts]

theorem agreeBelow_iterate {m n : Nat} (le : m ≤ n) :
    AgreeBelow m ((starRound k (proper p))^[m] 0) ((starRound k (proper p))^[n] 0) := by
  induction m generalizing n with
  | zero =>
    intro us short
    exact absurd short (Nat.not_lt_zero _)
  | succ m ih =>
    obtain ⟨n, rfl⟩ : ∃ j, n = j + 1 := ⟨n - 1, by omega⟩
    rw [Function.iterate_succ_apply', Function.iterate_succ_apply']
    exact agreeBelow_starRound (ih (by omega))

theorem agreeBelow_star (n : Nat) :
    AgreeBelow n (star k (proper p)) ((starRound k (proper p))^[n] 0) := by
  intro us short
  exact agreeBelow_iterate (Nat.succ_le_of_lt short) us (Nat.lt_succ_self _)

theorem star_eq (k : K) (p : TupleSeries K) :
    star k (proper p) = k • (1 + proper p * star k (proper p)) := by
  apply eq_of_agreeBelow
  intro n
  have left := agreeBelow_star (k := k) (p := p) (n + 1)
  have right := agreeBelow_starRound (k := k) (p := p) (agreeBelow_star (k := k) (p := p) n)
  rw [Function.iterate_succ_apply'] at left
  intro us short
  exact (left us (Nat.lt_succ_of_lt short)).trans (right us (Nat.lt_succ_of_lt short)).symm

end

end WeightedAutomata.TupleSeries
