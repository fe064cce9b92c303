import Mathlib.Algebra.BigOperators.Group.List.Basic
import Mathlib.Algebra.BigOperators.Ring.List
import WeightedAutomata.Proofs.Series.Basic

/-! Series over tuples of words, one word on each tape, with the product of the tapes. -/

namespace WeightedAutomata

/-- A weight for every tuple of words. A list holds the words on the first tapes; there is nothing
on the tapes behind. -/
def TupleSeries (K : Type) : Type := List (List Char) → K

namespace TupleSeries

/-! ### Cuts -/

/-- All ways to cut a word in two. -/
def wordCuts : List Char → List (List Char × List Char)
  | [] => [([], [])]
  | c :: u => ([], c :: u) :: (wordCuts u).map fun (p, q) => (c :: p, q)

/-- All ways to cut every word of a tuple in two. -/
def cuts : List (List Char) → List (List (List Char) × List (List Char))
  | [] => [([], [])]
  | u :: us => (wordCuts u).flatMap fun (p, q) => (cuts us).map fun (ps, qs) => (p :: ps, q :: qs)

/-- The number of letters on all tapes. -/
def letterCount (us : List (List Char)) : Nat := (us.map List.length).sum

/-- Puts words in front of the words of a tuple, tape by tape. -/
def join (vs us : List (List Char)) : List (List Char) := List.zipWith (· ++ ·) vs us

section

variable {u p q : List Char} {us vs ws ps qs : List (List Char)}

theorem letterCount_cons (u : List Char) (us : List (List Char)) :
    letterCount (u :: us) = u.length + letterCount us := List.sum_cons

theorem length_join (same : vs.length = us.length) : (join vs us).length = us.length := by
  rw [join, List.length_zipWith, same, Nat.min_self]

theorem letterCount_join (same : vs.length = us.length) :
    letterCount (join vs us) = letterCount vs + letterCount us := by
  induction vs generalizing us with
  | nil =>
    rw [List.length_eq_zero_iff.mp same.symm]
    rfl
  | cons v vs ih =>
    match us, same with
    | u :: us, same =>
      rw [join, List.zipWith_cons_cons, letterCount_cons, letterCount_cons, letterCount_cons,
        List.length_append, ← join, ih (Nat.succ.inj same)]
      omega

theorem letterCount_eq_zero : letterCount us = 0 ↔ ∀ u ∈ us, u = [] := by
  induction us with
  | nil => exact iff_of_true rfl nofun
  | cons u us ih =>
    rw [letterCount_cons, Nat.add_eq_zero_iff, List.length_eq_zero_iff, ih, List.forall_mem_cons]

theorem join_inj (left : vs.length = us.length) (right : vs.length = ws.length)
    (same : join vs us = join vs ws) : us = ws := by
  induction vs generalizing us ws with
  | nil => rw [List.length_eq_zero_iff.mp left.symm, List.length_eq_zero_iff.mp right.symm]
  | cons v vs ih =>
    match us, ws, left, right with
    | u :: us, w :: ws, left, right =>
      obtain ⟨first, rest⟩ := List.cons.inj same
      rw [List.append_cancel_left first, ih (Nat.succ.inj left) (Nat.succ.inj right) rest]

theorem mem_wordCuts (member : (p, q) ∈ wordCuts u) : p ++ q = u := by
  induction u generalizing p with
  | nil =>
    cases List.mem_singleton.mp member
    rfl
  | cons c u ih =>
    rcases List.mem_cons.mp member with first | later
    · cases first
      rfl
    · obtain ⟨⟨p', q'⟩, member, same⟩ := List.mem_map.mp later
      cases same
      rw [List.cons_append, ih member]

theorem mem_cuts (member : (ps, qs) ∈ cuts us) :
    ps.length = qs.length ∧ qs.length = us.length ∧ us = join ps qs := by
  induction us generalizing ps qs with
  | nil =>
    cases List.mem_singleton.mp member
    exact ⟨rfl, rfl, rfl⟩
  | cons u us ih =>
    obtain ⟨⟨p, q⟩, first, member⟩ := List.mem_flatMap.mp member
    obtain ⟨⟨ps', qs'⟩, rest, same⟩ := List.mem_map.mp member
    cases same
    obtain ⟨short, long, rfl⟩ := ih rest
    refine ⟨congrArg (· + 1) short, congrArg (· + 1) long, ?_⟩
    rw [← mem_wordCuts first]
    rfl

end

section

variable {A : Type} [AddCommMonoid A] {c : Char} {u : List Char} {us : List (List Char)}

/-- The sum over all ways to cut a word in two. -/
def wordSum (u : List Char) (F : List Char → List Char → A) : A :=
  ((wordCuts u).map fun (p, q) => F p q).sum

/-- The sum over all ways to cut the words of a tuple in two. -/
def cutSum (us : List (List Char)) (F : List (List Char) → List (List Char) → A) : A :=
  ((cuts us).map fun (ps, qs) => F ps qs).sum

@[simp]
theorem wordSum_nil (F : List Char → List Char → A) : wordSum [] F = F [] [] := add_zero _

theorem wordSum_cons (F : List Char → List Char → A) :
    wordSum (c :: u) F = F [] (c :: u) + wordSum u fun p q => F (c :: p) q := by
  unfold wordSum
  rw [wordCuts, List.map_cons, List.sum_cons, List.map_map]
  rfl

@[simp]
theorem cutSum_nil (F : List (List Char) → List (List Char) → A) : cutSum [] F = F [] [] :=
  add_zero _

theorem cutSum_cons (F : List (List Char) → List (List Char) → A) : cutSum (u :: us) F =
    wordSum u fun p q => cutSum us fun ps qs => F (p :: ps) (q :: qs) := by
  unfold cutSum wordSum
  rw [cuts]
  induction wordCuts u with
  | nil => rfl
  | cons cut rest ih =>
    rw [List.flatMap_cons, List.map_append, List.sum_append, ih, List.map_cons, List.sum_cons,
      List.map_map]
    rfl

theorem wordSum_congr {F G : List Char → List Char → A} (same : ∀ p q, F p q = G p q) :
    wordSum u F = wordSum u G := by
  obtain rfl : F = G := funext fun p => funext (same p)
  rfl

theorem cutSum_congr {F G : List (List Char) → List (List Char) → A}
    (same : ∀ ps qs, F ps qs = G ps qs) : cutSum us F = cutSum us G := by
  obtain rfl : F = G := funext fun p => funext (same p)
  rfl

theorem cutSum_congr_of_mem {F G : List (List Char) → List (List Char) → A}
    (same : ∀ ps qs, (ps, qs) ∈ cuts us → F ps qs = G ps qs) : cutSum us F = cutSum us G :=
  congrArg List.sum (List.map_congr_left fun (ps, qs) member => same ps qs member)

theorem wordSum_zero : wordSum u (fun _ _ => (0 : A)) = 0 := by
  induction u with
  | nil => exact wordSum_nil _
  | cons c u ih => rw [wordSum_cons, ih, add_zero]

theorem wordSum_add (F G : List Char → List Char → A) :
    wordSum u (fun p q => F p q + G p q) = wordSum u F + wordSum u G := by
  induction u generalizing F G with
  | nil => simp
  | cons c u ih => rw [wordSum_cons, wordSum_cons, wordSum_cons, ih, add_add_add_comm]

theorem cutSum_add (F G : List (List Char) → List (List Char) → A) :
    cutSum us (fun ps qs => F ps qs + G ps qs) = cutSum us F + cutSum us G := by
  induction us generalizing F G with
  | nil => simp
  | cons u us ih =>
    rw [cutSum_cons, cutSum_cons, cutSum_cons, ← wordSum_add]
    exact wordSum_congr fun p q => ih _ _

theorem cutSum_zero : cutSum us (fun _ _ => (0 : A)) = 0 := by
  induction us with
  | nil => exact cutSum_nil _
  | cons u us ih =>
    rw [cutSum_cons, ih]
    exact wordSum_zero

/-- Sums over the cuts of a word and of a tuple change places. -/
theorem cutSum_wordSum (F : List (List Char) → List (List Char) → List Char → List Char → A) :
    cutSum us (fun ps qs => wordSum u (F ps qs)) =
      wordSum u fun p q => cutSum us fun ps qs => F ps qs p q := by
  induction u generalizing F with
  | nil => simp
  | cons c u ih =>
    rw [wordSum_cons, ← ih, ← cutSum_add]
    exact cutSum_congr fun ps qs => wordSum_cons _

/-- A word is cut in three by cutting the first or the second part again. -/
theorem wordSum_wordSum (F : List Char → List Char → List Char → A) :
    wordSum u (fun p r => wordSum p fun p q => F p q r) =
      wordSum u fun p q => wordSum q fun q r => F p q r := by
  induction u generalizing F with
  | nil => rfl
  | cons c u ih =>
    have first : (wordSum u fun p r => wordSum (c :: p) fun p q => F p q r) =
        (wordSum u fun q r => F [] (c :: q) r) +
          wordSum u fun p r => wordSum p fun p q => F (c :: p) q r := by
      rw [← wordSum_add]
      exact wordSum_congr fun p r => wordSum_cons _
    rw [wordSum_cons, wordSum_cons, wordSum_nil, first, ih, wordSum_cons, add_assoc]

theorem cutSum_cutSum (F : List (List Char) → List (List Char) → List (List Char) → A) :
    cutSum us (fun ps rs => cutSum ps fun ps qs => F ps qs rs) =
      cutSum us fun ps qs => cutSum qs fun qs rs => F ps qs rs := by
  induction us generalizing F with
  | nil => rfl
  | cons u us ih =>
    calc
      cutSum (u :: us) (fun ps rs => cutSum ps fun ps qs => F ps qs rs)
        = wordSum u fun p r => wordSum p fun p q => cutSum us fun ps rs =>
            cutSum ps fun ps qs => F (p :: ps) (q :: qs) (r :: rs) := by
          rw [cutSum_cons]
          refine wordSum_congr fun p r => ?_
          rw [← cutSum_wordSum]
          exact cutSum_congr fun ps rs => cutSum_cons _
      _ = wordSum u fun p q => wordSum q fun q r => cutSum us fun ps qs =>
            cutSum qs fun qs rs => F (p :: ps) (q :: qs) (r :: rs) := by
          rw [wordSum_wordSum]
          exact wordSum_congr fun p q => wordSum_congr fun q r => ih _
      _ = cutSum (u :: us) fun ps qs => cutSum qs fun qs rs => F ps qs rs := by
          rw [cutSum_cons]
          refine wordSum_congr fun p q => ?_
          rw [← cutSum_wordSum]
          exact cutSum_congr fun ps qs => (cutSum_cons _).symm

/-- The cut that leaves the whole word behind. -/
theorem wordSum_behind (G : List Char → A) :
    (wordSum u fun p q => if p = [] then G q else 0) = G u := by
  cases u with
  | nil => rw [wordSum_nil, if_pos rfl]
  | cons c u =>
    rw [wordSum_cons, if_pos rfl]
    exact (congrArg (G (c :: u) + ·) (wordSum_congr fun p q => if_neg nofun)).trans
      ((congrArg _ wordSum_zero).trans (add_zero _))

/-- The cut that leaves the whole word in front. -/
theorem wordSum_front (G : List Char → A) :
    (wordSum u fun p q => if q = [] then G p else 0) = G u := by
  induction u generalizing G with
  | nil => rw [wordSum_nil, if_pos rfl]
  | cons c u ih => rw [wordSum_cons, if_neg nofun, zero_add, ih]

/-- The cut behind a given word. -/
theorem wordSum_behind_word (v : List Char) (G : List Char → A) :
    (wordSum (v ++ u) fun p q => if p = v then G q else 0) = G u := by
  induction v with
  | nil => exact wordSum_behind G
  | cons c v ih =>
    rw [List.cons_append, wordSum_cons, if_neg nofun, zero_add, ← ih]
    exact wordSum_congr fun p q => if_congr (by simp) rfl rfl

theorem wordSum_of_not_prefix {v : List Char} (G : List Char → A) (no : ∀ w, u ≠ v ++ w) :
    (wordSum u fun p q => if p = v then G q else 0) = 0 := by
  have nonempty : v ≠ [] := fun empty => no u (by rw [empty, List.nil_append])
  induction u generalizing v with
  | nil => exact (wordSum_nil _).trans (if_neg nonempty.symm)
  | cons c u ih =>
    rw [wordSum_cons, if_neg nonempty.symm, zero_add]
    cases v with
    | nil => exact absurd rfl nonempty
    | cons d v =>
      by_cases first : c = d
      · subst first
        have shorter : (wordSum u fun p q => if c :: p = c :: v then G q else 0) =
            wordSum u fun p q => if p = v then G q else 0 :=
          wordSum_congr fun p q => if_congr (by simp) rfl rfl
        rw [shorter]
        by_cases last : v = []
        · exact absurd (by rw [last, List.cons_append, List.nil_append]) (no u)
        · exact ih (fun w same => no w (by rw [same, List.cons_append])) last
      · refine (wordSum_congr fun p q => if_neg ?_).trans wordSum_zero
        exact fun same => first (List.cons.inj same).1

end

section

variable {A : Type} [NonUnitalNonAssocSemiring A] {u : List Char} {us : List (List Char)}

theorem mul_wordSum (x : A) (F : List Char → List Char → A) :
    x * wordSum u F = wordSum u fun p q => x * F p q := by
  induction u generalizing F with
  | nil => simp
  | cons c u ih => rw [wordSum_cons, wordSum_cons, mul_add, ih]

theorem wordSum_mul (x : A) (F : List Char → List Char → A) :
    wordSum u F * x = wordSum u fun p q => F p q * x := by
  induction u generalizing F with
  | nil => simp
  | cons c u ih => rw [wordSum_cons, wordSum_cons, add_mul, ih]

theorem mul_cutSum (x : A) (F : List (List Char) → List (List Char) → A) :
    x * cutSum us F = cutSum us fun ps qs => x * F ps qs := by
  induction us generalizing F with
  | nil => simp
  | cons u us ih =>
    rw [cutSum_cons, cutSum_cons, mul_wordSum]
    exact wordSum_congr fun p q => ih _

theorem cutSum_mul (x : A) (F : List (List Char) → List (List Char) → A) :
    cutSum us F * x = cutSum us fun ps qs => F ps qs * x := by
  induction us generalizing F with
  | nil => simp
  | cons u us ih =>
    rw [cutSum_cons, cutSum_cons, wordSum_mul]
    exact wordSum_congr fun p q => ih _

end

/-! ### The algebra of series -/

variable {K : Type}

@[ext]
theorem ext {f g : TupleSeries K} (same : ∀ us, f us = g us) : f = g := funext same

variable [CommSemiring K]

instance : AddCommMonoid (TupleSeries K) := inferInstanceAs (AddCommMonoid (List (List Char) → K))

instance : Module K (TupleSeries K) := inferInstanceAs (Module K (List (List Char) → K))

@[simp]
theorem zero_apply (us : List (List Char)) : (0 : TupleSeries K) us = 0 := rfl

@[simp]
theorem add_apply (f g : TupleSeries K) (us : List (List Char)) : (f + g) us = f us + g us := rfl

@[simp]
theorem smul_apply (w : K) (f : TupleSeries K) (us : List (List Char)) : (w • f) us = w * f us :=
  rfl

theorem sum_range_apply (n : Nat) (f : Nat → TupleSeries K) (us : List (List Char)) :
    (∑ t ∈ Finset.range n, f t) us = ∑ t ∈ Finset.range n, f t us := by
  induction n with
  | zero => simp
  | succ n ih => rw [Finset.sum_range_succ, Finset.sum_range_succ, add_apply, ih]

/-- The series in which only empty words have a weight, which is one. -/
instance : One (TupleSeries K) := ⟨fun us => if ∀ u ∈ us, u = [] then 1 else 0⟩

/-- The Cauchy product: each way to cut the words counts. -/
instance : Mul (TupleSeries K) := ⟨fun f g us => cutSum us fun ps qs => f ps * g qs⟩

theorem one_apply (us : List (List Char)) :
    (1 : TupleSeries K) us = if ∀ u ∈ us, u = [] then 1 else 0 := rfl

theorem mul_apply (f g : TupleSeries K) (us : List (List Char)) :
    (f * g) us = cutSum us fun ps qs => f ps * g qs := rfl

@[simp]
theorem one_nil : (1 : TupleSeries K) [] = 1 := if_pos nofun

theorem one_cons (u : List Char) (us : List (List Char)) :
    (1 : TupleSeries K) (u :: us) = if u = [] then (1 : TupleSeries K) us else 0 := by
  rw [one_apply, one_apply]
  by_cases empty : u = []
  · rw [if_pos empty]
    exact if_congr (by rw [List.forall_mem_cons, and_iff_right empty]) rfl rfl
  · rw [if_neg empty, if_neg fun all => empty (all u List.mem_cons_self)]

theorem one_mul_series (f : TupleSeries K) : 1 * f = f := by
  ext us
  rw [mul_apply]
  induction us generalizing f with
  | nil => simp
  | cons u us ih =>
    rw [cutSum_cons]
    refine (wordSum_congr fun p q => ?_).trans (wordSum_behind fun q => f (q :: us))
    split
    · rename_i empty
      refine (cutSum_congr fun ps qs => ?_).trans (ih fun qs => f (q :: qs))
      rw [one_cons, if_pos empty]
    · rename_i nonempty
      refine (cutSum_congr fun ps qs => ?_).trans cutSum_zero
      rw [one_cons, if_neg nonempty, zero_mul]

theorem mul_one_series (f : TupleSeries K) : f * 1 = f := by
  ext us
  rw [mul_apply]
  induction us generalizing f with
  | nil => simp
  | cons u us ih =>
    rw [cutSum_cons]
    refine (wordSum_congr fun p q => ?_).trans (wordSum_front fun p => f (p :: us))
    split
    · rename_i empty
      refine (cutSum_congr fun ps qs => ?_).trans (ih fun ps => f (p :: ps))
      rw [one_cons, if_pos empty]
    · rename_i nonempty
      refine (cutSum_congr fun ps qs => ?_).trans cutSum_zero
      rw [one_cons, if_neg nonempty, mul_zero]

theorem mul_assoc_series (f g h : TupleSeries K) : f * g * h = f * (g * h) := by
  ext us
  calc
    (f * g * h) us = cutSum us fun ps rs => cutSum ps fun ps qs => f ps * g qs * h rs :=
        cutSum_congr fun _ _ => cutSum_mul _ _
    _ = cutSum us fun ps qs => cutSum qs fun qs rs => f ps * g qs * h rs := cutSum_cutSum _
    _ = (f * (g * h)) us := by
        refine cutSum_congr fun ps qs => ?_
        rw [mul_apply, mul_cutSum]
        exact cutSum_congr fun _ _ => mul_assoc _ _ _

theorem mul_add_series (f g h : TupleSeries K) : f * (g + h) = f * g + f * h := by
  ext us
  exact (cutSum_congr fun _ _ => mul_add _ _ _).trans (cutSum_add _ _)

theorem add_mul_series (f g h : TupleSeries K) : (f + g) * h = f * h + g * h := by
  ext us
  exact (cutSum_congr fun _ _ => add_mul _ _ _).trans (cutSum_add _ _)

theorem smul_mul_series (w : K) (f g : TupleSeries K) : (w • f) * g = w • (f * g) := by
  ext us
  refine (cutSum_congr fun _ _ => ?_).trans (mul_cutSum _ _).symm
  exact mul_assoc _ _ _

theorem mul_smul_series (w : K) (f g : TupleSeries K) : f * (w • g) = w • (f * g) := by
  ext us
  refine (cutSum_congr fun _ _ => ?_).trans (mul_cutSum _ _).symm
  exact mul_left_comm _ _ _

instance : Semiring (TupleSeries K) where
  mul_assoc := mul_assoc_series
  one_mul := one_mul_series
  mul_one := mul_one_series
  zero_mul f := ext fun _ => (cutSum_congr fun _ _ => zero_mul _).trans cutSum_zero
  mul_zero f := ext fun _ => (cutSum_congr fun _ _ => mul_zero _).trans cutSum_zero
  left_distrib := mul_add_series
  right_distrib := add_mul_series

instance : Algebra K (TupleSeries K) := Algebra.ofModule smul_mul_series mul_smul_series

end TupleSeries

end WeightedAutomata
