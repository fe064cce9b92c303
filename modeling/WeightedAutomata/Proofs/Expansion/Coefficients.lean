import WeightedAutomata.Expansion.Derive
import WeightedAutomata.Proofs.Expansion.Combination
import WeightedAutomata.Proofs.Label.Order

/-! What follows each first letter of an expansion. -/

set_option linter.unusedSectionVars false

namespace WeightedAutomata

open scoped Weights

variable {K : Type} [Weights K] [Weights.Lawful K]
variable {s : ExpressionSet} {A : Type} [Semiring A] [Algebra K A] (I : Semantics K s A)

/-- The polynomials are those of letters, in order, and that of the letter `c` denotes `F c`. -/
structure Follows (polynomials : Terms Label (Combination K)) (F : Char → A) : Prop where
  sorted : polynomials.Sorted
  letters : ∀ term ∈ polynomials, ∃ c, term.1 = .letter c
  after (c : Char) : Combination.Denotes I ((polynomials.get? (.letter c)).getD .zero) (F c)

namespace Follows

variable {I} {F G : Char → A} {x : Expansion K} {p : Combination K} {g : A} {d : Char}
variable {rest polynomials : Terms Label (Combination K)}

theorem congr (follows : Follows I polynomials F) (same : ∀ c, F c = G c) :
    Follows I polynomials G := by
  obtain rfl : F = G := funext same
  exact follows

theorem nil : Follows I [] fun _ => 0 where
  sorted := .nil
  letters := nofun
  after _ := Combination.denotes_zero

/-- The polynomial of the first letter, and what is left without it. -/
theorem uncons {l : Label} (follows : Follows I ((l, p) :: rest) F) :
    ∃ d, l = .letter d ∧ Combination.Denotes I p (F d) ∧
      Follows I rest fun c => if c = d then 0 else F c := by
  obtain ⟨d, rfl⟩ := follows.letters (l, p) List.mem_cons_self
  refine ⟨d, rfl, ?_, ?_⟩
  · have first := follows.after d
    rwa [Terms.get?_cons, if_pos rfl] at first
  · refine ⟨(List.pairwise_cons.mp follows.sorted).2,
      fun term later => follows.letters term (List.mem_cons_of_mem _ later), fun c => ?_⟩
    split
    · rename_i same
      rw [same, follows.sorted.get?_rest]
      exact Combination.denotes_zero
    · rename_i differ
      have later := follows.after c
      rwa [Terms.get?_cons, if_neg (fun equal => differ (Label.letter.inj equal))] at later

theorem cons (follows : Follows I rest F) (denotes : Combination.Denotes I p g)
    (least : ∀ term ∈ rest, compare (Label.letter d) term.1 = .lt) :
    Follows I ((.letter d, p) :: rest) fun c => if c = d then g else F c := by
  refine ⟨List.pairwise_cons.mpr ⟨least, follows.sorted⟩, ?_, fun c => ?_⟩
  · intro term member
    rcases List.mem_cons.mp member with rfl | later
    · exact ⟨d, rfl⟩
    · exact follows.letters term later
  · rw [Terms.get?_cons]
    by_cases same : c = d
    · rwa [if_pos (congrArg Label.letter same), if_pos same]
    · rw [if_neg (fun equal => same (Label.letter.inj equal)), if_neg same]
      exact follows.after c

/-- Adding a polynomial adds what it denotes to what follows its letter. -/
theorem addPolynomial (follows : Follows I x.polynomials F)
    (denotes : Combination.Denotes I p g) :
    Follows I (x.addPolynomial (.letter d) p).polynomials
      fun c => if c = d then F c + g else F c := by
  unfold Expansion.addPolynomial
  split
  · rename_i empty
    refine follows.congr fun c => ?_
    rw [Combination.eq_zero_of_isZero denotes empty, add_zero, ite_self]
  · refine ⟨follows.sorted.update, ?_, fun c => ?_⟩
    · intro term member
      rcases Terms.key_of_mem_update member with same | old
      · exact ⟨d, same⟩
      · exact follows.letters term old
    · rw [Terms.get?_update follows.sorted]
      by_cases same : c = d
      · subst same
        have total := Combination.denotes_add (follows.after c) denotes
        rw [if_pos rfl, if_pos rfl]
        dsimp only
        split
        · rename_i cancelled
          rw [Combination.eq_zero_of_isZero total cancelled]
          exact Combination.denotes_zero
        · exact total
      · rw [if_neg (fun equal => same (Label.letter.inj equal)), if_neg same]
        exact follows.after c

/-- Steps that each add what they make of one polynomial. -/
theorem fold {step : Expansion K → Label × Combination K → Expansion K} (change : Char → A → A)
    (zero : ∀ c, change c 0 = 0)
    (stepped : ∀ {x : Expansion K} {G : Char → A} {d : Char} {p : Combination K} {g : A},
      Follows I x.polynomials G → Combination.Denotes I p g →
      Follows I (step x (.letter d, p)).polynomials
        fun c => if c = d then G c + change d g else G c)
    (follows : Follows I polynomials F) (start : Follows I x.polynomials G) :
    Follows I (polynomials.foldl step x).polynomials fun c => G c + change c (F c) := by
  induction polynomials generalizing x F G with
  | nil =>
    refine start.congr fun c => ?_
    have nothing : F c = 0 := Folds.nil_iff.mp (follows.after c)
    rw [nothing, zero, add_zero]
  | cons term rest ih =>
    obtain ⟨l, p⟩ := term
    obtain ⟨d, rfl, first, others⟩ := follows.uncons
    refine (ih others (stepped start first)).congr fun c => ?_
    by_cases same : c = d
    · subst same
      rw [if_pos rfl, if_pos rfl, zero, add_zero]
    · rw [if_neg same, if_neg same]

/-- Polynomials that are changed one by one, without those that have become empty. -/
theorem scaled {f : Combination K → Combination K} (change : A → A) (zero : change 0 = 0)
    (changed : ∀ {p g}, Combination.Denotes I p g → Combination.Denotes I (f p) (change g))
    (follows : Follows I x.polynomials F) :
    Follows I (x.scaled f) fun c => change (F c) := by
  obtain ⟨constant, polynomials⟩ := x
  unfold Expansion.scaled
  dsimp only at follows ⊢
  induction polynomials generalizing F with
  | nil =>
    refine nil.congr fun c => ?_
    have nothing : F c = 0 := Folds.nil_iff.mp (follows.after c)
    rw [nothing, zero]
  | cons term rest ih =>
    obtain ⟨l, p⟩ := term
    obtain ⟨d, rfl, first, others⟩ := follows.uncons
    have least := (List.pairwise_cons.mp follows.sorted).1
    have tail := ih others
    rw [List.map_cons, List.filter_cons]
    split
    · refine (tail.cons (changed first) ?_).congr fun c => ?_
      · intro term member
        obtain ⟨old, present, rfl⟩ := List.mem_map.mp (List.mem_of_mem_filter member)
        exact least old present
      · by_cases same : c = d
        · rw [if_pos same, same]
        · rw [if_neg same, if_neg same]
    · rename_i empty
      have gone : (f p).isZero = true := by simpa using empty
      refine tail.congr fun c => ?_
      by_cases same : c = d
      · rw [if_pos same, zero, same, Combination.eq_zero_of_isZero (changed first) gone]
      · rw [if_neg same]

end Follows

end WeightedAutomata
