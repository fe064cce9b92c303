import WeightedAutomata.Expansion.Derive
import WeightedAutomata.Proofs.Expression.Rebuilding

/-! The recursion of the expansion ends: below a transposition it goes on with the mirror image, in
which transpositions are nested less deep. -/

set_option linter.unusedSectionVars false

namespace WeightedAutomata

open scoped Weights

open Interpretation (shallow)

variable {K : Type} [Weights K] [Weights.Lawful K]
variable {s : ExpressionSet} {single : s.labels.isTuple = false}
variable {e c r : Exp K} {f : WordSeries K} {n m : Nat}

namespace Exp

theorem sizeOf_child (child : c ∈ e.children) : sizeOf c < sizeOf e := by
  cases e with
  | zero | one | atom => cases child
  | sum es | prod es | conjunction es | shuffle es | tuple es =>
    have inside : sizeOf c < sizeOf es := List.sizeOf_lt_of_mem child
    simp only [sum.sizeOf_spec, prod.sizeOf_spec, conjunction.sizeOf_spec, shuffle.sizeOf_spec,
      tuple.sizeOf_spec]
    omega
  | star | transposition | lweight | rweight | complement =>
    cases List.mem_singleton.mp child
    simp only [star.sizeOf_spec, transposition.sizeOf_spec, lweight.sizeOf_spec,
      rweight.sizeOf_spec, complement.sizeOf_spec]
    omega

end Exp

namespace Expansion

/-- What the expansion of an expression calls for: the expansions of its parts, and for a
transposition that of the mirror image. -/
inductive Calls (s : ExpressionSet) : Exp K → Exp K → Prop
  | part {e c : Exp K} : e.kind ≠ .transposition → c ∈ e.children → Calls s c e
  | mirror {e r : Exp K} : s.transpose e = .ok r → Calls s r (.transposition e)

theorem denotes_part (denotes : (shallow K s single n).Denotes e f)
    (straight : e.kind ≠ .transposition) (child : c ∈ e.children) :
    ∃ g, (shallow K s single n).Denotes c g := by
  let I := shallow K s single n
  cases e with
  | zero | one | atom => cases child
  | sum es => exact (I.sum.mp denotes).2.exists_of_mem child
  | prod es => exact (I.prod.mp denotes).2.exists_of_mem child
  | conjunction es => exact (I.conjunction.mp denotes).2.exists_of_mem child
  | shuffle es => exact (I.shuffles.mp denotes).2.exists_of_mem child
  | star e =>
    cases List.mem_singleton.mp child
    obtain ⟨g, inner, _⟩ := I.star.mp denotes
    exact ⟨g, inner⟩
  | transposition => exact absurd rfl straight
  | lweight =>
    cases List.mem_singleton.mp child
    obtain ⟨_, g, inner, _⟩ := I.lweight.mp denotes
    exact ⟨g, inner⟩
  | rweight =>
    cases List.mem_singleton.mp child
    obtain ⟨_, g, inner, _⟩ := I.rweight.mp denotes
    exact ⟨g, inner⟩
  | complement =>
    cases List.mem_singleton.mp child
    obtain ⟨_, g, inner, _⟩ := I.complement.mp denotes
    exact ⟨g, inner⟩
  | tuple => cases denotes.1

/-- In the mirror image of what is transposed, transpositions are nested less deep. -/
theorem denotes_mirror (denotes : (shallow K s single n).Denotes (.transposition e) f)
    (mirror : s.transpose e = .ok r) : ∃ m, n = m + 1 ∧ (shallow K s single m).Denotes r f := by
  obtain ⟨defined, tidy, nested⟩ := denotes
  obtain ⟨m, rfl⟩ : ∃ m, n = m + 1 := ⟨n - 1, by rw [Exp.nesting] at nested; omega⟩
  obtain ⟨g, inner, rfl⟩ := Option.map_eq_some_iff.mp defined
  have below : (shallow K s single (m + 1)).Denotes e g := ⟨inner, tidy, Nat.le_of_succ_le nested⟩
  obtain ⟨r', built, turned⟩ := Interpretation.mirrored single below
  rw [mirror] at built
  cases built
  exact ⟨m, rfl, turned⟩

theorem denotes_mono (denotes : (shallow K s single n).Denotes e f) (le : n ≤ m) :
    (shallow K s single m).Denotes e f :=
  ⟨denotes.1, denotes.2.1, denotes.2.2.trans le⟩

/-- The recursion ends. -/
theorem acc_calls {n : Nat} {e : Exp K} {f : WordSeries K}
    (denotes : (shallow K s single n).Denotes e f) : Acc (Calls s) e := by
  -- A part is smaller; a mirror image may be larger, but has one transposition less on top.
  refine Acc.intro e fun c call => ?_
  cases call with
  | part straight child =>
    obtain ⟨g, inner⟩ := denotes_part denotes straight child
    have smaller := Exp.sizeOf_child child
    exact acc_calls inner
  | mirror mirror =>
    obtain ⟨m, same, turned⟩ := denotes_mirror denotes mirror
    exact acc_calls turned
termination_by (n, sizeOf e)
decreasing_by
  · exact Prod.Lex.right n smaller
  · exact Prod.Lex.left _ _ (by omega)

/-! ### The equation of the recursion -/

section

variable {mirrored mirrored' : ExpressionSet → Exp K → Result (Expansion K)}

theorem ofEach_congr {es : List (Exp K)}
    (same : ∀ e ∈ es, ofExpWith mirrored s e = ofExpWith mirrored' s e) :
    ofEach mirrored s es = ofEach mirrored' s es := by
  induction es with
  | nil => rfl
  | cons e es ih =>
    obtain ⟨head, tail⟩ := List.forall_mem_cons.mp same
    rw [ofEach, ofEach, head, ih tail]

theorem ofFactors_congr {es : List (Exp K)}
    (same : ∀ e ∈ es, ofExpWith mirrored s e = ofExpWith mirrored' s e) (x : Expansion K) :
    ofFactors mirrored s es x = ofFactors mirrored' s es x := by
  induction es generalizing x with
  | nil => rfl
  | cons e es ih =>
    obtain ⟨head, tail⟩ := List.forall_mem_cons.mp same
    rw [ofFactors, ofFactors, head]
    simp only [ih tail]

/-- The expansion depends on what follows transpositions only. -/
theorem ofExpWith_congr {e : Exp K} {f : WordSeries K}
    (turned : ∀ {e r : Exp K} {f : WordSeries K},
      (shallow K s single n).Denotes (.transposition e) f → s.transpose e = .ok r →
        mirrored s r = mirrored' s r)
    (denotes : (shallow K s single n).Denotes e f) :
    ofExpWith mirrored s e = ofExpWith mirrored' s e := by
  have parts (straight : e.kind ≠ .transposition) :
      ∀ c ∈ e.children, ofExpWith mirrored s c = ofExpWith mirrored' s c := by
    intro c child
    obtain ⟨g, inner⟩ := denotes_part denotes straight child
    have smaller := Exp.sizeOf_child child
    exact ofExpWith_congr turned inner
  cases e with
  | zero | one | atom => rfl
  | sum es | conjunction es | shuffle es =>
    have operands : ofEach mirrored s es = ofEach mirrored' s es := ofEach_congr (parts nofun)
    rw [ofExpWith, ofExpWith, operands]
  | prod es => exact ofFactors_congr (parts nofun) _
  | star | lweight | rweight | complement =>
    rw [ofExpWith, ofExpWith, parts nofun _ (List.mem_singleton.mpr rfl)]
  | transposition e =>
    rw [ofExpWith, ofExpWith]
    cases mirror : s.transpose e with
    | error => rfl
    | ok r => exact turned denotes mirror
  | tuple => cases denotes.1
termination_by sizeOf e

end

/-- More depth than transpositions are nested changes nothing. -/
theorem ofExpWithin_eq (denotes : (shallow K s single n).Denotes e f) (le : n ≤ m) :
    ofExpWithin m s e = ofExpWithin n s e := by
  induction n generalizing e f m with
  | zero =>
    cases m with
    | zero => rfl
    | succ m =>
      refine ofExpWith_congr (fun {e r f} transposed mirror => ?_) denotes
      obtain ⟨_, below, _⟩ := denotes_mirror transposed mirror
      cases below
  | succ n ih =>
    obtain ⟨m, rfl⟩ : ∃ m', m = m' + 1 := ⟨m - 1, by omega⟩
    refine ofExpWith_congr (fun {e r f} transposed mirror => ?_) denotes
    obtain ⟨_, below, turned⟩ := denotes_mirror transposed mirror
    cases below
    exact ih turned (Nat.le_of_succ_le_succ le)

theorem ofExp_eq_within (denotes : (shallow K s single n).Denotes e f) :
    ofExp s e = ofExpWithin n s e := by
  have least : (shallow K s single e.nesting).Denotes e f := ⟨denotes.1, denotes.2.1, le_rfl⟩
  calc ofExp s e = ofExpWithin e.nesting s e := ofExpWithin_eq least e.nesting_le_depth
    _ = ofExpWithin n s e := (ofExpWithin_eq least denotes.2.2).symm

/-- Mirror images are expanded as any other expression is. -/
theorem ofExp_eq (denotes : (shallow K s single n).Denotes e f) :
    ofExp s e = ofExpWith ofExp s e := by
  rw [ofExp_eq_within (denotes_mono denotes (Nat.le_succ n)), ofExpWithin]
  refine ofExpWith_congr (fun {e r f} transposed mirror => ?_) denotes
  obtain ⟨m, rfl, turned⟩ := denotes_mirror transposed mirror
  exact (ofExp_eq_within (denotes_mono turned (Nat.le_succ m))).symm

/-- What is called for denotes something. -/
theorem denotes_called {c e : Exp K} (called : Relation.ReflTransGen (Calls s) c e)
    (denotes : (shallow K s single n).Denotes e f) :
    ∃ m g, (shallow K s single m).Denotes c g := by
  induction called using Relation.ReflTransGen.head_induction_on with
  | refl => exact ⟨n, f, denotes⟩
  | head call _ ih =>
    obtain ⟨m, g, inner⟩ := ih
    cases call with
    | part straight child => exact ⟨m, denotes_part inner straight child⟩
    | mirror mirror =>
      obtain ⟨m, _, turned⟩ := denotes_mirror inner mirror
      exact ⟨m, g, turned⟩

end Expansion

end WeightedAutomata
