import WeightedAutomata.Proofs.Expression.Meaning
import WeightedAutomata.Proofs.Expression.Products

/-!
What all operations of a set preserve holds of all expressions that the set builds; these expressions
are tidy.
-/

set_option linter.unusedSectionVars false

namespace WeightedAutomata

open scoped Weights

variable {K : Type} [Weights K]

namespace ExpressionSet

/-- The expressions that the operations of a set build, one from the other. -/
inductive Built (s : ExpressionSet) : Exp K → Prop
  | zero : Built s .zero
  | one : Built s .one
  | atom (l : Label) : Built s (s.atom l)
  | add {l r : Exp K} : Built s l → Built s r → Built s (s.add l r)
  | mul {l r : Exp K} : Built s l → Built s r → Built s (s.mul l r)
  | conjunction {l r : Exp K} : Built s l → Built s r → Built s (s.conjunction l r)
  | shuffle {l r : Exp K} : Built s l → Built s r → Built s (s.shuffle l r)
  | star {e : Exp K} : Built s e → Built s (s.star e)
  | complement {e r : Exp K} : Built s e → s.complement e = .ok r → Built s r
  | difference {l r e : Exp K} : Built s l → Built s r → s.difference l r = .ok e → Built s e
  | transposition {e : Exp K} : Built s e → Built s (s.transposition e)
  | lweight (w : K) {e : Exp K} : Built s e → Built s (s.lweight w e)
  | rweight {e : Exp K} (w : K) : Built s e → Built s (s.rweight e w)
  | power {e r : Exp K} {min : Nat} {max : Option Nat} : Built s e →
    s.power e min max = .ok r → Built s r
  | tuple {tapes : List (Exp K)} {r : Exp K} : s.tuple tapes = .ok r → Built s r
  | normalize {e r : Exp K} : s.normalize e = .ok r → Built s r
  | transpose {e r : Exp K} : Built s e → s.transpose e = .ok r → Built s r

end ExpressionSet

theorem Result.mem_of_mapM {α : Type} {results : List (Result α)} {xs : List α} {x : α}
    (built : results.mapM id = .ok xs) (member : x ∈ xs) : .ok x ∈ results := by
  induction results generalizing xs with
  | nil =>
    cases built
    cases member
  | cons result results ih =>
    rw [List.mapM_cons] at built
    obtain ⟨head, first, built⟩ := Result.bind_eq_ok.mp built
    obtain ⟨tail, rest, same⟩ := Result.bind_eq_ok.mp built
    cases same
    rcases List.mem_cons.mp member with rfl | later
    · exact List.mem_cons.mpr (.inl first.symm)
    · exact List.mem_cons_of_mem _ (ih rest later)

/-! ### What all operations preserve -/

/-- A property that expressions pass on to their parts and that the operations on one tape
preserve. -/
structure Closed (s : ExpressionSet) (P : Exp K → Prop) : Prop where
  part {e c : Exp K} : P e → c ∈ e.children → P c
  zero : P .zero
  one : P .one
  atom (l : Label) : P (s.atom l)
  add {l r : Exp K} : P l → P r → P (s.add l r)
  mul {l r : Exp K} : P l → P r → P (s.mul l r)
  conjunction {l r : Exp K} : P l → P r → P (s.conjunction l r)
  shuffle {l r : Exp K} : P l → P r → P (s.shuffle l r)
  star {e : Exp K} : P e → P (s.star e)
  complement {e r : Exp K} : P e → s.complement e = .ok r → P r
  transposition {e : Exp K} : P e → P (s.transposition e)
  lweight (w : K) {e : Exp K} : P e → P (s.lweight w e)
  rweight {e : Exp K} (w : K) : P e → P (s.rweight e w)

namespace Closed

variable {s : ExpressionSet} {P : Exp K → Prop} {e r : Exp K} {es : List (Exp K)}

theorem chain (closed : Closed s P) {op : Exp K → Exp K → Exp K}
    (step : ∀ {l r : Exp K}, P l → P r → P (op l r)) (each : ∀ e ∈ es, P e) :
    P (ExpressionSet.chain op es) := by
  cases es with
  | nil => exact closed.zero
  | cons e es =>
    obtain ⟨head, tail⟩ := List.forall_mem_cons.mp each
    change P (es.foldl op e)
    clear each
    induction es generalizing e with
    | nil => exact head
    | cons f es ih =>
      obtain ⟨next, rest⟩ := List.forall_mem_cons.mp tail
      exact ih (op e f) (step head next) rest

theorem tuple (single : s.labels.isTuple = false) (built : s.tuple es = .ok r) : P r := by
  obtain ⟨_, tapes, _⟩ := Result.bind_eq_ok.mp built
  unfold ExpressionSet.requireTapes at tapes
  cases labels : s.labels with
  | tuple sets => simp [labels, LabelSet.isTuple, LabelSet.tapes?] at single
  | _ =>
    rw [labels] at tapes
    cases tapes

mutual

/-- An expression that is rebuilt has the property, whatever it was before. -/
theorem normalize (closed : Closed s P) (single : s.labels.isTuple = false) {e r : Exp K}
    (built : s.normalize e = .ok r) : P r := by
  cases e with
  | zero =>
    cases built
    exact closed.zero
  | one =>
    cases built
    exact closed.one
  | atom l =>
    cases built
    exact closed.atom l
  | sum es =>
    obtain ⟨rs, operands, same⟩ := Result.bind_eq_ok.mp built
    cases same
    exact closed.chain closed.add (normalizeEach closed single operands)
  | prod es =>
    obtain ⟨rs, operands, same⟩ := Result.bind_eq_ok.mp built
    cases same
    exact closed.chain closed.mul (normalizeEach closed single operands)
  | conjunction es =>
    obtain ⟨rs, operands, same⟩ := Result.bind_eq_ok.mp built
    cases same
    exact closed.chain closed.conjunction (normalizeEach closed single operands)
  | shuffle es =>
    obtain ⟨rs, operands, same⟩ := Result.bind_eq_ok.mp built
    cases same
    exact closed.chain closed.shuffle (normalizeEach closed single operands)
  | star e =>
    obtain ⟨e', operand, same⟩ := Result.bind_eq_ok.mp built
    cases same
    exact closed.star (normalize closed single operand)
  | transposition e =>
    obtain ⟨e', operand, same⟩ := Result.bind_eq_ok.mp built
    cases same
    exact closed.transposition (normalize closed single operand)
  | complement e =>
    obtain ⟨e', operand, built⟩ := Result.bind_eq_ok.mp built
    exact closed.complement (normalize closed single operand) built
  | lweight w e =>
    obtain ⟨e', operand, same⟩ := Result.bind_eq_ok.mp built
    cases same
    exact closed.lweight w (normalize closed single operand)
  | rweight e w =>
    obtain ⟨e', operand, same⟩ := Result.bind_eq_ok.mp built
    cases same
    exact closed.rweight w (normalize closed single operand)
  | tuple es =>
    obtain ⟨tapes, _, built⟩ := Result.bind_eq_ok.mp built
    exact tuple single built

theorem normalizeEach (closed : Closed s P) (single : s.labels.isTuple = false)
    {es rs : List (Exp K)} (built : s.normalizeEach es = .ok rs) : ∀ r ∈ rs, P r := by
  match es with
  | [] =>
    cases built
    exact nofun
  | e :: es =>
    rw [ExpressionSet.normalizeEach] at built
    obtain ⟨r, head, built⟩ := Result.bind_eq_ok.mp built
    obtain ⟨rs, tail, same⟩ := Result.bind_eq_ok.mp built
    cases same
    exact List.forall_mem_cons.mpr
      ⟨normalize closed single head, normalizeEach closed single tail⟩

end

mutual

theorem transpose (closed : Closed s P) (single : s.labels.isTuple = false) {e r : Exp K}
    (holds : P e) (built : s.transpose e = .ok r) : P r := by
  have part {c : Exp K} (child : c ∈ e.children) : P c := closed.part holds child
  cases e with
  | zero =>
    cases built
    exact closed.zero
  | one =>
    cases built
    exact closed.one
  | atom l =>
    cases built
    exact closed.atom l.mirror
  | sum es =>
    obtain ⟨rs, operands, same⟩ := Result.bind_eq_ok.mp built
    cases same
    exact closed.chain closed.add fun r member =>
      transposeEach closed single (fun _ => part) (Result.mem_of_mapM operands member)
  | prod es =>
    obtain ⟨rs, operands, same⟩ := Result.bind_eq_ok.mp built
    cases same
    exact closed.chain closed.mul fun r member =>
      transposeEach closed single (fun _ => part)
        (List.mem_reverse.mp (Result.mem_of_mapM operands member))
  | conjunction es =>
    obtain ⟨rs, operands, same⟩ := Result.bind_eq_ok.mp built
    cases same
    exact closed.chain closed.conjunction fun r member =>
      transposeEach closed single (fun _ => part) (Result.mem_of_mapM operands member)
  | shuffle es =>
    obtain ⟨rs, operands, same⟩ := Result.bind_eq_ok.mp built
    cases same
    exact closed.chain closed.shuffle fun r member =>
      transposeEach closed single (fun _ => part) (Result.mem_of_mapM operands member)
  | star e =>
    obtain ⟨e', operand, same⟩ := Result.bind_eq_ok.mp built
    cases same
    exact closed.star (transpose closed single (part (List.mem_singleton.mpr rfl)) operand)
  | transposition e =>
    cases built
    exact part (List.mem_singleton.mpr rfl)
  | complement e =>
    obtain ⟨e', operand, built⟩ := Result.bind_eq_ok.mp built
    exact closed.complement (transpose closed single (part (List.mem_singleton.mpr rfl)) operand)
      built
  | lweight w e =>
    obtain ⟨e', operand, built⟩ := Result.bind_eq_ok.mp built
    obtain ⟨w', _, same⟩ := Result.bind_eq_ok.mp built
    cases same
    exact closed.rweight w' (transpose closed single (part (List.mem_singleton.mpr rfl)) operand)
  | rweight e w =>
    obtain ⟨w', _, built⟩ := Result.bind_eq_ok.mp built
    obtain ⟨e', operand, same⟩ := Result.bind_eq_ok.mp built
    cases same
    exact closed.lweight w' (transpose closed single (part (List.mem_singleton.mpr rfl)) operand)
  | tuple es =>
    obtain ⟨tapes, _, built⟩ := Result.bind_eq_ok.mp built
    exact tuple single built

theorem transposeEach (closed : Closed s P) (single : s.labels.isTuple = false)
    {es : List (Exp K)} {r : Exp K} (each : ∀ e ∈ es, P e) (member : .ok r ∈ s.transposeEach es) :
    P r := by
  match es with
  | [] => cases member
  | e :: es =>
    obtain ⟨first, rest⟩ := List.forall_mem_cons.mp each
    rw [ExpressionSet.transposeEach] at member
    rcases List.mem_cons.mp member with head | later
    · exact transpose closed single first head.symm
    · exact transposeEach closed single rest later

end

theorem powerExact (closed : Closed s P) (holds : P e) : (n : Nat) → P (s.powerExact e n)
  | 0 => closed.one
  | 1 => holds
  | n + 2 => closed.mul (powerExact closed holds (n + 1)) holds

theorem power (closed : Closed s P) {min : Nat} {max : Option Nat} (holds : P e)
    (built : s.power e min max = .ok r) : P r := by
  have base := closed.powerExact holds min
  unfold ExpressionSet.power at built
  split at built
  · cases built
    exact closed.mul base (closed.star holds)
  · split at built
    · cases built
    · split at built
      · cases built
        exact base
      · cases built
        exact closed.mul base (closed.powerExact (closed.add closed.one holds) _)

/-- What the operations preserve holds of all that they build. -/
theorem built (closed : Closed s P) (single : s.labels.isTuple = false) (built : s.Built e) :
    P e := by
  induction built with
  | zero => exact closed.zero
  | one => exact closed.one
  | atom l => exact closed.atom l
  | add _ _ left right => exact closed.add left right
  | mul _ _ left right => exact closed.mul left right
  | conjunction _ _ left right => exact closed.conjunction left right
  | shuffle _ _ left right => exact closed.shuffle left right
  | star _ holds => exact closed.star holds
  | complement _ built holds => exact closed.complement holds built
  | difference _ _ built left right =>
    obtain ⟨r, complement, same⟩ := Result.bind_eq_ok.mp built
    cases same
    exact closed.conjunction left (closed.complement right complement)
  | transposition _ holds => exact closed.transposition holds
  | lweight w _ holds => exact closed.lweight w holds
  | rweight w _ holds => exact closed.rweight w holds
  | power _ built holds => exact closed.power holds built
  | tuple built => exact tuple single built
  | normalize built => exact closed.normalize single built
  | transpose _ built holds => exact closed.transpose single holds built

end Closed

/-! ### Tidy expressions -/

variable [Weights.Lawful K] {s : ExpressionSet} {e r : Exp K}

namespace Exp

open Interpretation (shape)

theorem tidy_atom (s : ExpressionSet) (l : Label) : (s.atom l : Exp K).Tidy s :=
  (Structural.tidy s).setAtom l

theorem tidy_transposition (tidy : e.Tidy s) : (s.transposition e).Tidy s := by
  unfold ExpressionSet.transposition
  split
  · exact tidy
  split
  · trivial
  · trivial
  · exact tidy_atom s _
  · exact tidy

theorem Tidy.part {c : Exp K} (tidy : e.Tidy s) (child : c ∈ e.children) : c.Tidy s := by
  cases e with
  | zero | one | atom => cases child
  | sum | prod | conjunction | shuffle => exact tidyEach_iff.mp tidy.2 c child
  | tuple => exact tidyEach_iff.mp tidy c child
  | star | transposition =>
    cases List.mem_singleton.mp child
    exact tidy
  | lweight | rweight | complement =>
    cases List.mem_singleton.mp child
    exact tidy.2

/-- All operations keep expressions tidy. -/
theorem tidy_closed (s : ExpressionSet) : Closed s (Tidy (K := K) s) where
  part := Tidy.part
  zero := trivial
  one := trivial
  atom := tidy_atom s
  add left right := (shape s (Structural.tidy s)).added (f := 0) (g := 0) left right
  mul left right := (shape s (Structural.tidy s)).multiplied (f := 0) (g := 0) left right
  conjunction left right := (shape s (Structural.tidy s)).conjoined (f := 0) (g := 0) left right
  shuffle left right := (shape s (Structural.tidy s)).shuffled (f := 0) (g := 0) left right
  star tidy := (shape s (Structural.tidy s)).starred (f := 0) (g := 0) tidy trivial
  complement tidy := (shape s (Structural.tidy s)).complemented (f := 0) (g := 0) tidy trivial
  transposition := tidy_transposition
  lweight w _ tidy := (shape s (Structural.tidy s)).lweighted (f := 0) w tidy
  rweight w tidy := (shape s (Structural.tidy s)).rweighted (f := 0) w tidy

end Exp

theorem ExpressionSet.Built.tidy (single : s.labels.isTuple = false) (built : s.Built e) :
    e.Tidy s :=
  (Exp.tidy_closed s).built single built

end WeightedAutomata
