import WeightedAutomata.Expression.Rebuild
import WeightedAutomata.Proofs.Expression.NormalForm

/-!
Expressions that are rebuilt as they are. Rebuilding combines the operands of a node from the left,
and an expression stays as it is if this makes each of its nodes again.
-/

set_option linter.unusedSectionVars false

namespace WeightedAutomata

open scoped Weights

variable {K : Type} [Weights K]

namespace Exp

/-! ### Nodes that stay -/

/-- Whether the operands begin with two labels, up to their weights: a conjunction of the two is
simplified. -/
def comparable : List (Exp K) → Bool
  | e :: f :: _ =>
    (ExpressionSet.labelOf? e.bare).isSome && (ExpressionSet.labelOf? f.bare).isSome
  | _ => false

mutual

/-- Whether a conjunction in the expression begins with two labels. -/
def clashes : Exp K → Bool
  | zero | one | atom _ => false
  | conjunction es => comparable es || anyClashes es
  | sum es | prod es | shuffle es | tuple es => anyClashes es
  | star e | transposition e | lweight _ e | rweight e _ | complement e => clashes e

def anyClashes : List (Exp K) → Bool
  | [] => false
  | e :: es => clashes e || anyClashes es

end

/-- The kinds that no operand of a flattened node has. -/
def excluded : Kind → List Kind
  | .shuffle => [.zero, .one, .shuffle]
  | kind => [.zero, kind]

/-- Whether the expression is an operand of nodes of this kind, or a node whose operands are. -/
def Suits (k : Kind) (e : Exp K) : Prop := e.kind = k ∨ e.kind ∉ excluded k

/-- Whether the list holds the operands of a flattened node. -/
def Flat (k : Kind) (es : List (Exp K)) : Prop := ∀ e ∈ es, e.kind ∉ excluded k

/-- Whether products keep the expression as it is, with its weight and its terms. -/
structure Kept (s : ExpressionSet) (e : Exp K) : Prop where
  nonzero : s.uses .trivial = true → e.isZero = false
  notOne : s.uses .trivial = true → e.bare.isOne = false
  unweighted : s.uses .linear = true → e.kind ≠ .lweight
  undistributed : s.uses .distributive = true → e.kind ≠ .sum

/-- Whether the list holds the factors of a flattened product. -/
structure Factored (s : ExpressionSet) (es : List (Exp K)) : Prop where
  flat : Flat .prod es
  apart : Apart s es
  kept : ∀ e ∈ es, Kept s e

/-- The expressions each of whose nodes is what its operation makes of the operands, except for
conjunctions that begin with two labels after they have been flattened. -/
inductive Fixed (s : ExpressionSet) : Exp K → Prop
  | zero : Fixed s .zero
  | one : Fixed s .one
  | atom {l : Label} : l.isOne = false → Fixed s (.atom l)
  | sum {es : List (Exp K)} : (s.uses .associative = true → Flat .sum es) →
    ExpressionSet.chain s.add es = .sum es → (∀ e ∈ es, Fixed s e) → Fixed s (.sum es)
  | prod {es : List (Exp K)} : (s.uses .associative = true → Factored s es) →
    ExpressionSet.chain s.mul es = .prod es → (∀ e ∈ es, Fixed s e) → Fixed s (.prod es)
  | conjunction {es : List (Exp K)} : (s.uses .associative = true → Flat .conjunction es) →
    ((s.uses .associative = true → comparable es = false) →
      ExpressionSet.chain s.conjunction es = .conjunction es) →
    (∀ e ∈ es, Fixed s e) → Fixed s (.conjunction es)
  | shuffle {es : List (Exp K)} : (s.uses .associative = true → Flat .shuffle es) →
    ExpressionSet.chain s.shuffle es = .shuffle es → (∀ e ∈ es, Fixed s e) → Fixed s (.shuffle es)
  | star {e : Exp K} : s.star e = .star e → Fixed s e → Fixed s (.star e)
  | transposition {e : Exp K} : s.transposition e = .transposition e → Fixed s e →
    Fixed s (.transposition e)
  | complement {e : Exp K} : s.complement e = .ok (.complement e) → Fixed s e →
    Fixed s (.complement e)
  | lweight {w : K} {e : Exp K} : s.lweight w e = .lweight w e → Fixed s e → Fixed s (.lweight w e)
  | rweight {e : Exp K} {w : K} : s.rweight e w = .rweight e w → Fixed s e → Fixed s (.rweight e w)

variable {s : ExpressionSet} {e f l r c : Exp K} {es fs : List (Exp K)} {w : K} {k : Kind}

theorem anyClashes_eq_false : anyClashes es = false ↔ ∀ e ∈ es, e.clashes = false := by
  induction es with
  | nil => simp [anyClashes]
  | cons e es ih => simp [anyClashes, ih]

theorem clashes_child (free : e.clashes = false) (child : c ∈ e.children) : c.clashes = false := by
  cases e with
  | zero | one | atom => cases child
  | star | transposition | lweight | rweight | complement =>
    cases List.mem_singleton.mp child
    exact free
  | conjunction es =>
    rw [clashes, Bool.or_eq_false_iff] at free
    exact anyClashes_eq_false.mp free.2 c child
  | sum | prod | shuffle | tuple => exact anyClashes_eq_false.mp free c child

theorem Fixed.part (fixed : Fixed s e) (child : c ∈ e.children) : Fixed s c := by
  cases fixed with
  | zero | one | atom => cases child
  | sum _ _ each | prod _ _ each | conjunction _ _ each | shuffle _ _ each => exact each c child
  | star _ inner | transposition _ inner | complement _ inner | lweight _ inner | rweight _ inner =>
    cases List.mem_singleton.mp child
    exact inner

theorem normalizeEach_eq (each : ∀ e ∈ es, s.normalize e = .ok e) : s.normalizeEach es = .ok es := by
  induction es with
  | nil => rfl
  | cons e es ih =>
    obtain ⟨first, others⟩ := List.forall_mem_cons.mp each
    rw [ExpressionSet.normalizeEach, first, ih others]
    rfl

/-- What is fixed is rebuilt as it is. -/
theorem Fixed.normalize (fixed : Fixed s e)
    (free : s.uses .associative = true → e.clashes = false) : s.normalize e = .ok e := by
  induction fixed with
  | zero | one => rfl
  | @atom l notOne =>
    rw [ExpressionSet.normalize, ExpressionSet.atom, notOne]
    rfl
  | @sum es _ same _ ih | @prod es _ same _ ih | @shuffle es _ same _ ih =>
    have operands : s.normalizeEach es = .ok es := normalizeEach_eq fun e member =>
      ih e member fun flattened => clashes_child (free flattened) member
    rw [ExpressionSet.normalize, operands]
    exact congrArg Except.ok same
  | @conjunction es _ same _ ih =>
    have operands : s.normalizeEach es = .ok es := normalizeEach_eq fun e member =>
      ih e member fun flattened => clashes_child (free flattened) member
    rw [ExpressionSet.normalize, operands]
    refine congrArg Except.ok (same fun flattened => ?_)
    exact (Bool.or_eq_false_iff.mp (free flattened)).1
  | star same _ ih | transposition same _ ih | lweight same _ ih | rweight same _ ih =>
    rw [ExpressionSet.normalize, ih free]
    exact congrArg Except.ok same
  | complement same _ ih =>
    rw [ExpressionSet.normalize, ih free]
    exact same

/-! ### Operands that are combined from the left -/

/-- A node is made of its operands one after the other. -/
theorem chain_eq {op : Exp K → Exp K → Exp K} {node : List (Exp K) → Exp K} (many : 2 ≤ es.length)
    (first : ∀ x y rest, es = x :: y :: rest → op x y = node [x, y])
    (next : ∀ xs x rest, 2 ≤ xs.length → es = xs ++ x :: rest → op (node xs) x = node (xs ++ [x])) :
    ExpressionSet.chain op es = node es := by
  have folded (ys : List (Exp K)) : ∀ xs, 2 ≤ xs.length → es = xs ++ ys →
      ys.foldl op (node xs) = node es := by
    induction ys with
    | nil =>
      rintro xs _ rfl
      rw [List.append_nil]
      rfl
    | cons y ys ih =>
      intro xs long same
      rw [List.foldl_cons, next xs y ys long same]
      exact ih _ (by simp; omega) (by simp [same])
  rcases es with _ | ⟨x, _ | ⟨y, rest⟩⟩
  · cases many
  · exact absurd many (by simp)
  · change rest.foldl op (op x y) = _
    rw [first x y rest rfl]
    exact folded rest [x, y] (Nat.le_refl 2) rfl

theorem spread_of_kind (other : e.kind ≠ k) : s.spread k e = [e] := by
  simp [ExpressionSet.spread, other]

theorem spread_of_nested (nested : s.uses .associative = false) (e : Exp K) :
    s.spread k e = [e] := by
  simp [ExpressionSet.spread, nested]

theorem spread_children (flattened : s.uses .associative = true) (same : e.kind = k) :
    s.spread k e = e.children := by
  simp [ExpressionSet.spread, flattened, same]

theorem uses_trivial_of_associative (flattened : s.uses .associative = true) :
    s.uses .trivial = true :=
  ExpressionSet.uses_of_level_le (by decide) flattened

/-- The kinds of nodes that are flattened. -/
def Variadic (k : Kind) : Prop := k ∈ [Kind.sum, .prod, .conjunction, .shuffle]

theorem Fixed.children (fixed : Fixed s e) (variadic : Variadic e.kind) :
    e.children ≠ [] ∧ (s.uses .associative = true → Flat e.kind e.children) := by
  cases fixed with
  | sum flat same | shuffle flat same =>
    refine ⟨?_, flat⟩
    rintro rfl
    cases same
  | prod factored same =>
    refine ⟨?_, fun flattened => (factored flattened).flat⟩
    rintro rfl
    cases same
  | conjunction flat same =>
    refine ⟨?_, flat⟩
    rintro rfl
    cases same fun _ => rfl
  | _ => simp [Variadic, kind] at variadic

/-- The operands that an expression adds to a node. -/
theorem Fixed.spread (variadic : Variadic k) (fixed : Fixed s e)
    (suits : s.uses .associative = true → Suits k e) :
    s.spread k e ≠ [] ∧ (s.uses .associative = true → Flat k (s.spread k e)) ∧
      ∀ c ∈ s.spread k e, Fixed s c := by
  by_cases same : e.kind = k
  · cases flattened : s.uses .associative with
    | true =>
      subst same
      obtain ⟨nonempty, flat⟩ := fixed.children variadic
      rw [spread_children flattened rfl]
      exact ⟨nonempty, fun _ => flat flattened, fun c => fixed.part⟩
    | false =>
      rw [spread_of_nested flattened]
      exact ⟨by simp, by simp, fun c member => List.mem_singleton.mp member ▸ fixed⟩
  · rw [spread_of_kind same]
    refine ⟨by simp, fun flattened c member => ?_,
      fun c member => List.mem_singleton.mp member ▸ fixed⟩
    rw [List.mem_singleton.mp member]
    exact (suits flattened).resolve_left same

/-- The operands of a node that is made of two expressions. -/
theorem Fixed.operands (variadic : Variadic k) (left : Fixed s l) (right : Fixed s r)
    (suits : s.uses .trivial = true → Suits k l ∧ Suits k r) :
    2 ≤ (s.spread k l ++ s.spread k r).length ∧
      (s.uses .associative = true → Flat k (s.spread k l ++ s.spread k r)) ∧
      ∀ c ∈ s.spread k l ++ s.spread k r, Fixed s c := by
  obtain ⟨front, leftFlat, leftFixed⟩ := left.spread variadic fun flattened =>
    (suits (uses_trivial_of_associative flattened)).1
  obtain ⟨back, rightFlat, rightFixed⟩ := right.spread variadic fun flattened =>
    (suits (uses_trivial_of_associative flattened)).2
  have frontLength := List.length_pos_iff.mpr front
  have backLength := List.length_pos_iff.mpr back
  refine ⟨by rw [List.length_append]; omega, fun flattened => ?_, ?_⟩
  · exact List.forall_mem_append.mpr ⟨leftFlat flattened, rightFlat flattened⟩
  · exact List.forall_mem_append.mpr ⟨leftFixed, rightFixed⟩

/-- A flattened node is made of its operands again, if the first two of them make a node and so does
each later one with what stands before it. -/
theorem chain_spread {op : Exp K → Exp K → Exp K} {node : List (Exp K) → Exp K}
    (kinds : ∀ es, (node es).kind = k) (children : ∀ es, (node es).children = es)
    (self : k ∈ excluded k) (many : 2 ≤ (s.spread k l ++ s.spread k r).length)
    (flat : s.uses .associative = true → Flat k (s.spread k l ++ s.spread k r))
    (same : op l r = node (s.spread k l ++ s.spread k r))
    (first : s.uses .associative = true → ∀ x y rest, s.spread k l ++ s.spread k r = x :: y :: rest →
      Suits k x → Suits k y → op x y = node (s.spread k x ++ s.spread k y))
    (next : ∀ xs x, Suits k (node xs) → Suits k x →
      op (node xs) x = node (s.spread k (node xs) ++ s.spread k x)) :
    ExpressionSet.chain op (s.spread k l ++ s.spread k r) = node (s.spread k l ++ s.spread k r) := by
  cases flattened : s.uses .associative with
  | false =>
    rw [spread_of_nested flattened, spread_of_nested flattened] at same ⊢
    exact same
  | true =>
    have single {x : Exp K} (member : x ∈ s.spread k l ++ s.spread k r) : s.spread k x = [x] :=
      spread_of_kind fun equal => flat flattened x member (equal ▸ self)
    have suits {x : Exp K} (member : x ∈ s.spread k l ++ s.spread k r) : Suits k x :=
      .inr (flat flattened x member)
    apply chain_eq many
    · intro x y rest begins
      have here : x ∈ s.spread k l ++ s.spread k r := by simp [begins]
      have there : y ∈ s.spread k l ++ s.spread k r := by simp [begins]
      rw [first flattened x y rest begins (suits here) (suits there), single here, single there]
      rfl
    · intro xs x rest _ ends
      have member : x ∈ s.spread k l ++ s.spread k r := by simp [ends]
      rw [next xs x (.inl (kinds xs)) (suits member), single member,
        spread_children flattened (kinds xs), children]

end Exp

end WeightedAutomata
