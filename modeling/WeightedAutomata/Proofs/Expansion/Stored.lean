import WeightedAutomata.Proofs.Expansion.Coefficients
import WeightedAutomata.Proofs.Expansion.Finiteness
import WeightedAutomata.Proofs.Expression.Idempotence

/-! What expansions store: no sum is empty, and no term has the weight zero, is zero or has a left
weight. -/

set_option linter.unusedSectionVars false

namespace WeightedAutomata

open scoped Weights

open Exp (Settled)

variable {K : Type} [Weights K] [Weights.Lawful K] [Weights.Ordered K]
variable {s : ExpressionSet} {e f l r : Exp K} {w : K}

namespace Exp

/-! ### Left weights on top -/

theorem scaleWith_cases (plain : s.uses .linear = false) (unweighted : e.kind ≠ .lweight)
    (merge : K → Exp K → Exp K) (w : K) : s.scaleWith merge e w = e ∨
      s.scaleWith merge e w = .zero ∨ s.scaleWith merge e w = .lweight w e := by
  unfold ExpressionSet.scaleWith
  cases e with
  | lweight => exact absurd rfl unweighted
  | _ => simp only [plain, Bool.false_eq_true, if_false]; split_ifs <;> simp

theorem scaleWith_lweight (simplified : s.uses .trivial = true) (merge : K → Exp K → Exp K)
    (w h : K) (e : Exp K) : s.scaleWith merge (.lweight h e) w =
      if Weights.isOne w then .lweight h e else if Weights.isZero w then .zero
        else s.scaleWith merge e (Weights.mul w h) := by
  conv_lhs => rw [ExpressionSet.scaleWith.eq_def, simplified]
  rfl

/-- Where weights are simplified, left weights do not lie below each other. -/
theorem Fixed.single_lweight (simplified : s.uses .trivial = true) (plain : s.uses .linear = false)
    {w : K} {e : Exp K} (fixed : Fixed s (.lweight w e)) : e.kind ≠ .lweight := by
  cases e with
  | lweight h e =>
    cases fixed with
    | lweight same inner =>
      have below := Fixed.single_lweight simplified plain inner
      obtain ⟨depth, size⟩ : ∃ depth, (Exp.lweight h e).size = depth + 1 :=
        ⟨_, (Nat.succ_pred_eq_of_pos (Semantics.size_pos _)).symm⟩
      rw [ExpressionSet.lweight, size, ExpressionSet.scaleWithin,
        scaleWith_lweight simplified] at same
      -- Whatever the merged weight makes of `e`, it is not the nested expression.
      have weightless (merged : e = .lweight h e) : False := below (congrArg Exp.kind merged)
      split_ifs at same
      · exact (weightless (Exp.lweight.inj same).2).elim
      · rcases scaleWith_cases plain below (s.scaleWithin depth) (Weights.mul w h) with
          kept | zero | weighted
        · exact absurd (congrArg Exp.kind (kept.symm.trans same)) below
        · cases zero.symm.trans same
        · exact (weightless (Exp.lweight.inj (weighted.symm.trans same)).2).elim
  | _ => simp [kind]

theorem Settled.unweighted_bare (simplified : s.uses .trivial = true) (settled : Settled s e) :
    e.bare.kind ≠ .lweight := by
  cases linear : s.uses .linear with
  | true =>
    cases settled.normal linear with
    | zero | sum => simp [bare, kind]
    | term term => exact term.bare.kind_monomial.2.2.1
  | false =>
    cases e with
    | lweight w e => exact settled.fixed.single_lweight simplified linear
    | _ => simp [bare, kind]

/-! ### Operations that do not simplify weights -/

theorem kind_atom (l : Label) : (s.atom l : Exp K).kind ≠ .lweight := by
  unfold ExpressionSet.atom
  split <;> simp [kind]

section

variable (literal : s.uses .trivial = false)

include literal

theorem uses_eq_false {level : Identities} (above : Identities.trivial.level ≤ level.level) :
    s.uses level = false := by
  rw [← Bool.not_eq_true]
  intro uses
  rw [ExpressionSet.uses_of_level_le above uses] at literal
  cases literal

/-- Without simplification a product is a node, or an atom where words meet. -/
theorem kind_mul (l r : Exp K) : (s.mul l r).kind ≠ .lweight := by
  have nested : s.uses .associative = false := uses_eq_false literal (by decide)
  rw [mul_of_plain (uses_eq_false literal (by decide)), ExpressionSet.mulWith, literal]
  change (s.product l r).kind ≠ .lweight
  unfold ExpressionSet.product
  rw [spread_of_nested nested, spread_of_nested nested]
  unfold ExpressionSet.joinFactors
  split
  · rename_i single
    split at single
    · split at single
      · obtain ⟨rfl, _⟩ := List.cons.inj single
        exact kind_atom _
      · cases single
    · cases single
  · simp [kind]

theorem kind_conjunction (l r : Exp K) : (s.conjunction l r).kind = .conjunction := by
  unfold ExpressionSet.conjunction
  rw [literal]
  rfl

theorem kind_shuffle (l r : Exp K) : (s.shuffle l r).kind = .shuffle := by
  unfold ExpressionSet.shuffle
  rw [literal]
  rfl

theorem kind_rweight (e : Exp K) (w : K) : (s.rweight e w).kind = .rweight := by
  unfold ExpressionSet.rweight
  rw [literal]
  rfl

theorem kind_complement {r : Exp K} (built : s.complement e = .ok r) : r.kind = .complement := by
  unfold ExpressionSet.complement ExpressionSet.complementNode at built
  rw [literal] at built
  split at built
  · cases built
    cases e <;> rfl
  · cases built

end

end Exp

namespace Combination

variable {p q : Combination K} {build : Exp K → Exp K}

/-- How a term is stored. -/
structure Stored (s : ExpressionSet) (term : Exp K × K) : Prop where
  weight : term.2 ≠ 0
  nonzero : term.1.isZero = false
  unweighted : term.1.kind ≠ .lweight
  settled : Settled s term.1

/-- Whether all terms are stored as they should be. -/
def Canonical (s : ExpressionSet) (p : Combination K) : Prop := ∀ term ∈ p.terms, Stored s term

/-- What can be added to a sum: an expression with one left weight at most. -/
structure Addend (s : ExpressionSet) (e : Exp K) : Prop where
  settled : Settled s e.bare
  unweighted : e.bare.kind ≠ .lweight

theorem Addend.of_settled (settled : Settled s e)
    (top : s.uses .trivial = false → e.kind ≠ .lweight) : Addend s e := by
  cases simplified : s.uses .trivial with
  | true =>
    refine ⟨?_, settled.unweighted_bare simplified⟩
    cases e with
    | lweight w e => exact Settled.closed.part settled (List.mem_singleton.mpr rfl)
    | _ => exact settled
  | false =>
    have plain := top simplified
    rw [← Exp.bare_of_kind plain] at settled
    exact ⟨settled, by rwa [Exp.bare_of_kind plain]⟩

theorem Stored.addend {term : Exp K × K} (stored : Stored s term) : Addend s term.1 :=
  .of_settled stored.settled fun _ => stored.unweighted

theorem canonical_zero : (zero : Combination K).Canonical s := nofun

theorem Canonical.addTerm (canonical : p.Canonical s) (addend : Addend s e) (w : K) :
    (p.addTerm e w).Canonical s := by
  intro term member
  rcases mem_addTerm member with old | ⟨same, nonzero, weight⟩
  · exact canonical term old
  · exact ⟨weight, same ▸ nonzero, same ▸ addend.unweighted, same ▸ addend.settled⟩

theorem Canonical.foldl (step : Exp K → K → Exp K × K) {terms : List (Exp K × K)}
    (canonical : p.Canonical s) (addends : ∀ term ∈ terms, Addend s (step term.1 term.2).1) :
    (terms.foldl (fun sum (e, w) => let (e, w) := step e w; sum.addTerm e w) p).Canonical s :=
  List.foldlRecOn terms _ canonical fun _ canonical term member =>
    canonical.addTerm (addends term member) _

theorem Canonical.add (left : p.Canonical s) (right : q.Canonical s) : (p.add q).Canonical s :=
  left.foldl (fun e w => (e, w)) fun term member => (right term member).addend

theorem Canonical.map (canonical : p.Canonical s)
    (built : ∀ e, Settled s e → Addend s (build e)) : (p.map build).Canonical s :=
  canonical_zero.foldl (fun e w => (build e, w)) fun term member =>
    built _ (canonical term member).settled

theorem Canonical.scaleLeft (canonical : p.Canonical s) (k : K) : (p.scaleLeft k).Canonical s :=
  canonical_zero.foldl (fun e w => (e, Weights.mul k w)) fun term member =>
    (canonical term member).addend

theorem Canonical.scaleRight (canonical : p.Canonical s) (k : K) :
    (p.scaleRight s k).Canonical s := by
  unfold Combination.scaleRight
  split
  · exact canonical_zero.foldl (fun e w => (e, Weights.mul w k)) fun term member =>
      (canonical term member).addend
  · refine canonical_zero.foldl (fun e w => (s.rweight e k, w)) fun term member => ?_
    refine .of_settled ((canonical term member).settled.rweight k) fun literal => ?_
    rw [Exp.kind_rweight literal]
    decide

theorem Canonical.pairwise {op : Exp K → Exp K → Exp K} (left : p.Canonical s)
    (right : q.Canonical s) (built : ∀ e f, Settled s e → Settled s f → Addend s (op e f)) :
    (p.pairwise op q).Canonical s := by
  unfold Combination.pairwise
  refine List.foldlRecOn p.terms _ canonical_zero fun sum start term member => ?_
  refine start.foldl (fun g w => (op term.1 g, Weights.mul term.2 w)) fun other present => ?_
  exact built _ _ (left term member).settled (right other present).settled

theorem Canonical.settled_toExp (canonical : p.Canonical s) : Settled s (p.toExp s) := by
  unfold Combination.toExp ExpressionSet.sum
  refine List.foldlRecOn _ _ Settled.zero fun e settled t member => settled.add ?_
  obtain ⟨term, listed, rfl⟩ := List.mem_map.mp member
  exact (canonical term listed).settled.lweight term.2

end Combination

namespace Expansion

open Combination (Addend)

variable {x y : Expansion K} {p : Combination K}

/-- Whether no polynomial is empty, and all terms are stored as they should be. -/
def Canonical (s : ExpressionSet) (x : Expansion K) : Prop :=
  ∀ entry ∈ x.polynomials, entry.2.isZero = false ∧ entry.2.Canonical s

theorem canonical_ofWeight (w : K) : (ofWeight w).Canonical s := nofun

theorem Canonical.addPolynomial (canonical : x.Canonical s) (polynomial : p.Canonical s)
    (l : Label) : (x.addPolynomial l p).Canonical s := by
  intro entry member
  rcases mem_addPolynomial member with old | ⟨remains, q, same, before⟩
  · exact canonical entry old
  refine ⟨remains, ?_⟩
  rw [same]
  rcases before with rfl | ⟨k, there⟩
  · exact Combination.canonical_zero.add polynomial
  · exact (canonical (k, q) there).2.add polynomial

theorem Canonical.foldl {entries : Terms Label (Combination K)} (canonical : x.Canonical s)
    (change : Combination K → Combination K)
    (changed : ∀ entry ∈ entries, (change entry.2).Canonical s) :
    (entries.foldl (fun sum (l, p) => sum.addPolynomial l (change p)) x).Canonical s :=
  List.foldlRecOn entries _ canonical fun _ canonical entry member =>
    canonical.addPolynomial (changed entry member) _

theorem Canonical.add (left : x.Canonical s) (right : y.Canonical s) : (x.add y).Canonical s :=
  Canonical.foldl (x := { x with constant := Weights.add x.constant y.constant }) left id
    fun entry member => (right entry member).2

theorem Canonical.sum {xs : List (Expansion K)} (canonical : x.Canonical s)
    (each : ∀ y ∈ xs, y.Canonical s) : (xs.foldl Expansion.add x).Canonical s :=
  List.foldlRecOn xs _ canonical fun _ canonical y member => canonical.add (each y member)

theorem Canonical.mapPolynomials (canonical : x.Canonical s)
    {change : Combination K → Combination K}
    (changed : ∀ p : Combination K, p.Canonical s → (change p).Canonical s) (c : K) :
    (x.mapPolynomials c change).Canonical s :=
  (canonical_ofWeight c).foldl change fun entry member => changed _ (canonical entry member).2

theorem Canonical.scaled (canonical : x.Canonical s) {change : Combination K → Combination K}
    (changed : ∀ p : Combination K, p.Canonical s → (change p).Canonical s) (c : K) :
    Canonical s ⟨c, x.scaled change⟩ := by
  intro entry member
  obtain ⟨mapped, remains⟩ := List.mem_filter.mp member
  obtain ⟨⟨l, p⟩, there, rfl⟩ := List.mem_map.mp mapped
  exact ⟨by simpa using remains, changed p (canonical (l, p) there).2⟩

/-! ### Operations on expansions -/

theorem addend_mul (left : Settled s l) (right : Settled s r) : Addend s (s.mul l r) :=
  .of_settled (left.mul right) fun literal => Exp.kind_mul literal l r

theorem addend_conjunction (left : Settled s l) (right : Settled s r) :
    Addend s (s.conjunction l r) :=
  .of_settled (Settled.closed.conjunction left right) fun literal => by
    rw [Exp.kind_conjunction literal]
    decide

theorem addend_shuffle (left : Settled s l) (right : Settled s r) : Addend s (s.shuffle l r) :=
  .of_settled (Settled.closed.shuffle left right) fun literal => by
    rw [Exp.kind_shuffle literal]
    decide

theorem Canonical.followedBy (canonical : x.Canonical s) (settled : Settled s e) :
    (x.followedBy s e).Canonical s :=
  canonical.mapPolynomials (fun _ polynomial => polynomial.map fun _ front =>
    addend_mul front settled) Weights.zero

theorem Canonical.conjunction (left : x.Canonical s) (right : y.Canonical s) :
    (conjunction s x y).Canonical s := by
  refine List.foldlRecOn x.polynomials _ (canonical_ofWeight _) fun sum canonical entry member => ?_
  dsimp only
  split
  · rename_i q found
    have other := (right _ (Terms.mem_of_get? found)).2
    exact canonical.addPolynomial ((left entry member).2.pairwise other fun _ _ =>
      addend_conjunction) _
  · exact canonical

theorem Canonical.shuffle (left : x.Canonical s) (right : y.Canonical s) (first : Settled s e)
    (second : Settled s f) : (shuffle s e f x y).Canonical s := by
  refine Canonical.foldl ?_ (·.map (s.shuffle e ·)) fun entry member =>
    (right entry member).2.map fun _ settled => addend_shuffle first settled
  exact left.mapPolynomials (fun _ polynomial => polynomial.map fun _ settled =>
    addend_shuffle settled second) _

theorem Canonical.shuffleAll {pairs : List (Exp K × Expansion K)} (canonical : x.Canonical s)
    (settled : Settled s e) (each : ∀ pair ∈ pairs, Settled s pair.1 ∧ pair.2.Canonical s) :
    (shuffleAll s e x pairs).Canonical s := by
  induction pairs generalizing e x with
  | nil => exact canonical
  | cons pair pairs ih =>
    obtain ⟨⟨next, operand⟩, rest⟩ := List.forall_mem_cons.mp each
    exact ih (canonical.shuffle operand settled next) (Settled.closed.shuffle settled next) rest

theorem addend_complement (settled : Settled s e) (built : s.complement e = .ok r) : Addend s r :=
  .of_settled (Settled.closed.complement settled built) fun literal => by
    rw [Exp.kind_complement literal built]
    decide

theorem Canonical.complement {labels : List Label} (canonical : x.Canonical s)
    (built : complement s labels x = .ok y) : y.Canonical s := by
  unfold Expansion.complement at built
  have inner (l : Label) :
      Settled s (((x.polynomials.get? l).map fun p => p.toExp s).getD Exp.zero) := by
    cases found : x.polynomials.get? l with
    | none => exact .zero
    | some p => exact (canonical _ (Terms.mem_of_get? found)).2.settled_toExp
  refine Result.foldlM_induction (fun l _ z next start step => ?_) (canonical_ofWeight _) built
  obtain ⟨r, complement, added⟩ := Result.bind_eq_ok.mp step
  cases added
  refine start.addPolynomial ?_ l
  exact Combination.canonical_zero.addTerm (addend_complement (inner l) complement) _

section

variable {mirrored : ExpressionSet → Exp K → Result (Expansion K)}

mutual

theorem canonical_ofExpWith (single : s.labels.isTuple = false)
    (turned : ∀ {e r : Exp K} {x : Expansion K}, Settled s e → s.transpose e = .ok r →
      mirrored s r = .ok x → x.Canonical s)
    {e : Exp K} {x : Expansion K} (settled : Settled s e)
    (built : ofExpWith mirrored s e = .ok x) : x.Canonical s := by
  have part {c : Exp K} (child : c ∈ e.children) : Settled s c := Settled.closed.part settled child
  cases e with
  | zero | one =>
    cases built
    exact canonical_ofWeight _
  | atom l =>
    rw [ofExpWith] at built
    split at built
    · cases built
      exact canonical_ofWeight _
    · cases built
      refine (canonical_ofWeight _).addPolynomial (Combination.canonical_zero.addTerm ?_ _) l
      exact .of_settled .one fun _ => by simp [Exp.kind]
  | sum es =>
    rw [ofExpWith] at built
    obtain ⟨xs, operands, same⟩ := Result.bind_eq_ok.mp built
    cases same
    exact (canonical_ofWeight _).sum (canonical_ofEach single turned (fun _ => part) operands)
  | prod es =>
    exact canonical_ofFactors single turned (fun _ => part) (canonical_ofWeight _) built
  | conjunction es =>
    rw [ofExpWith] at built
    obtain ⟨xs, operands, built⟩ := Result.bind_eq_ok.mp built
    have each := canonical_ofEach single turned (fun _ => part) operands
    cases xs with
    | nil =>
      cases built
      exact canonical_ofWeight _
    | cons y ys =>
      cases built
      obtain ⟨head, tail⟩ := List.forall_mem_cons.mp each
      exact List.foldlRecOn ys _ head fun _ canonical z member =>
        canonical.conjunction (tail z member)
  | shuffle es =>
    rw [ofExpWith] at built
    obtain ⟨xs, operands, built⟩ := Result.bind_eq_ok.mp built
    have each := canonical_ofEach single turned (fun _ => part) operands
    have pairs : ∀ pair ∈ es.zip xs, Settled s pair.1 ∧ pair.2.Canonical s := fun pair member =>
      ⟨part (List.of_mem_zip member).1, each _ (List.of_mem_zip member).2⟩
    generalize es.zip xs = list at built pairs
    cases list with
    | nil =>
      cases built
      exact canonical_ofWeight _
    | cons pair rest =>
      cases built
      obtain ⟨⟨first, operand⟩, others⟩ := List.forall_mem_cons.mp pairs
      exact operand.shuffleAll first others
  | star e =>
    rw [ofExpWith] at built
    obtain ⟨y, operand, built⟩ := Result.bind_eq_ok.mp built
    obtain ⟨c, _, same⟩ := Result.bind_eq_ok.mp built
    cases same
    have inner := canonical_ofExpWith single turned (part (List.mem_singleton.mpr rfl)) operand
    exact inner.mapPolynomials (fun _ polynomial => (polynomial.scaleLeft c).map fun _ front =>
      addend_mul front settled) c
  | transposition e =>
    obtain ⟨r, mirror, expanded⟩ := Result.bind_eq_ok.mp built
    exact turned (part (List.mem_singleton.mpr rfl)) mirror expanded
  | lweight k e =>
    rw [ofExpWith] at built
    obtain ⟨y, operand, same⟩ := Result.bind_eq_ok.mp built
    cases same
    have inner := canonical_ofExpWith single turned (part (List.mem_singleton.mpr rfl)) operand
    exact inner.scaled (fun _ polynomial => polynomial.scaleLeft k) _
  | rweight e k =>
    rw [ofExpWith] at built
    obtain ⟨y, operand, same⟩ := Result.bind_eq_ok.mp built
    cases same
    have inner := canonical_ofExpWith single turned (part (List.mem_singleton.mpr rfl)) operand
    exact inner.scaled (fun _ polynomial => polynomial.scaleRight k) _
  | complement e =>
    rw [ofExpWith] at built
    obtain ⟨labels, _, built⟩ := Result.bind_eq_ok.mp built
    obtain ⟨y, operand, built⟩ := Result.bind_eq_ok.mp built
    have inner := canonical_ofExpWith single turned (part (List.mem_singleton.mpr rfl)) operand
    exact inner.complement built
  | tuple es =>
    rw [ofExpWith, single] at built
    cases built

theorem canonical_ofEach (single : s.labels.isTuple = false)
    (turned : ∀ {e r : Exp K} {x : Expansion K}, Settled s e → s.transpose e = .ok r →
      mirrored s r = .ok x → x.Canonical s)
    {es : List (Exp K)} {xs : List (Expansion K)} (each : ∀ e ∈ es, Settled s e)
    (built : ofEach mirrored s es = .ok xs) : ∀ x ∈ xs, x.Canonical s := by
  match es with
  | [] =>
    cases built
    exact nofun
  | e :: es =>
    obtain ⟨head, tail⟩ := List.forall_mem_cons.mp each
    rw [ofEach] at built
    obtain ⟨x, first, built⟩ := Result.bind_eq_ok.mp built
    obtain ⟨xs, rest, same⟩ := Result.bind_eq_ok.mp built
    cases same
    exact List.forall_mem_cons.mpr
      ⟨canonical_ofExpWith single turned head first, canonical_ofEach single turned tail rest⟩

theorem canonical_ofFactors (single : s.labels.isTuple = false)
    (turned : ∀ {e r : Exp K} {x : Expansion K}, Settled s e → s.transpose e = .ok r →
      mirrored s r = .ok x → x.Canonical s)
    {es : List (Exp K)} {x y : Expansion K} (each : ∀ e ∈ es, Settled s e)
    (start : x.Canonical s) (built : ofFactors mirrored s es x = .ok y) : y.Canonical s := by
  match es with
  | [] =>
    cases built
    exact start
  | e :: es =>
    obtain ⟨head, tail⟩ := List.forall_mem_cons.mp each
    rw [ofFactors] at built
    split at built
    · cases built
      exact start.followedBy (List.foldlRecOn es _ head fun _ settled f member =>
        settled.mul (tail f member))
    · obtain ⟨z, operand, built⟩ := Result.bind_eq_ok.mp built
      have second := canonical_ofExpWith single turned head operand
      have scaled : (z.scaleLeft x.constant).Canonical s :=
        second.scaled (fun _ polynomial => polynomial.scaleLeft x.constant) _
      have next := (start.followedBy head).add scaled
      exact canonical_ofFactors single turned tail
        (x := { (x.followedBy s e).add (z.scaleLeft x.constant) with
          constant := Weights.mul x.constant z.constant }) next built

end

end

theorem canonical_ofExpWithin (single : s.labels.isTuple = false) (n : Nat) {e : Exp K}
    {x : Expansion K} (settled : Settled s e) (built : ofExpWithin n s e = .ok x) :
    x.Canonical s := by
  induction n generalizing e x with
  | zero =>
    refine canonical_ofExpWith single (fun _ _ same => ?_) settled built
    cases same
    exact canonical_ofWeight _
  | succ n ih =>
    exact canonical_ofExpWith single (fun settled mirror expanded =>
      ih (Settled.closed.transpose single settled mirror) expanded) settled built

/-- No sum in the expansion of an expression that the set has built is empty, and no term has the
weight zero, is zero or has a left weight. -/
theorem canonical_ofExp (single : s.labels.isTuple = false) (built : s.Built e)
    (expanded : ofExp s e = .ok x) : x.Canonical s :=
  canonical_ofExpWithin single e.depth (Settled.closed.built single built) expanded

end Expansion

end WeightedAutomata
