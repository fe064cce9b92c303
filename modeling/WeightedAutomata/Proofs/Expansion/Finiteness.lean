import WeightedAutomata.Expansion.Derive
import WeightedAutomata.Proofs.Expansion.Combination
import WeightedAutomata.Proofs.Expression.Residues
import WeightedAutomata.Proofs.Weights.Stars

/-! What follows a first letter in an expansion is a residue of the expression. -/

set_option linter.unusedSectionVars false

namespace WeightedAutomata

open scoped Weights

variable {K : Type} [Weights K] [Weights.Lawful K]
variable {P Q : Exp K → Prop} {e : Exp K} {w : K}

namespace Combination

variable {p q : Combination K}

/-- Whether all expressions of the sum have the property. -/
def Within (Q : Exp K → Prop) (p : Combination K) : Prop := ∀ term ∈ p.terms, Q term.1

theorem within_zero : Within Q (zero : Combination K) := nofun

theorem Within.mono (within : p.Within P) (implies : ∀ e, P e → Q e) : p.Within Q :=
  fun term member => implies _ (within term member)

theorem Within.addTerm (within : p.Within Q) (holds : Q e.bare) (w : K) :
    (p.addTerm e w).Within Q := by
  intro term member
  rcases mem_addTerm member with old | ⟨same, _⟩
  · exact within term old
  · exact same ▸ holds

theorem Within.foldl (step : Exp K → K → Exp K × K) {terms : List (Exp K × K)}
    (within : p.Within Q) (stepped : ∀ term ∈ terms, Q (step term.1 term.2).1.bare) :
    (terms.foldl (fun sum (e, w) => let (e, w) := step e w; sum.addTerm e w) p).Within Q :=
  List.foldlRecOn terms _ within fun _ within term member =>
    within.addTerm (stepped term member) _

theorem Within.add (left : p.Within Q) (right : q.Within Q) (bare : ∀ e, Q e → e.bare = e) :
    (p.add q).Within Q :=
  Within.foldl (fun e w => (e, w)) left fun term member => by
    rw [bare _ (right term member)]
    exact right term member

theorem Within.map (within : p.Within P) {build : Exp K → Exp K}
    (built : ∀ e, P e → Q (build e).bare) : (p.map build).Within Q :=
  Within.foldl (fun e w => (build e, w)) within_zero fun term member =>
    built _ (within term member)

theorem Within.scaleLeft (within : p.Within Q) (bare : ∀ e, Q e → e.bare = e) (k : K) :
    (p.scaleLeft k).Within Q :=
  Within.foldl (fun e w => (e, Weights.mul k w)) within_zero fun term member => by
    rw [bare _ (within term member)]
    exact within term member

end Combination

namespace Expansion

variable {x y : Expansion K} {p : Combination K}

/-- Whether all expressions that may follow a label have the property. -/
def Within (Q : Exp K → Prop) (x : Expansion K) : Prop :=
  ∀ entry ∈ x.polynomials, entry.2.Within Q

theorem within_ofWeight (w : K) : Within Q (ofWeight w) := nofun

theorem Within.mono (within : x.Within P) (implies : ∀ e, P e → Q e) : x.Within Q :=
  fun entry member => (within entry member).mono implies

/-- What follows a label in a sum to which `p` has been added followed it before, or is the sum with
`p` of nothing or of what followed some label. -/
theorem mem_addPolynomial {l : Label} {entry : Label × Combination K}
    (member : entry ∈ (x.addPolynomial l p).polynomials) :
    entry ∈ x.polynomials ∨ entry.2.isZero = false ∧
      ∃ q : Combination K, entry.2 = q.add p ∧ (q = .zero ∨ ∃ k, (k, q) ∈ x.polynomials) := by
  unfold Expansion.addPolynomial at member
  split at member
  · exact .inl member
  rcases Terms.of_mem_update member with old | ⟨old, there, changed⟩
  · exact .inl old
  dsimp only at changed
  split at changed
  · cases changed
  rename_i remains
  refine .inr ⟨Option.some.inj changed ▸ Bool.not_eq_true _ ▸ remains, old.getD .zero,
    (Option.some.inj changed).symm, ?_⟩
  cases old with
  | none => exact .inl rfl
  | some q => exact .inr (there q rfl)

theorem Within.addPolynomial (within : x.Within Q) (polynomial : p.Within Q)
    (bare : ∀ e, Q e → e.bare = e) (l : Label) : (x.addPolynomial l p).Within Q := by
  intro entry member
  rcases mem_addPolynomial member with old | ⟨_, q, same, before⟩
  · exact within entry old
  rw [same]
  rcases before with rfl | ⟨k, there⟩
  · exact Combination.within_zero.add polynomial bare
  · exact (within (k, q) there).add polynomial bare

theorem Within.foldl {entries : Terms Label (Combination K)} (within : x.Within Q)
    (change : Combination K → Combination K) (changed : ∀ entry ∈ entries, (change entry.2).Within Q)
    (bare : ∀ e, Q e → e.bare = e) :
    (entries.foldl (fun sum (l, p) => sum.addPolynomial l (change p)) x).Within Q :=
  List.foldlRecOn entries _ within fun _ within entry member =>
    within.addPolynomial (changed entry member) bare _

theorem Within.add (left : x.Within Q) (right : y.Within Q) (bare : ∀ e, Q e → e.bare = e) :
    (x.add y).Within Q :=
  Within.foldl (x := { x with constant := Weights.add x.constant y.constant }) left id right bare

theorem Within.mapPolynomials (within : x.Within P) {change : Combination K → Combination K}
    (changed : ∀ p : Combination K, p.Within P → (change p).Within Q)
    (bare : ∀ e, Q e → e.bare = e) (c : K) : (x.mapPolynomials c change).Within Q :=
  Within.foldl (within_ofWeight c) change (fun entry member => changed _ (within entry member)) bare

theorem Within.scaleLeft (within : x.Within Q) (bare : ∀ e, Q e → e.bare = e) (k : K) :
    (x.scaleLeft k).Within Q := by
  intro entry member
  obtain ⟨⟨l, p⟩, there, rfl⟩ := List.mem_map.mp (List.mem_of_mem_filter member)
  exact (within (l, p) there).scaleLeft bare k

theorem Within.followedBy {s : ExpressionSet} (within : x.Within P)
    (built : ∀ f, P f → Q (s.mul f e).bare) (bare : ∀ e, Q e → e.bare = e) :
    (x.followedBy s e).Within Q :=
  within.mapPolynomials (fun _ inner => inner.map built) bare Weights.zero

theorem Within.sum {xs : List (Expansion K)} (within : x.Within Q) (each : ∀ y ∈ xs, y.Within Q)
    (bare : ∀ e, Q e → e.bare = e) : (xs.foldl Expansion.add x).Within Q :=
  List.foldlRecOn xs _ within fun _ within y member => within.add (each y member) bare

/-! ### Expansions of regular expressions -/

variable [Weights.Ordered K]
variable {s : ExpressionSet} {es p : List (Exp K)} {ps qs : List (List (Exp K))}
variable {mirrored : ExpressionSet → Exp K → Result (Expansion K)}

/-- Whether the expression is the product of one of the lists of factors. -/
def Residual (ps : List (List (Exp K))) (e : Exp K) : Prop := ∃ p ∈ ps, e = Exp.ofFactors p

/-- Whether all lists are made of regular factors. -/
def Regulars (s : ExpressionSet) (ps : List (List (Exp K))) : Prop :=
  ∀ p ∈ ps, ∀ f ∈ p, Exp.Regular s .factor f

theorem multiplied_of_regular (listed : Exp.Listed s)
    (each : ∀ f ∈ p, Exp.Regular s .factor f) : Exp.Multiplied s p where
  apart words := absurd words (by simp [listed.separate])
  each f member := (each f member).normal

theorem Residual.bare (listed : Exp.Listed s) (regulars : Regulars s ps)
    (residual : Residual ps e) : e.bare = e := by
  obtain ⟨p, member, rfl⟩ := residual
  exact Exp.bare_of_kind (multiplied_of_regular listed (regulars p member)).kind_ofFactors.2.1

theorem Residual.mono (residual : Residual ps e) (subset : ps ⊆ qs) : Residual qs e :=
  residual.imp fun _ ⟨member, same⟩ => ⟨subset member, same⟩

theorem Regulars.map (regulars : Regulars s ps)
    (each : ∀ f ∈ es, Exp.Regular s .factor f) : Regulars s (ps.map (· ++ es)) := by
  intro q member
  obtain ⟨p, there, rfl⟩ := List.mem_map.mp member
  exact List.forall_mem_append.mpr ⟨regulars p there, each⟩

/-- Factors that follow stand behind each residue. -/
theorem Residual.mul (listed : Exp.Listed s) (regulars : Regulars s ps)
    (each : ∀ f ∈ es, Exp.Regular s .factor f) (residual : Residual ps e) :
    Residual (ps.map (· ++ es)) (s.mul e (Exp.ofFactors es)).bare := by
  obtain ⟨p, member, rfl⟩ := residual
  rw [listed.mul (multiplied_of_regular listed (regulars p member))
    (multiplied_of_regular listed each)]
  have behind : Residual (ps.map (· ++ es)) (Exp.ofFactors (p ++ es)) :=
    ⟨p ++ es, List.mem_map_of_mem member, rfl⟩
  rwa [behind.bare listed (regulars.map each)]

theorem Within.behind (listed : Exp.Listed s) (regulars : Regulars s ps)
    (each : ∀ f ∈ es, Exp.Regular s .factor f) (within : x.Within (Residual ps)) :
    (x.followedBy s (Exp.ofFactors es)).Within (Residual (ps.map (· ++ es))) :=
  within.followedBy (fun _ => Residual.mul listed regulars each)
    fun _ => Residual.bare listed (regulars.map each)

mutual

/-- What may follow a letter is a residue. -/
theorem within_ofExpWith (listed : Exp.Listed s) {e : Exp K} {x : Expansion K}
    (regular : Exp.Regular s .sum e) (expanded : ofExpWith mirrored s e = .ok x) :
    x.Within (Residual e.residues) := by
  have regulars : Regulars s e.residues := fun p member => regular.residues member
  have bare := fun f => Residual.bare (e := f) listed regulars
  cases e with
  | zero | one =>
    rw [ofExpWith] at expanded
    cases expanded
    exact within_ofWeight _
  | atom l =>
    rw [ofExpWith] at expanded
    split at expanded
    · cases expanded
      exact within_ofWeight _
    · cases expanded
      refine (within_ofWeight _).addPolynomial ?_ bare l
      exact Combination.within_zero.addTerm ⟨[], List.mem_singleton.mpr rfl, rfl⟩ _
  | sum es =>
    rw [ofExpWith] at expanded
    obtain ⟨xs, operands, same⟩ := Result.bind_eq_ok.mp expanded
    cases same
    exact (within_ofWeight _).sum (within_ofEach listed regular.of_sum operands) bare
  | prod es =>
    rw [ofExpWith] at expanded
    have start : Regulars s ([] : List (List (Exp K))) := nofun
    exact within_ofFactors listed regular.factors_of_prod start (within_ofWeight _) expanded
  | star e =>
    rw [ofExpWith] at expanded
    obtain ⟨y, operand, same⟩ := Result.bind_eq_ok.mp expanded
    obtain ⟨c, _, same⟩ := Result.bind_eq_ok.mp same
    cases same
    have inner : Regulars s e.residues := fun p member => regular.of_star.residues member
    have last : ∀ f ∈ [Exp.star e], Exp.Regular s .factor f := fun f single =>
      List.mem_singleton.mp single ▸ regular.star
    refine (within_ofExpWith listed regular.of_star operand).mapPolynomials (fun p within => ?_)
      bare c
    exact (within.scaleLeft (fun f => Residual.bare listed inner) c).map fun f =>
      Residual.mul listed inner last
  | lweight k e =>
    rw [ofExpWith] at expanded
    obtain ⟨y, operand, same⟩ := Result.bind_eq_ok.mp expanded
    cases same
    exact (within_ofExpWith listed regular.of_lweight operand).scaleLeft bare k
  | rweight e k =>
    match regular.normal with
    | .term (.monomial (.alone simple)) => nomatch simple
  | conjunction | shuffle | transposition | complement => exact absurd regular.plain id
  | tuple es =>
    match regular.normal with
    | .term (.monomial (.alone simple)) => nomatch simple

theorem within_ofEach (listed : Exp.Listed s) {es : List (Exp K)} {xs : List (Expansion K)}
    (each : ∀ e ∈ es, Exp.Regular s .sum e) (expanded : ofEach mirrored s es = .ok xs) :
    ∀ x ∈ xs, x.Within (Residual (Exp.residuesEach es)) := by
  match es with
  | [] =>
    rw [ofEach] at expanded
    cases expanded
    exact nofun
  | e :: es =>
    rw [ofEach] at expanded
    obtain ⟨x, first, expanded⟩ := Result.bind_eq_ok.mp expanded
    obtain ⟨xs, rest, same⟩ := Result.bind_eq_ok.mp expanded
    cases same
    obtain ⟨head, tail⟩ := List.forall_mem_cons.mp each
    exact List.forall_mem_cons.mpr ⟨(within_ofExpWith listed head first).mono fun _ residual =>
        residual.mono (List.subset_append_left _ _),
      fun y member => (within_ofEach listed tail rest y member).mono fun _ residual =>
        residual.mono (List.subset_append_right _ _)⟩

theorem within_ofFactors (listed : Exp.Listed s) {es : List (Exp K)} {x y : Expansion K}
    {ps : List (List (Exp K))} (each : ∀ e ∈ es, Exp.Regular s .factor e)
    (regulars : Regulars s ps) (within : x.Within (Residual ps))
    (expanded : ofFactors mirrored s es x = .ok y) :
    y.Within (Residual (ps.map (· ++ es) ++ Exp.residuesBehind es)) := by
  match es with
  | [] =>
    rw [ofFactors] at expanded
    cases expanded
    exact within.mono fun _ residual => residual.mono (by simp [Exp.residuesBehind])
  | e :: es =>
    obtain ⟨head, tail⟩ := List.forall_mem_cons.mp each
    rw [ofFactors] at expanded
    split at expanded
    · cases expanded
      have product : es.foldl s.mul e = Exp.ofFactors (e :: es) :=
        listed.foldl [e] (multiplied_of_regular listed each)
      rw [product]
      exact (within.behind listed regulars each).mono fun _ residual =>
        residual.mono (List.subset_append_left _ _)
    · obtain ⟨z, operand, expanded⟩ := Result.bind_eq_ok.mp expanded
      have single : ∀ f ∈ [e], Exp.Regular s .factor f := fun f member =>
        List.mem_singleton.mp member ▸ head
      have inner : Regulars s e.residues := fun p member =>
        head.of_factor.residues member
      have both : Regulars s (ps.map (· ++ [e]) ++ e.residues) :=
        List.forall_mem_append.mpr ⟨regulars.map single, inner⟩
      have front := (within.behind listed regulars single).mono fun _ residual =>
        residual.mono (List.subset_append_left _ e.residues)
      have back := ((within_ofExpWith listed head.of_factor operand).scaleLeft
        (fun f => Residual.bare listed inner) x.constant).mono fun _ residual =>
          residual.mono (List.subset_append_right (ps.map (· ++ [e])) _)
      have next := front.add back fun f => Residual.bare listed both
      have after := within_ofFactors listed tail both
        (x := { (x.followedBy s e).add (z.scaleLeft x.constant) with
          constant := Weights.mul x.constant z.constant }) next expanded
      refine after.mono fun _ residual => residual.mono ?_
      simp [Exp.residuesBehind, Function.comp_def]

end

/-- What may follow a letter in the expansion of an expression is one of its residues. -/
theorem within_ofExp (listed : Exp.Listed s) {e : Exp K} {x : Expansion K}
    (regular : Exp.Regular s .sum e) (expanded : ofExp s e = .ok x) :
    x.Within (Residual e.residues) := by
  unfold ofExp at expanded
  cases depth : e.depth with
  | zero | succ =>
    rw [depth, ofExpWithin] at expanded
    exact within_ofExpWith listed regular expanded

/-! ### Failures -/

variable [Weights.PartialStar K]

mutual

/-- The expansion of a regular expression fails only at a star. -/
theorem notStarable_of_ofExpWith {e : Exp K} {error : Error} (regular : Exp.Regular s .sum e)
    (failed : ofExpWith mirrored s e = .error error) : ∃ text, error = .notStarable text := by
  cases e with
  | zero | one =>
    rw [ofExpWith] at failed
    cases failed
  | atom l =>
    rw [ofExpWith] at failed
    split at failed <;> cases failed
  | sum es =>
    rw [ofExpWith] at failed
    rcases Result.bind_eq_error.mp failed with operands | ⟨xs, _, done⟩
    · exact notStarable_of_ofEach regular.of_sum operands
    · cases done
  | prod es =>
    rw [ofExpWith] at failed
    exact notStarable_of_ofFactors regular.factors_of_prod failed
  | star e =>
    rw [ofExpWith] at failed
    rcases Result.bind_eq_error.mp failed with operand | ⟨x, _, star⟩
    · exact notStarable_of_ofExpWith regular.of_star operand
    · rcases Result.bind_eq_error.mp star with weight | ⟨c, _, done⟩
      · exact Weights.PartialStar.notStarable weight
      · cases done
  | lweight k e =>
    rw [ofExpWith] at failed
    rcases Result.bind_eq_error.mp failed with operand | ⟨x, _, done⟩
    · exact notStarable_of_ofExpWith regular.of_lweight operand
    · cases done
  | rweight | tuple =>
    match regular.normal with
    | .term (.monomial (.alone simple)) => nomatch simple
  | conjunction | shuffle | transposition | complement => exact absurd regular.plain id

theorem notStarable_of_ofEach {es : List (Exp K)} {error : Error}
    (each : ∀ e ∈ es, Exp.Regular s .sum e) (failed : ofEach mirrored s es = .error error) :
    ∃ text, error = .notStarable text := by
  match es with
  | [] =>
    rw [ofEach] at failed
    cases failed
  | e :: es =>
    obtain ⟨head, tail⟩ := List.forall_mem_cons.mp each
    rw [ofEach] at failed
    rcases Result.bind_eq_error.mp failed with first | ⟨x, _, failed⟩
    · exact notStarable_of_ofExpWith head first
    · rcases Result.bind_eq_error.mp failed with rest | ⟨xs, _, done⟩
      · exact notStarable_of_ofEach tail rest
      · cases done

theorem notStarable_of_ofFactors {es : List (Exp K)} {x : Expansion K} {error : Error}
    (each : ∀ e ∈ es, Exp.Regular s .factor e) (failed : ofFactors mirrored s es x = .error error) :
    ∃ text, error = .notStarable text := by
  match es with
  | [] =>
    rw [ofFactors] at failed
    cases failed
  | e :: es =>
    obtain ⟨head, tail⟩ := List.forall_mem_cons.mp each
    rw [ofFactors] at failed
    split at failed
    · cases failed
    · rcases Result.bind_eq_error.mp failed with operand | ⟨y, _, rest⟩
      · exact notStarable_of_ofExpWith head.of_factor operand
      · exact notStarable_of_ofFactors tail rest

end

theorem notStarable_of_ofExp {e : Exp K} {error : Error} (regular : Exp.Regular s .sum e)
    (failed : ofExp s e = .error error) : ∃ text, error = .notStarable text := by
  unfold ofExp at failed
  cases depth : e.depth with
  | zero | succ =>
    rw [depth, ofExpWithin] at failed
    exact notStarable_of_ofExpWith regular failed

end Expansion

end WeightedAutomata
