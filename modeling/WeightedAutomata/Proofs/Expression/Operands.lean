import Mathlib.Data.List.Forall2
import WeightedAutomata.Proofs.Expression.Strength

/-! The texts of variadic nodes are read as their operands, combined from the left. -/

namespace WeightedAutomata.ExpressionSet

open Text Text.Reader

variable {K : Type} [Weights K] {s r : ExpressionSet} {e : Exp K} {es : List (Exp K)}
variable {t rest : List Char} {ts : List (List Char)} {fails strays : Bool}

theorem forall_right {A B : Type} {R : A → B → Prop} {P : B → Prop} {xs : List A} {ys : List B}
    (related : List.Forall₂ R xs ys) (implies : ∀ x y, R x y → P y) : ∀ y ∈ ys, P y := by
  induction related with
  | nil => simp
  | cons first _ ih => exact List.forall_mem_cons.mpr ⟨implies _ _ first, ih⟩

/-! ### Loops over operands -/

/-- A loop that combines operands with the sign in front of each, up to `rest`. -/
structure Looping (strays : Bool) (operand : Nat → Reader (Exp K))
    (loop : Nat → Exp K → Reader (Exp K)) (op : Exp K → Exp K → Exp K) (sign rest : List Char) :
    Prop where
  step : ∀ fuel acc pos t, Opens t → loop (fuel + 1) acc ⟨pos, sign ++ t⟩ =
    (do let e ← operand fuel; loop fuel (op acc e)) ⟨pos + sign.length, t⟩
  stop : ∀ fuel acc pos, loop (fuel + 1) acc ⟨pos, rest⟩ = .ok acc ⟨pos, rest⟩
  bar : strays = true → ∀ fuel acc pos tail,
    loop (fuel + 1) acc ⟨pos, '|' :: tail⟩ = .ok acc ⟨pos, '|' :: tail⟩

/-- Whether the reader of operands takes the text for the expression, if what comes next is in
`Next`. -/
def ReadsOperand (fails strays : Bool) (operand : Nat → Reader (Exp K)) (need : Nat)
    (Next : List Char → Prop) (s : ExpressionSet) (e : Exp K) (t : List Char) : Prop :=
  Opens t ∧ ∀ rest fuel, Next rest → 16 * (t ++ rest).length + need ≤ fuel →
    Reads fails strays (operand fuel) (t ++ rest) rest (Value fails s e)

section

variable {operand : Nat → Reader (Exp K)} {loop : Nat → Exp K → Reader (Exp K)}
variable {op : Exp K → Exp K → Exp K} {sign : List Char} {need : Nat} {Next : List Char → Prop}

/-- What comes after an operand is the sign of the next one or the end. -/
theorem next_of_all (next : ∀ t ∈ ts, ∀ more, Next (sign ++ t ++ more)) (last : Next rest) :
    Next (ts.flatMap (sign ++ ·) ++ rest) := by
  cases ts with
  | nil => exact last
  | cons t ts =>
    rw [List.flatMap_cons, List.append_assoc]
    exact next t List.mem_cons_self _

theorem Looping.reads (looping : Looping strays operand loop op sign rest)
    (small : need ≤ 16 * sign.length + 2)
    (operands : List.Forall₂ (ReadsOperand fails strays operand need Next s) es ts)
    (next : ∀ t ∈ ts, ∀ more, Next (sign ++ t ++ more)) (last : Next rest) (acc : Exp K)
    {fuel : Nat} (enough : 16 * (ts.flatMap (sign ++ ·) ++ rest).length + 3 ≤ fuel) :
    Reads fails strays (loop fuel acc) (ts.flatMap (sign ++ ·) ++ rest) rest
      fun v => fails = false → ∃ vs, s.normalizeEach es = .ok vs ∧ v = vs.foldl op acc := by
  induction operands generalizing acc fuel with
  | nil =>
    obtain ⟨fuel, rfl⟩ : ∃ n, fuel = n + 1 := ⟨fuel - 1, by omega⟩
    intro pos
    rw [List.flatMap_nil, List.nil_append, looping.stop]
    exact .ok fun _ => ⟨[], rfl, rfl⟩
  | @cons e t es ts first _ ih =>
    obtain ⟨opens, reads⟩ := first
    obtain ⟨_, others⟩ := List.forall_mem_cons.mp next
    have filled := opens.length_pos
    rw [List.flatMap_cons, List.append_assoc, List.append_assoc] at enough ⊢
    have follows : Next (ts.flatMap (sign ++ ·) ++ rest) := next_of_all others last
    generalize ts.flatMap (sign ++ ·) ++ rest = tail at enough ih follows ⊢
    simp only [List.length_append] at enough
    obtain ⟨fuel, rfl⟩ : ∃ n, fuel = n + 1 := ⟨fuel - 1, by omega⟩
    intro pos
    rw [looping.step _ _ _ _ (opens.append tail)]
    have operand := reads tail fuel follows (by rw [List.length_append]; omega)
    apply operand.bind_of_strays
    · intro v value
      apply (ih others (op acc v) (by omega)).imp
      intro w rest strict
      obtain ⟨vs, normal, same⟩ := rest strict
      refine ⟨v :: vs, ?_, same⟩
      rw [normalizeEach, value strict, normal]
      rfl
    · intro may v tail pos
      obtain ⟨fuel, rfl⟩ : ∃ n, fuel = n + 1 := ⟨fuel - 1, by omega⟩
      rw [looping.bar may]
      exact .strayed may

/-- The first operand and the loop over the others make the node. -/
theorem Looping.node {op : ExpressionSet → Exp K → Exp K → Exp K} {node : Exp K}
    (looping : Looping strays operand loop (op r) sign rest) (setting : Over fails r s)
    (normal : ∀ {x vs}, s.normalize e = .ok x → s.normalizeEach es = .ok vs →
      s.normalize node = .ok (vs.foldl (op s) x))
    (small : need ≤ 16 * sign.length + 2)
    (first : ReadsOperand fails strays operand need Next s e t)
    (operands : List.Forall₂ (ReadsOperand fails strays operand need Next s) es ts)
    (next : ∀ t ∈ ts, ∀ more, Next (sign ++ t ++ more)) (last : Next rest) {fuel : Nat}
    (enough : 16 * (t ++ ts.flatMap (sign ++ ·) ++ rest).length + need ≤ fuel) :
    Reads fails strays (do let e ← operand fuel; loop fuel e)
      (t ++ ts.flatMap (sign ++ ·) ++ rest) rest (Value fails s node) := by
  obtain ⟨opens, reads⟩ := first
  have filled := opens.length_pos
  rw [List.append_assoc] at enough ⊢
  have follows : Next (ts.flatMap (sign ++ ·) ++ rest) := next_of_all next last
  have operand := reads _ fuel follows enough
  rw [List.length_append] at enough
  apply operand.bind_of_strays
  · intro x value
    apply (looping.reads small operands next last x (by omega)).imp
    intro v others strict
    obtain ⟨vs, tail, same⟩ := others strict
    subst strict
    have setting : r = s := setting
    rw [normal (value rfl) tail, same, setting]
  · intro may x tail pos
    obtain ⟨fuel, rfl⟩ : ∃ n, fuel = n + 1 := ⟨fuel - 1, by omega⟩
    rw [looping.bar may]
    exact .strayed may

end

/-! ### Sums, conjunctions and shuffles -/

theorem looping_readTerms (r : ExpressionSet) (fails : Bool) (follows : Follows .sum rest) :
    Looping fails (readTuple · r) (readTerms · r) (r.add : Exp K → Exp K → Exp K) ['+'] rest where
  step fuel acc pos t _ := by
    have solid : Solid ('+' :: t) := fun _ same => Option.some.inj same ▸ by decide
    rw [readTerms]
    exact skipBlanks_bind solid _ _
  stop fuel acc pos := by
    apply readTerms_stop
    · exact fun c member => .inr (follows c member)
    · exact fun member => absurd (show '+' = ')' from follows _ member) (by decide)
  bar _ fuel acc pos tail := readTerms_bar tail

theorem looping_readConjuncts (r : ExpressionSet) (follows : Follows .conjunction rest) :
    Looping false (readShuffle · r) (readConjuncts · r) (r.conjunction : Exp K → Exp K → Exp K)
      ['&'] rest where
  step fuel acc pos t _ := by
    have solid : Solid ('&' :: t) := fun _ same => Option.some.inj same ▸ by decide
    rw [readConjuncts]
    exact skipBlanks_bind solid _ _
  stop fuel acc pos := readConjuncts_stop follows
  bar may := absurd may Bool.false_ne_true

theorem looping_readShuffled (r : ExpressionSet) (follows : Follows .shuffle rest) :
    Looping false (readProduct · r) (readShuffled · r) (r.shuffle : Exp K → Exp K → Exp K)
      [':'] rest where
  step fuel acc pos t _ := by
    have solid : Solid (':' :: t) := fun _ same => Option.some.inj same ▸ by decide
    rw [readShuffled]
    exact skipBlanks_bind solid _ _
  stop fuel acc pos := readShuffled_stop follows
  bar may := absurd may Bool.false_ne_true

theorem looping_readFactors (r : ExpressionSet) (follows : Follows .product rest) :
    Looping false (readWeighted · r) (readFactors · r) (r.mul : Exp K → Exp K → Exp K) [] rest where
  step fuel acc pos t opens := by
    obtain ⟨c, cs, rfl, solid, operand, dot⟩ := opens
    have plain : (some c == some '.') = false := by simpa using dot
    have starts : startsOperand (c :: cs) = true := Opens.startsOperand ⟨c, cs, rfl, solid, operand, dot⟩
    have front : Solid (c :: cs) := fun _ same => Option.some.inj same ▸ solid
    rw [readFactors]
    refine (skipBlanks_bind front _ _).trans ?_
    change (do
      if (some c == some '.') then
        advance 1
        skipBlanks
      if (some c == some '.') || startsOperand (← get).rest then
        let e ← readWeighted fuel r
        readFactors fuel r (r.mul acc e)
      else return acc : Reader (Exp K)) ⟨pos, c :: cs⟩ = _
    rw [plain]
    change (if false || startsOperand (c :: cs) then _ else _ : Reader (Exp K)) ⟨pos, c :: cs⟩ = _
    rw [starts]
    rfl
  stop fuel acc pos := readFactors_stop follows
  bar may := absurd may Bool.false_ne_true

theorem Reading.sum (first : Reading s e .tuple t)
    (others : List.Forall₂ (fun e t => Reading s e .tuple t) es ts) :
    Reading s (.sum (e :: es)) .sum (t ++ ts.flatMap (['+'] ++ ·)) where
  opens := first.opens.append _
  plain tight := absurd tight (Exp.not_rightStrength_le (by decide))
  reads {fails r} setting := by
    intro rest fuel follows enough
    obtain ⟨fuel, rfl⟩ : ∃ n, fuel = n + 1 := ⟨fuel - 1, by omega⟩
    have operand {e : Exp K} {t : List Char} (reading : Reading s e .tuple t) :
        ReadsOperand fails fails (readTuple · r) 7 (Follows .tuple) s e t :=
      ⟨reading.opens, reading.reads setting⟩
    have next : ∀ t ∈ ts, ∀ more, Follows .tuple (['+'] ++ t ++ more) :=
      fun _ _ _ => follows_cons (show Closes .tuple '+' from .inl rfl) _
    have ends : Follows .tuple rest := fun c member => .inr (follows c member)
    rw [readSum]
    apply (looping_readTerms r fails follows).node setting _ (by decide) (operand first)
      (others.imp fun _ _ => operand) next ends (by omega)
    intro x vs head tail
    rw [normalize, normalizeEach, head, tail]
    rfl

theorem Reading.conjunction (first : Reading s e .shuffle t)
    (others : List.Forall₂ (fun e t => Reading s e .shuffle t) es ts) :
    Reading s (.conjunction (e :: es)) .conjunction (t ++ ts.flatMap (['&'] ++ ·)) where
  opens := first.opens.append _
  plain tight := absurd tight (Exp.not_rightStrength_le (by decide))
  reads {fails r} setting := by
    intro rest fuel follows enough
    obtain ⟨fuel, rfl⟩ : ∃ n, fuel = n + 1 := ⟨fuel - 1, by omega⟩
    have operand {e : Exp K} {t : List Char} (reading : Reading s e .shuffle t) :
        ReadsOperand fails false (readShuffle · r) 4 (Follows .shuffle) s e t :=
      ⟨reading.opens, reading.reads setting⟩
    have next : ∀ t ∈ ts, ∀ more, Follows .shuffle (['&'] ++ t ++ more) :=
      fun _ _ _ => follows_cons (show Closes .shuffle '&' from .inl rfl) _
    have ends : Follows .shuffle rest := fun c member => .inr (follows c member)
    rw [readConjunction]
    apply (looping_readConjuncts r follows).node setting _ (by decide) (operand first)
      (others.imp fun _ _ => operand) next ends (by omega)
    intro x vs head tail
    rw [normalize, normalizeEach, head, tail]
    rfl

theorem Reading.shuffle (first : Reading s e .product t)
    (others : List.Forall₂ (fun e t => Reading s e .product t) es ts) :
    Reading s (.shuffle (e :: es)) .shuffle (t ++ ts.flatMap ([':'] ++ ·)) where
  opens := first.opens.append _
  plain tight := absurd tight (Exp.not_rightStrength_le (by decide))
  reads {fails r} setting := by
    intro rest fuel follows enough
    obtain ⟨fuel, rfl⟩ : ∃ n, fuel = n + 1 := ⟨fuel - 1, by omega⟩
    have operand {e : Exp K} {t : List Char} (reading : Reading s e .product t) :
        ReadsOperand fails false (readProduct · r) 3 (Follows .product) s e t :=
      ⟨reading.opens, reading.reads setting⟩
    have next : ∀ t ∈ ts, ∀ more, Follows .product ([':'] ++ t ++ more) :=
      fun _ _ _ => follows_cons (show Closes .product ':' from .inl rfl) _
    rw [readShuffle]
    apply (looping_readShuffled r follows).node setting _ (by decide) (operand first)
      (others.imp fun _ _ => operand) next (follows.product (by decide)) (by omega)
    intro x vs head tail
    rw [normalize, normalizeEach, head, tail]
    rfl

/-! ### Products -/

/-- The factors but the first have no weight in front. -/
theorem Reading.prod (first : Reading s e .weight t)
    (others : List.Forall₂ (fun e t => Reading s e .weight t ∧ Plain t) es ts) :
    Reading s (.prod (e :: es)) .product (t ++ ts.flatMap ([] ++ ·)) where
  opens := first.opens.append _
  plain tight := absurd tight (Exp.not_rightStrength_le (by decide))
  reads {fails r} setting := by
    intro rest fuel follows enough
    obtain ⟨fuel, rfl⟩ : ∃ n, fuel = n + 1 := ⟨fuel - 1, by omega⟩
    have operand {e : Exp K} {t : List Char} (reading : Reading s e .weight t) :
        ReadsOperand fails false (readWeighted · r) 2 (Follows .weight) s e t := by
      refine ⟨reading.opens, fun rest fuel follows enough pos => ?_⟩
      obtain ⟨fuel, rfl⟩ : ∃ n, fuel = n + 1 := ⟨fuel - 1, by omega⟩
      change Ends _ _ _ _ (readWeighted (fuel + 1) r ⟨pos, t ++ rest⟩)
      rw [readWeighted_eq (reading.opens.append rest).solid]
      exact (reading.reads setting).1 _ _ _ follows (by omega) (Nat.le_refl _) pos
    have plain : ∀ t ∈ ts, Opens t ∧ Plain t :=
      forall_right others fun _ _ reading => ⟨reading.1.opens, reading.2⟩
    have next : ∀ t ∈ ts, ∀ more, Follows .weight ([] ++ t ++ more) := by
      intro t member more
      obtain ⟨⟨c, cs, rfl, _, operand, _⟩, plain⟩ := plain t member
      have signs : ∀ d ∈ suffixSigns, d ∈ nonOperands := by simp [suffixSigns, nonOperands]
      exact follows_cons (show Closes .weight c from
        ⟨fun suffix => operand (signs c suffix), plain c rfl⟩) _
    have front := (first.opens.append (ts.flatMap ([] ++ ·))).append rest
    intro pos
    rw [readProduct, skipBlanks_bind front.solid]
    have here : (get : Reader Cursor) ⟨pos, t ++ ts.flatMap ([] ++ ·) ++ rest⟩ =
        .ok ⟨pos, t ++ ts.flatMap ([] ++ ·) ++ rest⟩ ⟨pos, t ++ ts.flatMap ([] ++ ·) ++ rest⟩ := rfl
    rw [bind_ok here, if_pos front.startsOperand]
    refine (looping_readFactors r follows).node setting ?_ (by decide) (operand first)
      (others.imp fun _ _ reading => operand reading.1) next follows.weight (by omega) pos
    intro x vs head tail
    rw [normalize, normalizeEach, head, tail]
    rfl

end WeightedAutomata.ExpressionSet
