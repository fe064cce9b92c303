import WeightedAutomata.Proofs.Expression.Reading
import WeightedAutomata.Proofs.Expression.Text

/-! Texts of one strength are texts of all looser ones, and in parentheses of all strengths. -/

namespace WeightedAutomata

/-- Whether labels are on one tape and have at most one letter each. -/
def LabelSet.Single : LabelSet → Prop
  | letters _ | nullable _ => True
  | words _ | tuple _ => False

/-- Whether labels are on one tape or on several, without tuples inside tuples. -/
def LabelSet.Flat : LabelSet → Prop
  | tuple tapes => 2 ≤ tapes.length ∧ ∀ tape ∈ tapes, tape.Single
  | ls => ls.Single

theorem LabelSet.Single.flat {ls : LabelSet} (single : ls.Single) : ls.Flat := by
  cases ls with
  | tuple => exact single.elim
  | _ => exact single

theorem LabelSet.Single.tapes? {ls : LabelSet} (single : ls.Single) : ls.tapes? = none := by
  cases ls with
  | tuple => exact single.elim
  | _ => rfl

namespace ExpressionSet

open Text Text.Reader
open Exp (Strength)

variable {K : Type} [Weights K]

/-! ### Parts of the reader of operands -/

/-- Takes an operand with its suffixes. -/
def readSuffixed (fuel : Nat) (s : ExpressionSet) : Reader (Exp K) := do
  let e ← readPrimary fuel s
  suffixes s (← get).rest.length e

/-- Takes an operand with its suffixes and right weights. -/
def readTrailed (fuel : Nat) (s : ExpressionSet) : Reader (Exp K) := do
  let e ← readSuffixed fuel s
  rightWeights s (← get).rest.length e

/-- Takes an operand with all its weights, at most `n` of them on the left. -/
def readOperand (fuel : Nat) (s : ExpressionSet) (n : Nat) : Reader (Exp K) := do
  let lefts ← leftWeights n
  let e ← readTrailed fuel s
  return lefts.foldr s.lweight e

variable {s r : ExpressionSet} {e : Exp K} {fuel pos : Nat} {rest t cs : List Char}
variable {fails : Bool} {P : Exp K → Prop} {L : Strength}

theorem readWeighted_eq (solid : Solid cs) : (readWeighted (fuel + 1) s : Reader (Exp K)) ⟨pos, cs⟩ =
    readOperand fuel s cs.length ⟨pos, cs⟩ := by
  rw [readWeighted, skipBlanks_bind solid]
  have front : (get : Reader Cursor) ⟨pos, cs⟩ = .ok ⟨pos, cs⟩ ⟨pos, cs⟩ := rfl
  rw [bind_ok front]
  unfold readOperand readTrailed readSuffixed
  simp only [bind_assoc]

/-! ### Texts of each strength -/

/-- Whether the readers of `r` take the text for one of the strength, up to anything that ends such
a text, with an expression in `P`. Where the reading `fails`, it may end with an error instead, and
sums and tuples may end at a bar. -/
def ReadAt (fails : Bool) (r : ExpressionSet) (P : Exp K → Prop) : Strength → List Char → Prop
  | .sum, t => ∀ rest fuel, Follows .sum rest → 16 * (t ++ rest).length + 8 ≤ fuel →
      Reads fails fails (readSum fuel r) (t ++ rest) rest P
  | .tuple, t => ∀ rest fuel, Follows .tuple rest → 16 * (t ++ rest).length + 7 ≤ fuel →
      Reads fails fails (readTuple fuel r) (t ++ rest) rest P
  | .conjunction, t => ∀ rest fuel, Follows .conjunction rest →
      16 * (t ++ rest).length + 5 ≤ fuel →
      Reads fails false (readConjunction fuel r) (t ++ rest) rest P
  | .shuffle, t => ∀ rest fuel, Follows .shuffle rest → 16 * (t ++ rest).length + 4 ≤ fuel →
      Reads fails false (readShuffle fuel r) (t ++ rest) rest P
  | .product, t => ∀ rest fuel, Follows .product rest → 16 * (t ++ rest).length + 3 ≤ fuel →
      Reads fails false (readProduct fuel r) (t ++ rest) rest P
  | .weight, t =>
      (∀ rest fuel n, Follows .weight rest → 16 * (t ++ rest).length + 1 ≤ fuel →
        (t ++ rest).length ≤ n → Reads fails false (readOperand fuel r n) (t ++ rest) rest P) ∧
      (Plain t → ∀ rest fuel, Unsuffixed rest → 16 * (t ++ rest).length + 1 ≤ fuel →
        Continues fails (readTrailed fuel r) (rightWeights r) (t ++ rest) rest P)
  | .suffix, t => ∀ rest fuel, 16 * (t ++ rest).length + 1 ≤ fuel →
      Continues fails (readSuffixed fuel r) (suffixes r) (t ++ rest) rest P
  | .leaf, t => ∀ rest fuel, 16 * (t ++ rest).length + 1 ≤ fuel →
      Reads fails false (readPrimary fuel r) (t ++ rest) rest P

theorem ReadAt.suffix (read : ReadAt fails r P .leaf t) : ReadAt fails r P .suffix t :=
  fun rest fuel enough => (read rest fuel enough).continues

/-- A text that does not begin with a weight is one of an operand with right weights. -/
theorem ReadAt.weight_of_trailed (opens : Opens t) (plain : Plain t)
    (trailed : ∀ rest fuel, Unsuffixed rest → 16 * (t ++ rest).length + 1 ≤ fuel →
      Continues fails (readTrailed fuel r) (rightWeights r) (t ++ rest) rest P) :
    ReadAt fails r P .weight t := by
  constructor
  · intro rest fuel n follows enough _
    have whole : Reads fails false (readTrailed fuel r) (t ++ rest) rest P :=
      (trailed rest fuel follows.unsuffixed enough).reads
        fun n e pos => rightWeights_stop follows.plain n
    intro pos
    unfold readOperand
    rw [bind_ok (leftWeights_stop (opens.plain_append plain rest) n)]
    exact whole.then_stop (fun e pos => rfl) pos
  · exact fun _ => trailed

theorem ReadAt.weight (opens : Opens t) (plain : Plain t) (read : ReadAt fails r P .suffix t) :
    ReadAt fails r P .weight t := by
  apply ReadAt.weight_of_trailed opens plain
  intro rest fuel unsuffixed enough
  apply Reads.continues
  exact (read rest fuel enough).reads fun n e pos => suffixes_stop unsuffixed n

theorem ReadAt.product (opens : Opens t) (read : ReadAt fails r P .weight t) :
    ReadAt fails r P .product t := by
  intro rest fuel follows enough pos
  have front := opens.append rest
  obtain ⟨fuel, rfl⟩ : ∃ n, fuel = n + 3 := ⟨fuel - 3, by omega⟩
  have operand : Reads fails false (readWeighted (fuel + 2) r) (t ++ rest) rest P := by
    intro pos
    rw [readWeighted_eq front.solid]
    exact read.1 _ _ _ follows.weight (by omega) (Nat.le_refl _) pos
  rw [readProduct, skipBlanks_bind front.solid]
  have here : (get : Reader Cursor) ⟨pos, t ++ rest⟩ = .ok ⟨pos, t ++ rest⟩ ⟨pos, t ++ rest⟩ := rfl
  rw [bind_ok here, if_pos front.startsOperand]
  exact operand.then_stop (fun e pos => readFactors_stop follows) pos

theorem ReadAt.shuffle (read : ReadAt fails r P .product t) : ReadAt fails r P .shuffle t := by
  intro rest fuel follows enough
  obtain ⟨fuel, rfl⟩ : ∃ n, fuel = n + 2 := ⟨fuel - 2, by omega⟩
  rw [readShuffle]
  exact (read _ _ (follows.product (by decide)) (by omega)).then_stop
    fun e pos => readShuffled_stop follows

theorem ReadAt.conjunction (read : ReadAt fails r P .shuffle t) :
    ReadAt fails r P .conjunction t := by
  intro rest fuel follows enough
  obtain ⟨fuel, rfl⟩ : ∃ n, fuel = n + 2 := ⟨fuel - 2, by omega⟩
  have ends : Follows .shuffle rest := fun c member => .inr (follows c member)
  rw [readConjunction]
  exact (read _ _ ends (by omega)).then_stop fun e pos => readConjuncts_stop follows

/-- On one tape there is nothing between conjunctions and sums. -/
theorem ReadAt.tuple_of_single (single : r.labels.tapes? = none)
    (read : ReadAt fails r P .conjunction t) : ReadAt fails r P .tuple t := by
  intro rest fuel follows enough
  obtain ⟨fuel, rfl⟩ : ∃ n, fuel = n + 1 := ⟨fuel - 1, by omega⟩
  have ends : Follows .conjunction rest := fun c member => .inr (follows c member)
  rw [readTuple, single]
  exact (read _ _ ends (by omega)).stray

theorem readTapes_first {tape : ExpressionSet} (front : r.tape? 0 = some tape) (count : Nat) :
    (readTapes (fuel + 1) r 0 (count + 1) : Reader (List (Exp K))) = do
      let e ← readConjunction fuel tape
      return e :: (← readTapes fuel r 1 count) := by
  rw [readTapes, if_neg (Nat.lt_irrefl 0), front]

theorem readTapes_next {tape : ExpressionSet} {i : Nat} (here : r.tape? (i + 1) = some tape)
    (count : Nat) :
    (readTapes (fuel + 1) r (i + 1) (count + 1) : Reader (List (Exp K))) = do
      expect '|'
      let e ← readConjunction fuel tape
      return e :: (← readTapes fuel r (i + 2) count) := by
  rw [readTapes, if_pos (Nat.succ_pos i), here]

/-- An operation on tuples is not taken for the expression of the first tape: whatever that reader
makes of it, no bar comes next. -/
theorem ReadAt.tuple_of_tapes {first second : LabelSet} {others : List LabelSet}
    (several : r.labels = .tuple (first :: second :: others))
    (astray : ReadAt true { r with labels := first } (fun _ : Exp K => True) .conjunction t)
    (read : ReadAt false r P .conjunction t) : ReadAt false r P .tuple t := by
  intro rest fuel follows enough pos
  obtain ⟨fuel, rfl⟩ : ∃ n, fuel = n + 3 := ⟨fuel - 3, by omega⟩
  have ends : Follows .conjunction rest := fun c member => .inr (follows c member)
  have tapes : r.labels.tapes? = some (first :: second :: others) := by
    rw [several]
    rfl
  have front : r.tape? 0 = some { r with labels := first } := by
    unfold tape? LabelSet.tape?
    rw [tapes]
    rfl
  have next : r.tape? 1 = some { r with labels := second } := by
    unfold tape? LabelSet.tape?
    rw [tapes]
    rfl
  have bar : '|' ∉ rest.head? := by
    intro member
    rcases follows _ member with same | same <;> exact absurd same (by decide)
  have refused : Reads true false (readTapes (fuel + 2) r 0 (others.length + 2) :
      Reader (List (Exp K))) (t ++ rest) rest fun _ => False := by
    rw [readTapes_first front]
    apply (astray _ _ ends (by omega)).bind
    intro e _
    apply Reads.of_error
    intro pos
    obtain ⟨error, c, refused⟩ := expect_error (follows.product (by decide)).solid bar pos
    rw [readTapes_next next]
    exact ⟨error, c, bind_error (bind_error refused)⟩
  obtain ⟨byTapes, stop, refused⟩ := refused.error pos
  have whole : Reads false false (readConjunction (fuel + 2) r) (t ++ rest) rest P :=
    read _ _ ends (by omega)
  obtain ⟨e, c, done, value⟩ := whole.value pos
  have fails : (do lift (r.tuple (← readTapes (fuel + 2) r 0 (others.length + 2))) :
      Reader (Exp K)) ⟨pos, t ++ rest⟩ = .error byTapes stop := bind_error refused
  rw [readTuple, tapes]
  dsimp only [List.length_cons]
  rw [fails]
  dsimp only
  rw [done]
  exact .ok value

/-- The terms of a sum stop where the sum does. -/
theorem ReadAt.sum (read : ReadAt fails r P .tuple t) : ReadAt fails r P .sum t := by
  intro rest fuel follows enough
  obtain ⟨fuel, rfl⟩ : ∃ n, fuel = n + 2 := ⟨fuel - 2, by omega⟩
  have ends : Follows .tuple rest := fun c member => .inr (follows c member)
  have plus : '+' ∉ rest.head? := fun member => absurd (show '+' = ')' from follows _ member) (by decide)
  rw [readSum]
  apply (read _ _ ends (by omega)).bind_of_strays
  · intro e value pos
    rw [readTerms_stop ends plus]
    exact .ok value
  · intro may e tail pos
    rw [readTerms_bar]
    exact .strayed may

/-- Parentheses make a leaf of any text: a bar that was met inside them is an error. -/
theorem ReadAt.parenthesized (read : ReadAt fails r P .sum t) :
    ReadAt fails r P .leaf ('(' :: (t ++ [')'])) := by
  intro rest fuel enough pos
  simp only [List.cons_append, List.append_assoc, List.nil_append, List.length_cons] at enough ⊢
  obtain ⟨fuel, rfl⟩ : ∃ n, fuel = n + 1 := ⟨fuel - 1, by omega⟩
  have inner : Reads fails false (do let e ← readSum fuel r; expect ')'; return e)
      (t ++ ')' :: rest) rest P := by
    apply (read _ _ (follows_cons (show Closes .sum ')' from rfl) rest) (by omega)).bind_of_strays
    · intro e value pos
      rw [bind_ok (expect_cons (by decide) pos rest)]
      exact .ok value
    · intro may e tail pos
      have solid : Solid ('|' :: tail) := fun _ same => Option.some.inj same ▸ by decide
      obtain ⟨error, c, refused⟩ := expect_error solid (by simp : ')' ∉ ('|' :: tail).head?) pos
      rw [bind_error refused]
      exact .failed may
  rw [readPrimary]
  exact inner (pos + 1)

/-! ### Readings -/

/-- The sets whose readers count: the set itself, or where reading `fails`, all those of one
tape. -/
def Over (fails : Bool) (r s : ExpressionSet) : Prop :=
  if fails then r.labels.tapes? = none else r = s

/-- Whether the value is the normal form of the expression. Where reading `fails` it does not
matter. -/
def Value (fails : Bool) (s : ExpressionSet) (e v : Exp K) : Prop :=
  fails = false → s.normalize e = .ok v

/-- The text, of this strength, is read as the expression. -/
structure Reading (s : ExpressionSet) (e : Exp K) (strength : Strength) (t : List Char) : Prop where
  opens : Opens t
  /-- Only a left weight, or what is looser than one, begins with a weight. -/
  plain : e.rightStrength.level ≤ strength.level → Plain t
  reads : ∀ {fails r}, Over fails r s → ReadAt fails r (Value fails s e) strength t

variable {M : Strength} {style : Style}

/-! ### Looser strengths -/

/-- The next looser strength. -/
def looser : Strength → Strength
  | .leaf => .suffix
  | .suffix => .weight
  | .weight => .product
  | .product => .shuffle
  | .shuffle => .conjunction
  | .conjunction => .tuple
  | .tuple | .sum => .sum

theorem Reading.tuple (flat : s.labels.Flat) (reading : Reading s e .conjunction t) :
    Reading s e .tuple t where
  opens := reading.opens
  plain tight := absurd tight (Exp.not_rightStrength_le (by decide))
  reads {fails r} setting := by
    cases fails with
    | true => exact (reading.reads setting).tuple_of_single setting
    | false =>
      have same : r = s := setting
      subst same
      cases several : r.labels with
      | tuple tapes =>
        rw [several] at flat
        obtain ⟨first, second, others, rfl⟩ : ∃ a b rest, tapes = a :: b :: rest := by
          match tapes, flat.1 with
          | a :: b :: rest, _ => exact ⟨a, b, rest, rfl⟩
        have single : first.Single := flat.2 first List.mem_cons_self
        apply ReadAt.tuple_of_tapes several _ (reading.reads setting)
        have other : Over true { r with labels := first } r := single.tapes?
        have astray := reading.reads other
        exact fun rest fuel follows enough => (astray rest fuel follows enough).imp fun _ _ => trivial
      | letters | nullable | words =>
        apply (reading.reads setting).tuple_of_single
        rw [several]
        rfl

theorem Reading.looser (flat : s.labels.Flat) (reading : Reading s e L t) :
    Reading s e (looser L) t := by
  cases L with
  | leaf =>
    exact ⟨reading.opens, fun _ => reading.plain (Nat.le_succ_of_le (Exp.rightStrength_le e)),
      fun setting => (reading.reads setting).suffix⟩
  | suffix =>
    have plain := reading.plain (Exp.rightStrength_le e)
    exact ⟨reading.opens, fun _ => plain,
      fun setting => (reading.reads setting).weight reading.opens plain⟩
  | weight =>
    exact ⟨reading.opens, fun tight => absurd tight (Exp.not_rightStrength_le (by decide)),
      fun setting => (reading.reads setting).product reading.opens⟩
  | product =>
    exact ⟨reading.opens, fun tight => absurd tight (Exp.not_rightStrength_le (by decide)),
      fun setting => (reading.reads setting).shuffle⟩
  | shuffle =>
    exact ⟨reading.opens, fun tight => absurd tight (Exp.not_rightStrength_le (by decide)),
      fun setting => (reading.reads setting).conjunction⟩
  | conjunction => exact reading.tuple flat
  | tuple =>
    exact ⟨reading.opens, fun tight => absurd tight (Exp.not_rightStrength_le (by decide)),
      fun setting => (reading.reads setting).sum⟩
  | sum => exact reading

theorem level_looser (L : Strength) : (looser L).level = L.level - 1 := by
  cases L <;> rfl

theorem eq_of_level (same : L.level = M.level) : L = M := by
  cases L <;> cases M <;> first | rfl | exact absurd same (by decide)

/-- A text of one strength is one of all looser strengths. -/
theorem Reading.loosen (flat : s.labels.Flat) (reading : Reading s e L t)
    (below : M.level ≤ L.level) : Reading s e M t := by
  obtain ⟨steps, far⟩ : ∃ n, L.level = M.level + n := ⟨L.level - M.level, by omega⟩
  induction steps generalizing L with
  | zero => exact eq_of_level far ▸ reading
  | succ steps ih =>
    have next : (ExpressionSet.looser L).level = M.level + steps := by
      rw [level_looser]
      omega
    exact ih (reading.looser flat) (by omega) next

/-- In parentheses a text has all strengths. -/
theorem Reading.parenthesized (flat : s.labels.Flat) (reading : Reading s e L t) (M : Strength) :
    Reading s e M ('(' :: (t ++ [')'])) := by
  have leaf : Reading s e .leaf ('(' :: (t ++ [')'])) := {
    opens := ⟨'(', t ++ [')'], rfl, by decide, by decide, by decide⟩
    plain := fun _ c same => Option.some.inj same ▸ by decide
    reads := fun setting => ((reading.loosen flat (Nat.zero_le _)).reads setting).parenthesized }
  exact leaf.loosen flat (by cases M <;> decide)

/-- With parentheses where it needs them, a text has the strength that is asked for. -/
theorem Reading.guarded (flat : s.labels.Flat) (reading : Reading s e e.strength (e.chars style))
    (least : Strength) : Reading s e least (e.guardedChars style least) := by
  unfold Exp.guardedChars
  split
  · exact reading.parenthesized flat least
  · next strong => exact reading.loosen flat (Nat.not_lt.mp strong)

end ExpressionSet

end WeightedAutomata
