import WeightedAutomata.Expression.Posix
import WeightedAutomata.Proofs.Text.Reading

/-! The two POSIX dialects write one grammar in different signs: a sequence of tokens is read as the
same expression in both of them, or in none. -/

namespace WeightedAutomata

open Text Text.Reader

namespace Posix

/-- The characters that are no letters in one of the dialects. -/
def signs : List Char := "\\[].^$*+?\x7b\x7d()|".toList

/-- The signs of a text that both dialects can write. -/
inductive Token where
  | letter (c : Char) (plain : c ∉ signs)
  | bar
  | opening
  | closing
  | star
  /-- The bounds of a repetition. -/
  | interval (body : List Char) (plain : ∀ c ∈ body, c ≠ '\x7b' ∧ c ≠ '\x7d' ∧ c ≠ '\\')

/-- An operator, which stands after a backslash in the basic dialect. -/
def operator (c : Char) : Posix → List Char
  | .extended => [c]
  | .basic => ['\\', c]

/-- The text of a token. -/
def Token.spell (dialect : Posix) : Token → List Char
  | .letter c _ => [c]
  | .bar => operator '|' dialect
  | .opening => operator '(' dialect
  | .closing => operator ')' dialect
  | .star => ['*']
  | .interval body _ => operator '\x7b' dialect ++ body ++ operator '\x7d' dialect

/-- The text of tokens. -/
def spell (dialect : Posix) (ts : List Token) : List Char := ts.flatMap (Token.spell dialect)

variable {dialect : Posix} {ts : List Token}

theorem spell_cons (t : Token) (ts : List Token) :
    spell dialect (t :: ts) = t.spell dialect ++ spell dialect ts := List.flatMap_cons

theorem length_spell_token_pos (t : Token) : 0 < (t.spell dialect).length := by
  cases t <;> cases dialect <;> simp [Token.spell, operator]

theorem length_le_spell (ts : List Token) : ts.length ≤ (spell dialect ts).length := by
  induction ts with
  | nil => exact Nat.zero_le _
  | cons t ts ih =>
    have one : 0 < (t.spell dialect).length := length_spell_token_pos t
    rw [spell_cons, List.length_append, List.length_cons]
    omega

theorem spell_ne_nil (dialect : Posix) (inhabited : ts ≠ []) : spell dialect ts ≠ [] := by
  intro empty
  have short : ts.length ≤ (spell dialect ts).length := length_le_spell ts
  rw [empty] at short
  exact inhabited (List.length_eq_zero_iff.mp (Nat.le_zero.mp short))

/-- The sign of the operators that stand alone. -/
def Token.sign? : Token → Option Char
  | .bar => some '|'
  | .opening => some '('
  | .closing => some ')'
  | .letter .. | .star | .interval .. => none

/-- Whether the token repeats what stands before it. -/
def Token.Repeats : Token → Bool
  | .star | .interval .. => true
  | .letter .. | .bar | .opening | .closing => false

end Posix

open Posix

namespace ExpressionSet

variable {K : Type} [Weights K] {s : ExpressionSet} {dialect : Posix} {op : Char} {t : Token}
variable {ts : List Token} {k m n : Nat}

/-! ### Operators -/

/-- An operator stands where its token does. -/
theorem operatorLength?_spell (listed : op ∈ ['|', '(', ')']) (ts : List Token) :
    operatorLength? dialect op (spell dialect ts) =
      if ts.head?.bind Token.sign? = some op then some (operator op dialect).length else none := by
  have known : op ∈ signs ∧ op ≠ '*' ∧ op ≠ '\x7b' := by
    simp only [List.mem_cons, List.not_mem_nil, or_false] at listed
    rcases listed with rfl | rfl | rfl <;> decide
  cases ts with
  | nil => cases dialect <;> rfl
  | cons t ts =>
    rw [spell_cons, List.head?_cons, Option.bind_some]
    cases t with
    | letter c plain =>
      have differ : c ≠ op := fun same => plain (same ▸ known.1)
      have escape : c ≠ '\\' := fun same => plain (same ▸ by decide)
      cases dialect <;> simp [Token.spell, Token.sign?, operatorLength?, differ, escape]
    | star => cases dialect <;> simp [Token.spell, Token.sign?, operatorLength?, known.2.1.symm]
    | interval body plain =>
      cases dialect <;>
        simp [Token.spell, Token.sign?, operatorLength?, operator, known.2.2.symm]
    | bar | opening | closing =>
      cases dialect <;> simp [Token.spell, Token.sign?, operatorLength?, operator]

/-! ### Outcomes -/

/-- Whether two readers of the two dialects fail both, or have the same value and stop before the
same tokens, `n` at most. -/
inductive Agree {α : Type} (n : Nat) :
    EStateM.Result Error Cursor α → EStateM.Result Error Cursor α → Prop where
  | ok (v : α) (p q : Nat) {rest : List Token} (short : rest.length ≤ n) :
    Agree n (.ok v ⟨p, spell .extended rest⟩) (.ok v ⟨q, spell .basic rest⟩)
  | failed (e e' : Error) (c d : Cursor) : Agree n (.error e c) (.error e' d)

/-- Whether two readers agree on the texts of the tokens. -/
def Alike {α : Type} (n : Nat) (x y : Reader α) (ts : List Token) : Prop :=
  ∀ p q, Agree n (x ⟨p, spell .extended ts⟩) (y ⟨q, spell .basic ts⟩)

section

variable {α β : Type} {x y : Reader α} {f g : α → Reader β}

theorem Agree.mono {r r' : EStateM.Result Error Cursor α} (agree : Agree m r r') (le : m ≤ n) :
    Agree n r r' := by
  cases agree with
  | ok v p q short => exact .ok v p q (Nat.le_trans short le)
  | failed e e' c d => exact .failed e e' c d

theorem Agree.bind {c d : Cursor} (first : Agree m (x c) (y d))
    (next : ∀ v rest, rest.length ≤ m → Alike n (f v) (g v) rest) :
    Agree n ((x >>= f) c) ((y >>= g) d) := by
  generalize left : x c = r at first
  generalize right : y d = r' at first
  cases first with
  | ok v p q short =>
    rw [bind_ok left, bind_ok right]
    exact next v _ short p q
  | failed e e' c d =>
    rw [bind_error left, bind_error right]
    exact .failed e e' c d

/-- What the readers make of whole texts. -/
theorem Agree.parse {cs ds : List Char}
    (agree : Agree n (x (Cursor.ofText cs)) (y (Cursor.ofText ds))) (v : α) :
    Reader.parse x cs = .ok v ↔ Reader.parse y ds = .ok v := by
  unfold Reader.parse
  generalize x (Cursor.ofText cs) = r at agree
  generalize y (Cursor.ofText ds) = r' at agree
  cases agree with
  | ok => exact Iff.rfl
  | failed => exact iff_of_false nofun nofun

/-- Whether the outcome of a reader that takes nothing does not depend on its place. -/
def Placeless (x : Reader α) (y : Reader α) : Prop :=
  (∃ v, ∀ c d, x c = .ok v c ∧ y d = .ok v d) ∨
    ∀ c d, (∃ e c', x c = .error e c') ∧ ∃ e d', y d = .error e d'

theorem Placeless.alike (placeless : Placeless x y) (ts : List Token) :
    Alike ts.length x y ts := by
  intro p q
  rcases placeless with ⟨v, same⟩ | failed
  · obtain ⟨left, right⟩ := same ⟨p, spell .extended ts⟩ ⟨q, spell .basic ts⟩
    rw [left, right]
    exact .ok v p q (Nat.le_refl _)
  · obtain ⟨⟨e, c, left⟩, e', d, right⟩ := failed ⟨p, spell .extended ts⟩ ⟨q, spell .basic ts⟩
    rw [left, right]
    exact .failed e e' c d

theorem placeless_lift {r r' : Result α} (same : r.toOption = r'.toOption) :
    Placeless (lift r) (lift r') := by
  cases r with
  | ok v =>
    cases r' with
    | ok v' =>
      cases same
      exact .inl ⟨v, fun c d => ⟨rfl, rfl⟩⟩
    | error e => cases same
  | error e =>
    cases r' with
    | ok v => cases same
    | error e' => exact .inr fun c d => ⟨⟨e, c, rfl⟩, e', d, rfl⟩

theorem Placeless.bind (first : Placeless x y) (next : ∀ v, Placeless (f v) (g v)) :
    Placeless (x >>= f) (y >>= g) := by
  rcases first with ⟨v, same⟩ | failed
  · rcases next v with ⟨w, same'⟩ | failed'
    · refine .inl ⟨w, fun c d => ?_⟩
      rw [bind_ok (same c d).1, bind_ok (same c d).2]
      exact same' c d
    · refine .inr fun c d => ?_
      rw [bind_ok (same c d).1, bind_ok (same c d).2]
      exact failed' c d
  · refine .inr fun c d => ?_
    obtain ⟨⟨e, c', left⟩, e', d', right⟩ := failed c d
    exact ⟨⟨e, c', bind_error left⟩, e', d', bind_error right⟩

end

/-! ### Letters and bounds -/

omit [Weights K] in
theorem placeless_letterAtom (s : ExpressionSet) (c : Char) (p q : Nat) :
    Placeless (s.letterAtom c p : Reader (Exp K)) (s.letterAtom c q) := by
  unfold letterAtom
  split
  · exact .inr fun c d => ⟨⟨_, _, rfl⟩, _, _, rfl⟩
  · exact (placeless_lift rfl).bind fun _ => .inl ⟨_, fun _ _ => ⟨rfl, rfl⟩⟩

theorem toOption_bind_congr {α β : Type} {r r' : Result α} {f g : α → Result β}
    (same : r.toOption = r'.toOption) (next : ∀ v, (f v).toOption = (g v).toOption) :
    (r >>= f).toOption = (r' >>= g).toOption := by
  cases r with
  | ok v =>
    cases r' with
    | ok v' =>
      cases same
      exact next v
    | error e => cases same
  | error e =>
    cases r' with
    | ok v => cases same
    | error e' => rfl

theorem toOption_number (count : Option Nat) (e e' : Error) :
    (match count with
      | some n => .ok n
      | none => .error e : Result Nat).toOption =
    (match count with
      | some n => .ok n
      | none => .error e' : Result Nat).toOption := by
  cases count <;> rfl

/-- Only errors tell where bounds stand. -/
theorem toOption_bounds (body : List Char) (span span' : Span) :
    (bounds body span).toOption = (bounds body span').toOption := by
  unfold bounds
  dsimp only
  cases splitOnce ',' body with
  | none => exact toOption_bind_congr (toOption_number _ _ _) fun _ => rfl
  | some parts =>
    obtain ⟨low, high⟩ := parts
    dsimp only
    -- The lower bound may be missing, and so may the upper one.
    split
    case' isTrue => refine toOption_bind_congr rfl fun min => ?_
    case' isFalse => refine toOption_bind_congr (toOption_number _ _ _) fun min => ?_
    all_goals
      split
      case' isTrue => refine toOption_bind_congr rfl fun max => ?_
      case' isFalse =>
        have number := toOption_number (count64? (trim high))
        refine toOption_bind_congr (toOption_bind_congr (number _ _) fun _ => rfl) fun max => ?_
      all_goals split <;> rfl

theorem alike_repeated (s : ExpressionSet) (body : List Char) (e : Exp K) (p q : Nat)
    (ts : List Token) : Alike ts.length (s.repeated p body e) (s.repeated q body e) ts := by
  intro p' q'
  have same := toOption_bounds body ⟨p, p'⟩ ⟨q, q'⟩
  exact ((placeless_lift same).bind fun ((min, max) : Nat × Option Nat) =>
    placeless_lift (rfl : (s.power e min max).toOption = _)).alike ts p' q'

/-! ### Repetitions -/

theorem get_eq (c : Cursor) : (get : Reader Cursor) c = .ok c c := rfl

theorem splitInterval_append {body : List Char} (plain : ∀ c ∈ body, c ≠ '\\') (cs : List Char) :
    splitInterval (body ++ '\\' :: '\x7d' :: cs) = some (body, cs) := by
  induction body with
  | nil => rfl
  | cons c body ih =>
    obtain ⟨first, others⟩ := List.forall_mem_cons.mp plain
    rw [List.cons_append, splitInterval.eq_3 _ _ (by simp [first]), ih others]
    rfl

theorem repetitions_star (fuel : Nat) (e : Exp K) (pos : Nat) (ts : List Token) :
    s.repetitions dialect (fuel + 1) e ⟨pos, spell dialect (.star :: ts)⟩ =
      s.repetitions dialect fuel (s.star e) ⟨pos + 1, spell dialect ts⟩ := by
  cases dialect <;> rfl

theorem repetitions_interval {body : List Char}
    (plain : ∀ c ∈ body, c ≠ '\x7b' ∧ c ≠ '\x7d' ∧ c ≠ '\\') (fuel : Nat) (e : Exp K) (pos : Nat)
    (ts : List Token) : ∃ stop,
    s.repetitions dialect (fuel + 1) e ⟨pos, spell dialect (.interval body plain :: ts)⟩ =
      (s.repeated pos body e >>= s.repetitions dialect fuel) ⟨stop, spell dialect ts⟩ := by
  let next (body : List Char) : Reader (Exp K) :=
    s.repeated pos body e >>= s.repetitions dialect fuel
  cases dialect with
  | extended =>
    let cs := spell .extended ts
    have text : spell .extended (.interval body plain :: ts) =
        '\x7b' :: (body ++ '\x7d' :: cs) := by
      simp [spell_cons, Token.spell, operator, cs]
    refine ⟨pos + 1 + body.length + 1, ?_⟩
    calc s.repetitions .extended (fuel + 1) e ⟨pos, spell .extended (.interval body plain :: ts)⟩
        = (delimited '\x7b' '\x7d' >>= next) ⟨pos + 1, body ++ '\x7d' :: cs⟩ := by
          rw [text]
          rfl
      _ = next body ⟨pos + 1 + body.length + 1, cs⟩ :=
          bind_ok (delimited_append (by decide) (by decide) plain (pos + 1) cs)
  | basic =>
    let cs := spell .basic ts
    have text : spell .basic (.interval body plain :: ts) =
        '\\' :: '\x7b' :: (body ++ '\\' :: '\x7d' :: cs) := by
      simp [spell_cons, Token.spell, operator, cs]
    have taken : basicInterval pos ⟨pos + 2, body ++ '\\' :: '\x7d' :: cs⟩ =
        .ok body ⟨pos + 2 + body.length + 2, cs⟩ := by
      unfold basicInterval
      rw [splitInterval_append fun c member => (plain c member).2.2]
    refine ⟨pos + 2 + body.length + 2, ?_⟩
    calc s.repetitions .basic (fuel + 1) e ⟨pos, spell .basic (.interval body plain :: ts)⟩
        = (basicInterval pos >>= next) ⟨pos + 2, body ++ '\\' :: '\x7d' :: cs⟩ := by
          rw [text]
          rfl
      _ = next body ⟨pos + 2 + body.length + 2, cs⟩ := bind_ok taken

/-- Repetitions end at the other tokens. -/
theorem repetitions_stop (other : ∀ t ∈ ts.head?, t.Repeats = false) (fuel : Nat) (e : Exp K)
    (pos : Nat) : s.repetitions dialect fuel e ⟨pos, spell dialect ts⟩ =
      .ok e ⟨pos, spell dialect ts⟩ := by
  obtain _ | fuel := fuel
  · rfl
  cases ts with
  | nil => cases dialect <;> rfl
  | cons t ts =>
    have other : t.Repeats = false := other t rfl
    cases t with
    | letter c plain =>
      have known (d : Char) (sign : d ∈ signs) : c ≠ d := fun same => plain (same ▸ sign)
      have no_sign : c ≠ '*' ∧ c ≠ '+' ∧ c ≠ '?' ∧ c ≠ '\x7b' ∧ c ≠ '\\' := by
        refine ⟨?_, ?_, ?_, ?_, ?_⟩ <;> exact known _ (by decide)
      generalize start : spell dialect (.letter c plain :: ts) = cs
      unfold repetitions
      rw [bind_ok (rfl : position ⟨pos, cs⟩ = .ok pos _), bind_ok (get_eq _), ← start, spell_cons]
      cases dialect <;> simp [Token.spell, no_sign] <;> rfl
    | bar | opening | closing => cases dialect <;> rfl
    | star | interval => cases other

/-- Every round of repetitions takes a token. -/
theorem alike_repetitions (s : ExpressionSet) (ts : List Token) (e : Exp K)
    (extended : ts.length ≤ m) (basic : ts.length ≤ n) :
    Alike ts.length (s.repetitions .extended m e) (s.repetitions .basic n e) ts := by
  have stop {ts : List Token} (e : Exp K) (m n : Nat) (other : ∀ t ∈ ts.head?, t.Repeats = false) :
      Alike ts.length (s.repetitions .extended m e) (s.repetitions .basic n e) ts := by
    intro p q
    rw [repetitions_stop other, repetitions_stop other]
    exact .ok e p q (Nat.le_refl _)
  induction m generalizing n ts e with
  | zero =>
    obtain rfl := List.length_eq_zero_iff.mp (Nat.le_zero.mp extended)
    exact stop e 0 n nofun
  | succ m ih =>
    cases ts with
    | nil => exact stop e _ n nofun
    | cons t ts =>
      obtain _ | n := n
      · exact absurd basic (Nat.not_succ_le_zero _)
      replace extended : ts.length ≤ m := Nat.le_of_succ_le_succ extended
      replace basic : ts.length ≤ n := Nat.le_of_succ_le_succ basic
      have longer : ts.length ≤ (t :: ts).length := Nat.le_succ _
      cases t with
      | star =>
        intro p q
        rw [repetitions_star, repetitions_star]
        exact (ih ts (s.star e) extended basic _ _).mono longer
      | interval body plain =>
        intro p q
        obtain ⟨stop, left⟩ := repetitions_interval (s := s) plain m e p ts
        obtain ⟨stop', right⟩ := repetitions_interval (s := s) plain n e q ts
        rw [left, right]
        refine (alike_repeated s body e p q ts stop stop').bind fun e rest short => ?_
        intro p q
        exact (ih rest e (Nat.le_trans short extended) (Nat.le_trans short basic) p q).mono
          (Nat.le_trans short longer)
      | letter | bar | opening | closing => exact stop e _ _ fun t head => by cases head; rfl

/-! ### Alternatives -/

theorem readUnit_letter {c : Char} (plain : c ∉ signs) (fuel pos : Nat) (ts : List Token) :
    readUnit dialect s (fuel + 1) ⟨pos, spell dialect (.letter c plain :: ts)⟩ =
      (s.letterAtom c pos : Reader (Exp K)) ⟨pos + 1, spell dialect ts⟩ := by
  have known (d : Char) (sign : d ∈ signs) : c ≠ d := fun same => plain (same ▸ sign)
  have no_sign : c ≠ '\\' ∧ c ≠ '[' ∧ c ≠ '.' ∧ c ≠ '^' ∧ c ≠ '$' ∧ c ≠ '*' ∧ c ≠ '+' ∧ c ≠ '?' ∧
      c ≠ '\x7b' := by
    refine ⟨?_, ?_, ?_, ?_, ?_, ?_, ?_, ?_, ?_⟩ <;> exact known _ (by decide)
  have absent : operatorLength? dialect '(' (spell dialect (.letter c plain :: ts)) = none :=
    operatorLength?_spell (by decide) _
  generalize start : spell dialect (.letter c plain :: ts) = cs at absent ⊢
  unfold readUnit
  rw [bind_ok (rfl : position ⟨pos, cs⟩ = .ok pos _), bind_ok (get_eq _), absent]
  dsimp only
  rw [bind_ok (get_eq _), ← start, spell_cons]
  cases dialect <;> simp [Token.spell, no_sign] <;> rfl

/-- Nothing stands before the repetition. -/
theorem agree_readUnit_repeats (repeats : t.Repeats = true) (p q : Nat) (ts : List Token) :
    Agree k ((readUnit .extended s (m + 1) : Reader (Exp K)) ⟨p, spell .extended (t :: ts)⟩)
      (readUnit .basic s (n + 1) ⟨q, spell .basic (t :: ts)⟩) := by
  cases t with
  | star | interval => exact .failed _ _ _ _
  | letter | bar | opening | closing => cases repeats

/-- What a group takes after its expression. -/
def closeGroup (dialect : Posix) (n : Nat) (e : Exp K) : Reader (Exp K) := do
  match operatorLength? dialect ')' (← get).rest with
  | some n =>
    advance n
    return e
  | none =>
    let stop ← position
    throw (.malformed ⟨stop, stop + n⟩ "expected closing group")

theorem readUnit_opening (fuel pos : Nat) (ts : List Token) :
    readUnit dialect s (fuel + 1) ⟨pos, spell dialect (.opening :: ts)⟩ =
      (readAlternatives dialect s fuel >>=
        closeGroup (K := K) dialect (operator '(' dialect).length)
        ⟨pos + (operator '(' dialect).length, spell dialect ts⟩ := by
  cases dialect <;> rfl

omit [Weights K] in
theorem alike_closeGroup (m n : Nat) (e : Exp K) (ts : List Token) :
    Alike (ts.length - 1) (closeGroup .extended m e) (closeGroup .basic n e) ts := by
  intro p q
  by_cases closes : ts.head?.bind Token.sign? = some ')'
  · obtain _ | ⟨t, ts⟩ := ts
    · cases closes
    cases t <;> cases closes
    exact .ok e (p + 1) (q + 2) (Nat.le_refl _)
  · have absent (dialect : Posix) : operatorLength? dialect ')' (spell dialect ts) = none := by
      rw [operatorLength?_spell (by decide), if_neg closes]
    unfold closeGroup
    rw [bind_ok (get_eq _), bind_ok (get_eq _)]
    dsimp only
    rw [absent, absent]
    exact .failed _ _ _ _

/-- Whether the dialects read the same alternatives at these tokens, where the fuel lets them. -/
def AlternativesAlike (s : ExpressionSet) (ts : List Token) : Prop :=
  ∀ m n, 3 * ts.length + 2 ≤ m → 3 * ts.length + 2 ≤ n →
    Alike ts.length (readAlternatives .extended s m : Reader (Exp K))
      (readAlternatives .basic s n) ts

/-- Whether a concatenation goes on at these tokens. -/
def GoesOn (ts : List Token) : Prop :=
  ts ≠ [] ∧ ts.head?.bind Token.sign? ≠ some '|' ∧ ts.head?.bind Token.sign? ≠ some ')'

theorem alike_readUnit {ts : List Token}
    (within : ∀ ts' : List Token, ts'.length < ts.length → AlternativesAlike (K := K) s ts')
    (goes : GoesOn ts) (extended : 3 * ts.length ≤ m) (basic : 3 * ts.length ≤ n) :
    Alike (ts.length - 1) (readUnit .extended s m : Reader (Exp K)) (readUnit .basic s n) ts := by
  obtain _ | ⟨t, ts⟩ := ts
  · exact absurd rfl goes.1
  rw [List.length_cons] at extended basic within
  obtain ⟨m, rfl⟩ : ∃ k, m = k + 1 := ⟨m - 1, by omega⟩
  obtain ⟨n, rfl⟩ : ∃ k, n = k + 1 := ⟨n - 1, by omega⟩
  intro p q
  cases t with
  | letter c plain =>
    rw [readUnit_letter, readUnit_letter]
    exact (placeless_letterAtom s c p q).alike ts _ _
  | opening =>
    rw [readUnit_opening, readUnit_opening]
    refine (within ts (Nat.lt_succ_self _) m n (by omega) (by omega) _ _).bind
      fun e rest short => ?_
    intro p q
    exact (alike_closeGroup _ _ e rest p q).mono (Nat.le_trans (Nat.sub_le _ _) short)
  | star | interval => exact agree_readUnit_repeats rfl p q ts
  | bar => exact absurd rfl goes.2.1
  | closing => exact absurd rfl goes.2.2

theorem readConcatenation_stop {ts : List Token} (stop : ¬ GoesOn ts) (fuel : Nat) (acc : Exp K)
    (pos : Nat) : readConcatenation dialect s (fuel + 1) acc ⟨pos, spell dialect ts⟩ =
      .ok acc ⟨pos, spell dialect ts⟩ := by
  obtain _ | ⟨t, ts⟩ := ts
  · cases dialect <;> rfl
  · cases t with
    | bar | closing => cases dialect <;> rfl
    | letter | opening | star | interval => exact absurd ⟨nofun, nofun, nofun⟩ stop

theorem readConcatenation_goes {ts : List Token} (goes : GoesOn ts) (fuel : Nat) (acc : Exp K)
    (pos : Nat) : readConcatenation dialect s (fuel + 1) acc ⟨pos, spell dialect ts⟩ =
      (readUnit dialect s fuel >>= fun e => do
        let e ← repetitions s dialect (← get).rest.length e
        readConcatenation dialect s fuel (s.mul acc e)) ⟨pos, spell dialect ts⟩ := by
  have inhabited : (spell dialect ts).isEmpty = false :=
    List.isEmpty_eq_false_iff.mpr (spell_ne_nil dialect goes.1)
  have bar : operatorLength? dialect '|' (spell dialect ts) = none := by
    rw [operatorLength?_spell (by decide), if_neg goes.2.1]
  have closing : operatorLength? dialect ')' (spell dialect ts) = none := by
    rw [operatorLength?_spell (by decide), if_neg goes.2.2]
  rw [readConcatenation.eq_2, bind_ok (get_eq _)]
  dsimp only
  rw [inhabited, bar, closing]
  rfl

theorem readMoreAlternatives_bar (fuel : Nat) (acc : Exp K) (pos : Nat) (ts : List Token) :
    readMoreAlternatives dialect s (fuel + 1) acc ⟨pos, spell dialect (.bar :: ts)⟩ =
      (readConcatenation dialect s fuel .one >>= fun e =>
        readMoreAlternatives dialect s fuel (s.add acc e))
        ⟨pos + (operator '|' dialect).length, spell dialect ts⟩ := by
  cases dialect <;> rfl

theorem readMoreAlternatives_stop {ts : List Token} (stop : ts.head?.bind Token.sign? ≠ some '|')
    (fuel : Nat) (acc : Exp K) (pos : Nat) :
    readMoreAlternatives dialect s (fuel + 1) acc ⟨pos, spell dialect ts⟩ =
      .ok acc ⟨pos, spell dialect ts⟩ := by
  have bar : operatorLength? dialect '|' (spell dialect ts) = none := by
    rw [operatorLength?_spell (by decide), if_neg stop]
  unfold readMoreAlternatives
  rw [bind_ok (get_eq _)]
  dsimp only
  rw [bar]
  rfl

/-- A factor with its repetitions takes a token at least. -/
theorem alike_readConcatenation {ts : List Token}
    (within : ∀ ts' : List Token, ts'.length < ts.length → AlternativesAlike (K := K) s ts')
    (acc : Exp K) (extended : 3 * ts.length + 1 ≤ m) (basic : 3 * ts.length + 1 ≤ n) :
    Alike ts.length (readConcatenation .extended s m acc) (readConcatenation .basic s n acc)
      ts := by
  induction count : ts.length using Nat.strongRecOn generalizing ts acc m n with
  | ind k ih =>
    subst count
    obtain ⟨m, rfl⟩ : ∃ k, m = k + 1 := ⟨m - 1, by omega⟩
    obtain ⟨n, rfl⟩ : ∃ k, n = k + 1 := ⟨n - 1, by omega⟩
    intro p q
    by_cases goes : GoesOn ts
    · have inhabited : 0 < ts.length := List.length_pos_iff.mpr goes.1
      rw [readConcatenation_goes goes, readConcatenation_goes goes]
      refine (alike_readUnit within goes (by omega) (by omega) p q).bind fun e rest short => ?_
      intro p q
      rw [bind_ok (get_eq _), bind_ok (get_eq _)]
      refine (alike_repetitions s rest e (length_le_spell rest) (length_le_spell rest) p q).bind
        fun e rest' shorter => ?_
      intro p q
      exact (ih rest'.length (by omega) (fun ts' less => within ts' (by omega)) (s.mul acc e)
        (by omega) (by omega) rfl p q).mono (by omega)
    · rw [readConcatenation_stop goes, readConcatenation_stop goes]
      exact .ok acc p q (Nat.le_refl _)

theorem alike_readMoreAlternatives {ts : List Token}
    (within : ∀ ts' : List Token, ts'.length < ts.length → AlternativesAlike (K := K) s ts')
    (acc : Exp K) (extended : 3 * ts.length + 1 ≤ m) (basic : 3 * ts.length + 1 ≤ n) :
    Alike ts.length (readMoreAlternatives .extended s m acc) (readMoreAlternatives .basic s n acc)
      ts := by
  induction count : ts.length using Nat.strongRecOn generalizing ts acc m n with
  | ind k ih =>
    subst count
    obtain ⟨m, rfl⟩ : ∃ k, m = k + 1 := ⟨m - 1, by omega⟩
    obtain ⟨n, rfl⟩ : ∃ k, n = k + 1 := ⟨n - 1, by omega⟩
    intro p q
    by_cases bar : ts.head?.bind Token.sign? = some '|'
    · obtain _ | ⟨t, ts⟩ := ts
      · cases bar
      cases t <;> cases bar
      rw [List.length_cons] at *
      rw [readMoreAlternatives_bar, readMoreAlternatives_bar]
      refine (alike_readConcatenation (fun ts' less => within ts' (by omega)) .one (by omega)
        (by omega) _ _).bind fun e rest short => ?_
      intro p q
      exact (ih rest.length (by omega) (fun ts' less => within ts' (by omega)) (s.add acc e)
        (by omega) (by omega) rfl p q).mono (by omega)
    · rw [readMoreAlternatives_stop bar, readMoreAlternatives_stop bar]
      exact .ok acc p q (Nat.le_refl _)

theorem alternativesAlike (s : ExpressionSet) (ts : List Token) :
    AlternativesAlike (K := K) s ts := by
  induction count : ts.length using Nat.strongRecOn generalizing ts with
  | ind k ih =>
    subst count
    have within (ts' : List Token) (less : ts'.length < ts.length) :
        AlternativesAlike (K := K) s ts' := ih ts'.length less ts' rfl
    intro m n extended basic
    obtain ⟨m, rfl⟩ : ∃ k, m = k + 1 := ⟨m - 1, by omega⟩
    obtain ⟨n, rfl⟩ : ∃ k, n = k + 1 := ⟨n - 1, by omega⟩
    intro p q
    refine (alike_readConcatenation within .one (by omega) (by omega) p q).bind
      fun e rest short => ?_
    intro p q
    exact (alike_readMoreAlternatives (fun ts' less => within ts' (by omega)) e (by omega)
      (by omega) p q).mono short

/-- The two dialects read the same expression from the same tokens, or none. -/
theorem parsePosix_dialects (s : ExpressionSet) (ts : List Token) (e : Exp K) :
    s.parsePosix .extended (spell .extended ts) = .ok e ↔
      s.parsePosix .basic (spell .basic ts) = .ok e := by
  let fuel (dialect : Posix) := 4 * ((spell dialect ts).length + 2)
  have enough (dialect : Posix) : 3 * ts.length + 2 ≤ fuel dialect := by
    have longer : ts.length ≤ (spell dialect ts).length := length_le_spell ts
    simp only [fuel]
    omega
  have read := alternativesAlike (K := K) s ts _ _ (enough .extended) (enough .basic) 0 0
  apply Agree.parse (n := ts.length)
  refine read.bind fun e rest short p q => ?_
  -- The whole text is read if no token is left.
  cases rest with
  | nil => exact .ok e p q short
  | cons t rest =>
    have inhabited (dialect : Posix) := spell_ne_nil dialect (List.cons_ne_nil t rest)
    obtain ⟨c, cs, left⟩ := List.exists_cons_of_ne_nil (inhabited .extended)
    obtain ⟨d, ds, right⟩ := List.exists_cons_of_ne_nil (inhabited .basic)
    rw [left, right]
    exact .failed _ _ _ _

end ExpressionSet

end WeightedAutomata
