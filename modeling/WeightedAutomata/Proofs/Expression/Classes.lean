import WeightedAutomata.Context.Expression
import WeightedAutomata.Proofs.Expression.Meaning
import WeightedAutomata.Proofs.Expression.Products
import WeightedAutomata.Proofs.Expression.Strength
import WeightedAutomata.Proofs.Letter.Alphabet

/-!
Letter classes: which texts are classes, in all dialects alike, and the series that they denote. A
class is a sum to which each of its letters and ranges adds, so a letter counts as often as it is
covered.
-/

namespace WeightedAutomata

/-! ### Ranges of letters -/

namespace Letter

variable {first last c : Char}

theorem le_iff_toNat_le : first ≤ last ↔ first.toNat ≤ last.toNat := by
  rw [Char.le_def, UInt32.le_iff_toNat_le]
  rfl

theorem toNat_ofNat {code : Nat} (valid : code.isValidChar) : (Char.ofNat code).toNat = code := by
  rw [Char.ofNat, dif_pos valid]
  rfl

theorem mem_interval : c ∈ interval first last ↔ first ≤ c ∧ c ≤ last := by
  unfold interval
  rw [List.mem_filterMap, le_iff_toNat_le, le_iff_toNat_le]
  constructor
  · rintro ⟨code, inside, named⟩
    rw [List.mem_range'_1] at inside
    split at named
    · rename_i valid
      obtain rfl := Option.some.inj named
      rw [toNat_ofNat valid]
      omega
    · cases named
  · rintro ⟨low, high⟩
    refine ⟨c.toNat, List.mem_range'_1.mpr (by omega), ?_⟩
    have valid : c.toNat.isValidChar := c.valid
    rw [if_pos valid, Char.ofNat_toNat]

theorem nodup_interval (first last : Char) : (interval first last).Nodup := by
  refine List.Nodup.filterMap (fun m n c left right => ?_) List.nodup_range'
  have code {k : Nat} (named : c ∈ (if k.isValidChar then some (Char.ofNat k) else none)) :
      c.toNat = k := by
    split at named
    · rename_i valid
      obtain rfl := Option.some.inj named
      exact toNat_ofNat valid
    · cases named
  exact (code left).symm.trans (code right)

end Letter

/-! ### What a class lists -/

/-- An item of a class: a letter, or all letters from one to another. -/
inductive ClassItem where
  | letter (c : Char)
  | range (first last : Char)

namespace ClassItem

/-- Whether the letter is one of the item. -/
def covers : ClassItem → Char → Bool
  | letter c, d => d == c
  | range first last, d => first ≤ d && d ≤ last

/-- The letters of the item, one by one. -/
def letters : ClassItem → List Char
  | letter c => [c]
  | range first last => Letter.interval first last

theorem count_letters (item : ClassItem) (c : Char) :
    item.letters.count c = if item.covers c then 1 else 0 := by
  cases item with
  | letter d =>
    rw [letters, List.count_singleton, covers]
    simp only [beq_iff_eq, eq_comm (a := c)]
  | range first last =>
    have covered : c ∈ Letter.interval first last ↔ (range first last).covers c = true := by
      rw [Letter.mem_interval, covers, Bool.and_eq_true, decide_eq_true_eq, decide_eq_true_eq]
    rw [letters, List.Nodup.count (Letter.nodup_interval first last)]
    simp only [covered]

end ClassItem

/-- A letter class: what it lists, and whether it stands for all other letters instead. -/
structure LetterClass where
  negated : Bool
  items : List ClassItem

namespace LetterClass

variable {a : Alphabet} {cl : LetterClass} {c : Char}

/-- The letters of the items, one after the other. -/
def listed (cl : LetterClass) : List Char := cl.items.flatMap ClassItem.letters

/-- The letters of the class over an alphabet, one for each item that covers it. -/
def chosen (cl : LetterClass) (a : Alphabet) : List Char :=
  if cl.negated then a.letters.filter (!cl.listed.contains ·) else cl.listed

/-- What the class gives to a letter: the number of items that cover it or, in a negated class, one
if the alphabet lists the letter and no item covers it. -/
def weight (a : Alphabet) (cl : LetterClass) (c : Char) : Nat :=
  if cl.negated then if c ∈ a.letters ∧ ∀ item ∈ cl.items, item.covers c = false then 1 else 0
  else cl.items.countP (·.covers c)

/-- Whether the class stands for letters of the alphabet, at least one. Over an open alphabet no
negated class does. -/
structure Admitted (a : Alphabet) (cl : LetterClass) : Prop where
  bounded : cl.negated = true → a.isOpen = false
  inhabited : ∃ c, cl.weight a c ≠ 0
  accepted : ∀ c, cl.weight a c ≠ 0 → a.accepts c = true

theorem count_listed (cl : LetterClass) (c : Char) :
    cl.listed.count c = cl.items.countP (·.covers c) := by
  unfold listed
  induction cl.items with
  | nil => rfl
  | cons item items ih =>
    rw [List.flatMap_cons, List.count_append, item.count_letters, ih, List.countP_cons,
      Nat.add_comm]

theorem not_mem_listed : c ∉ cl.listed ↔ ∀ item ∈ cl.items, item.covers c = false := by
  rw [← List.count_eq_zero, count_listed, List.countP_eq_zero]
  simp only [Bool.not_eq_true]

theorem count_chosen (a : Alphabet) (cl : LetterClass) (c : Char) :
    (cl.chosen a).count c = cl.weight a c := by
  unfold chosen weight
  split
  · have distinct : a.letters.Nodup := a.sorted.imp Char.ne_of_lt
    rw [List.Nodup.count (distinct.filter _)]
    simp only [List.mem_filter, Bool.not_eq_true', List.contains_eq_mem, decide_eq_false_iff_not,
      not_mem_listed]
  · exact cl.count_listed c

theorem mem_chosen : c ∈ cl.chosen a ↔ cl.weight a c ≠ 0 := by
  rw [← count_chosen, ← List.one_le_count_iff, Nat.one_le_iff_ne_zero]

/-- Admission in terms of the letters of the class, one by one. -/
theorem admitted_iff : cl.Admitted a ↔ (cl.negated = true → a.isOpen = false) ∧
    cl.chosen a ≠ [] ∧ ∀ c ∈ cl.chosen a, a.accepts c = true := by
  have inhabited : cl.chosen a ≠ [] ↔ ∃ c, cl.weight a c ≠ 0 := by
    simp only [← mem_chosen]
    exact ⟨List.exists_mem_of_ne_nil _, fun ⟨c, member⟩ => List.ne_nil_of_mem member⟩
  simp only [inhabited, mem_chosen]
  exact ⟨fun ⟨closed, one, each⟩ => ⟨closed, one, each⟩,
    fun ⟨closed, one, each⟩ => ⟨closed, one, each⟩⟩

end LetterClass

/-! ### Sums of letters -/

section

open scoped Weights

variable {K : Type} [Weights K] [Weights.Lawful K]

namespace WordSeries

/-- The series that counts letters: a number for each of them, and zero for all other words. -/
def counting (count : Char → Nat) : WordSeries K
  | [c] => (count c : K)
  | _ => 0

/-- Letters added up. -/
theorem sum_ofWord (cs : List Char) :
    (cs.map fun c => (ofWord [c] : WordSeries K)).sum = counting (cs.count ·) := by
  induction cs with
  | nil =>
    ext u
    rcases u with _ | ⟨d, _ | _⟩
    · rfl
    · exact Nat.cast_zero.symm
    · rfl
  | cons c cs ih =>
    rw [List.map_cons, List.sum_cons, ih]
    ext u
    rw [add_apply, ofWord]
    rcases u with _ | ⟨d, _ | _⟩
    · simp [counting]
    · simp only [counting, List.count_cons, List.cons.injEq, and_true, beq_iff_eq,
        eq_comm (a := c)]
      split
      · rw [Nat.cast_add, Nat.cast_one, add_comm]
      · rw [zero_add, Nat.add_zero]
    · simp [counting]

theorem counting_zero (c : Char) : (counting (fun _ => 0) : WordSeries K) [c] = Weights.zero :=
  Nat.cast_zero

theorem counting_succ (n : Nat) (c : Char) : (counting (fun _ => n + 1) : WordSeries K) [c] =
    Weights.add ((counting (fun _ => n) : WordSeries K) [c]) Weights.one :=
  Nat.cast_succ n

theorem counting_integer (count : Char → Nat) (c : Char) :
    (counting count : WordSeries Int) [c] = (count c : Int) := by
  change (counting (fun _ => count c) : WordSeries Int) [c] = _
  induction count c with
  | zero => exact counting_zero c
  | succ n ih =>
    rw [counting_succ, ih]
    rfl

end WordSeries

namespace ExpressionSet

variable {a : Alphabet} {ids : Identities} {cs : List Char} {c : Char}
variable {acc e : Exp K} {f : WordSeries K}

omit [Weights.Lawful K] in
/-- Letters are added up if the alphabet accepts them all. -/
theorem letterSum_spec (a : Alphabet) (ids : Identities) (cs : List Char) (acc : Exp K) :
    (∃ e, letterSum ⟨.letters a, ids⟩ cs acc = .ok e) ↔ ∀ c ∈ cs, a.accepts c = true := by
  induction cs generalizing acc with
  | nil => exact ⟨fun _ => nofun, fun _ => ⟨acc, rfl⟩⟩
  | cons c cs ih =>
    have member : (LabelSet.letters a).contains ((LabelSet.letters a).letter c) = a.accepts c := rfl
    rw [List.forall_mem_cons, letterSum, LabelSet.check, member]
    split
    · rename_i accepted
      exact (ih _).trans (and_iff_right accepted).symm
    · rename_i refused
      exact ⟨nofun, fun both => absurd both.1 refused⟩

/-- Whether the expression over the alphabet is tidy and denotes the series that counts letters. -/
structure Counts (a : Alphabet) (ids : Identities) (count : Char → Nat) (e : Exp K) : Prop where
  meaning : e.meaning (.letters a) = some (.counting count)
  tidy : e.Tidy ⟨.letters a, ids⟩

/-- The series of tidy expressions over an alphabet. -/
def letterSeries (K : Type) [Weights K] [Weights.Lawful K] (a : Alphabet) (ids : Identities) :
    Interpretation K ⟨.letters a, ids⟩ (WordSeries K) :=
  Interpretation.series _ rfl (Structural.tidy _)

theorem denotes_letter (accepted : a.accepts c = true) :
    (letterSeries K a ids).Denotes (ExpressionSet.atom ⟨.letters a, ids⟩ (.letter c))
      (WordSeries.ofWord [c]) :=
  ⟨Exp.meaning_setAtom rfl accepted, (Structural.tidy _).setAtom _⟩

theorem denotes_letterSum (start : (letterSeries K a ids).Denotes acc f)
    (sum : letterSum ⟨.letters a, ids⟩ cs acc = .ok e) : (letterSeries K a ids).Denotes e
      (f + (cs.map fun c => WordSeries.ofWord [c]).sum) := by
  induction cs generalizing acc f with
  | nil =>
    cases sum
    rw [List.map_nil, List.sum_nil, add_zero]
    exact start
  | cons c cs ih =>
    have accepted : a.accepts c = true :=
      (letterSum_spec a ids (c :: cs) acc).mp ⟨e, sum⟩ c List.mem_cons_self
    obtain ⟨_, _, sum⟩ := Result.bind_eq_ok.mp sum
    rw [List.map_cons, List.sum_cons, ← add_assoc]
    exact ih ((letterSeries K a ids).added start (denotes_letter accepted)) sum

/-- The sum of letters counts each of them. -/
theorem counts_letterSum (sum : letterSum ⟨.letters a, ids⟩ cs (.zero : Exp K) = .ok e) :
    Counts a ids (cs.count ·) e := by
  have denotes := denotes_letterSum (letterSeries K a ids).zero sum
  rw [zero_add, WordSeries.sum_ofWord] at denotes
  exact ⟨denotes.1, denotes.2⟩

theorem Counts.factor {count : Char → Nat} (counts : Counts a ids count e) :
    Counts a ids count (mul ⟨.letters a, ids⟩ .one e) := by
  have denotes : (letterSeries K a ids).Denotes e (.counting count) := ⟨counts.meaning, counts.tidy⟩
  have product := (letterSeries K a ids).multiplied (letterSeries K a ids).one denotes
  rw [one_mul] at product
  exact ⟨product.1, product.2⟩

theorem Counts.eq_zero {count : Char → Nat} (counts : Counts a ids count e)
    (zero : e.isZero = true) : WordSeries.counting count = (0 : WordSeries K) :=
  (letterSeries K a ids).eq_zero ⟨counts.meaning, counts.tidy⟩ zero

/-- Integers that count letters do not cancel out. -/
theorem Counts.none_of_isZero {count : Char → Nat} {e : Exp Int} (counts : Counts a ids count e)
    (zero : e.isZero = true) (c : Char) : count c = 0 := by
  have letter := WordSeries.counting_integer count c
  rw [counts.eq_zero zero] at letter
  exact Int.natCast_eq_zero.mp letter.symm

/-- Whether the expression over the alphabet denotes the series that gives these numbers to letters
and zero to all other words. -/
def CountsLetters (a : Alphabet) (count : Char → Nat) (e : Exp Int) : Prop :=
  ∃ f, e.meaning (.letters a) = some f ∧ (∀ c, f [c] = count c) ∧ ∀ u, (∀ c, u ≠ [c]) → f u = 0

theorem Counts.countsLetters {count : Char → Nat} {e : Exp Int} (counts : Counts a ids count e) :
    CountsLetters a count e := by
  refine ⟨_, counts.meaning, WordSeries.counting_integer count, ?_⟩
  intro u other
  rcases u with _ | ⟨c, _ | _⟩
  · rfl
  · exact absurd rfl (other c)
  · rfl

end ExpressionSet

end

/-! ### Texts of classes -/

namespace LetterClass

open Text Text.Reader ExpressionSet

/-- The ways to write a letter in a class: as it is, after a backslash, or by its code. -/
inductive Spells : List Char → Char → Prop
  | plain {c : Char} : c ≠ '\\' → c ≠ ']' → Spells [c] c
  | escaped {c : Char} : c ≠ 'x' → Spells ['\\', c] c
  | coded {high low c : Char} :
    Letter.ofCode [high, low] (String.ofList ['\\', 'x', high, low]) = .ok c →
      Spells ['\\', 'x', high, low] c

/-- The items that a text lists. A dash between two letters makes a range of them, unless it is the
last character. -/
inductive Lists : List Char → List ClassItem → Prop
  | nil : Lists [] []
  | letter {t rest : List Char} {c : Char} {items : List ClassItem} : Spells t c →
    (∀ d more, rest ≠ '-' :: d :: more) → Lists rest items → Lists (t ++ rest) (.letter c :: items)
  | range {t u rest : List Char} {first last : Char} {items : List ClassItem} : Spells t first →
    Spells u last → first ≤ last → Lists rest items →
      Lists (t ++ '-' :: (u ++ rest)) (.range first last :: items)

variable {t cs rest after body : List Char} {c : Char} {items : List ClassItem} {pos stop : Nat}

theorem code_ne_closing {high low : Char} {label : String}
    (named : Letter.ofCode [high, low] label = .ok c) :
    (high ≠ '\\' ∧ high ≠ ']') ∧ low ≠ '\\' ∧ low ≠ ']' := by
  unfold Letter.ofCode at named
  rw [if_neg (by simp)] at named
  split at named
  · cases named
  · rename_i code read
    have plain (d : Char) (member : d ∈ [high, low]) : d ≠ '\\' ∧ d ≠ ']' := by
      constructor <;> rintro rfl <;>
        exact absurd (Letter.digit_of_hexByte? read _ member) (by decide)
    exact ⟨plain high (by simp), plain low (by simp)⟩

/-! Letters. -/

/-- Whether something else than the closing bracket stands first. -/
def Proceeds (cs : List Char) : Prop := ∃ d tail, cs = d :: tail ∧ d ≠ ']'

theorem Spells.proceeds (spells : Spells t c) (rest : List Char) : Proceeds (t ++ rest) := by
  cases spells with
  | plain _ other => exact ⟨_, _, rfl, other⟩
  | escaped | coded => exact ⟨_, _, rfl, by decide⟩

theorem Spells.length_pos (spells : Spells t c) : 0 < t.length := by
  cases spells <;> exact Nat.succ_pos _

theorem classLetter_plain (other : c ≠ '\\') (pos : Nat) (rest : List Char) :
    classLetter ⟨pos, c :: rest⟩ = .ok c ⟨pos + 1, rest⟩ := by
  have here : (get : Reader Cursor) ⟨pos, c :: rest⟩ = .ok ⟨pos, c :: rest⟩ ⟨pos, c :: rest⟩ := rfl
  unfold classLetter
  rw [bind_ok here]
  refine (congrFun (?_ : _ = (do advance 1; return c : Reader Char)) _).trans rfl
  split
  · next same => exact absurd (List.cons.inj same).1 other
  · next same => rw [(List.cons.inj same).1]
  · next same => cases same

theorem classLetter_of_spells (spells : Spells t c) (pos : Nat) (rest : List Char) :
    classLetter ⟨pos, t ++ rest⟩ = .ok c ⟨pos + t.length, rest⟩ := by
  cases spells with
  | plain other _ => exact classLetter_plain other pos rest
  | escaped other => exact Letter.escapedLetter_escaped other pos rest
  | @coded high low _ named =>
    change escapedLetter ⟨pos, '\\' :: 'x' :: high :: low :: rest⟩ = _
    unfold escapedLetter
    simp only [List.drop_succ_cons, List.drop_zero, List.take_succ_cons, List.take_zero, named]
    rfl

theorem spells_of_escapedLetter {tail : List Char}
    (taken : escapedLetter ⟨pos, '\\' :: tail⟩ = .ok c ⟨stop, after⟩) :
    ∃ t, Spells t c ∧ '\\' :: tail = t ++ after := by
  unfold escapedLetter at taken
  simp only [List.drop_succ_cons, List.drop_zero] at taken
  split at taken
  · cases taken
  · rename_i rest
    split at taken
    · rename_i letter named
      cases taken
      match rest, named with
      | high :: low :: rest, named => exact ⟨['\\', 'x', high, low], .coded named, rfl⟩
    · cases taken
  · rename_i letter rest other
    cases taken
    exact ⟨['\\', c], .escaped fun same => other same, rfl⟩

theorem spells_of_classLetter (proceeds : Proceeds cs)
    (taken : classLetter ⟨pos, cs⟩ = .ok c ⟨stop, after⟩) :
    ∃ t, Spells t c ∧ cs = t ++ after := by
  obtain ⟨d, tail, rfl, other⟩ := proceeds
  by_cases escape : d = '\\'
  · subst escape
    exact spells_of_escapedLetter taken
  · rw [classLetter_plain escape] at taken
    cases taken
    exact ⟨[c], .plain escape other, rfl⟩

/-! Lists of letters. -/

/-- What the reader does after the first letter of an item. -/
def classTail (start fuel : Nat) (first : Char) : Reader (List Char) := do
  match (← get).rest with
  | '-' :: d :: _ =>
    if d = ']' then return first :: (← classLetters start fuel)
    else
      advance 1
      let last ← classLetter
      if last < first then
        failSince start ("invalid letter interval: " ++ String.ofList [first] ++ "-" ++
          String.ofList [last])
      else return Letter.interval first last ++ (← classLetters start fuel)
  | _ => return first :: (← classLetters start fuel)

variable {start fuel : Nat} {first : Char}

theorem classLetters_item (proceeds : Proceeds cs) (pos : Nat) :
    classLetters start (fuel + 1) ⟨pos, cs⟩ =
      (do classTail start fuel (← classLetter) : Reader (List Char)) ⟨pos, cs⟩ := by
  obtain ⟨d, tail, rfl, other⟩ := proceeds
  have here : (get : Reader Cursor) ⟨pos, d :: tail⟩ = .ok ⟨pos, d :: tail⟩ ⟨pos, d :: tail⟩ := rfl
  rw [classLetters, bind_ok here]
  refine congrFun ?_ _
  split
  · next same => cases same
  · next same => exact absurd (List.cons.inj same).1 other
  · rfl

theorem classTail_letter (single : ∀ tail, Proceeds tail → cs ≠ '-' :: tail) (pos : Nat) :
    classTail start fuel first ⟨pos, cs⟩ =
      (do return first :: (← classLetters start fuel) : Reader (List Char))
        ⟨pos, cs⟩ := by
  have here : (get : Reader Cursor) ⟨pos, cs⟩ = .ok ⟨pos, cs⟩ ⟨pos, cs⟩ := rfl
  rw [classTail, bind_ok here]
  refine congrFun ?_ _
  split
  · next d tail same =>
    have closing : d = ']' := by
      by_contra other
      exact single _ ⟨d, tail, rfl, other⟩ same
    rw [if_pos closing]
  · rfl

theorem classTail_range (proceeds : Proceeds cs) (pos : Nat) :
    classTail start fuel first ⟨pos, '-' :: cs⟩ =
      (do
        let last ← classLetter
        if last < first then
          failSince start ("invalid letter interval: " ++ String.ofList [first] ++ "-" ++
            String.ofList [last])
        else return Letter.interval first last ++ (← classLetters start fuel) :
          Reader (List Char)) ⟨pos + 1, cs⟩ := by
  obtain ⟨d, tail, rfl, other⟩ := proceeds
  have here : (get : Reader Cursor) ⟨pos, '-' :: d :: tail⟩ =
      .ok ⟨pos, '-' :: d :: tail⟩ ⟨pos, '-' :: d :: tail⟩ := rfl
  rw [classTail, bind_ok here]
  change (if d = ']' then _ else _ : Reader (List Char)) _ = _
  rw [if_neg other]
  rfl

theorem splitUnescaped_spells (spells : Spells t c) (cs : List Char) :
    splitUnescaped ']' (t ++ cs) =
      (splitUnescaped ']' cs).map fun (body, rest) => (t ++ body, rest) := by
  cases spells with
  | plain escape other => exact Alphabet.splitUnescaped_plain other escape
  | escaped => exact Alphabet.splitUnescaped_escaped ']' c cs
  | coded named =>
    obtain ⟨high, low⟩ := code_ne_closing named
    change splitUnescaped ']' ('\\' :: 'x' :: _ :: _ :: cs) = _
    rw [Alphabet.splitUnescaped_escaped, Alphabet.splitUnescaped_plain high.2 high.1,
      Alphabet.splitUnescaped_plain low.2 low.1, Option.map_map, Option.map_map]
    rfl

theorem splitUnescaped_lists (lists : Lists body items) (rest : List Char) :
    splitUnescaped ']' (body ++ ']' :: rest) = some (body, rest) := by
  induction lists with
  | nil => rfl
  | letter spells _ _ ih =>
    rw [List.append_assoc, splitUnescaped_spells spells, ih]
    rfl
  | range low high _ _ ih =>
    rw [List.append_assoc, splitUnescaped_spells low]
    rw [List.cons_append, Alphabet.splitUnescaped_plain (by decide) (by decide)]
    rw [List.append_assoc, splitUnescaped_spells high, ih]
    rfl

/-- A listed text is read up to its closing bracket. -/
theorem classLetters_of_lists (lists : Lists body items) (start : Nat)
    (enough : body.length < fuel) (pos : Nat) (rest : List Char) :
    ∃ stop, classLetters start fuel ⟨pos, body ++ ']' :: rest⟩ =
      .ok (items.flatMap ClassItem.letters) ⟨stop, rest⟩ := by
  induction lists generalizing fuel pos with
  | nil =>
    obtain ⟨fuel, rfl⟩ : ∃ n, fuel = n + 1 := ⟨fuel - 1, by omega⟩
    exact ⟨pos + 1, rfl⟩
  | @letter t more c items spells single lists ih =>
    obtain ⟨fuel, rfl⟩ : ∃ n, fuel = n + 1 := ⟨fuel - 1, by omega⟩
    have shorter : 0 < t.length := spells.length_pos
    rw [List.length_append] at enough
    obtain ⟨stop, others⟩ := ih (show more.length < fuel by omega) (pos + t.length)
    have alone : ∀ tail, Proceeds tail → more ++ ']' :: rest ≠ '-' :: tail := by
      rintro _ ⟨d, tail, rfl, other⟩ same
      match more, single with
      | [], _ => exact absurd (List.cons.inj same).1 (by decide)
      | [e], _ => exact other (List.cons.inj (List.cons.inj same).2).1.symm
      | e :: d' :: more, single => exact single d' more (by rw [(List.cons.inj same).1])
    refine ⟨stop, ?_⟩
    rw [List.append_assoc, classLetters_item (spells.proceeds _),
      bind_ok (classLetter_of_spells spells pos _), classTail_letter alone, bind_ok others]
    rfl
  | @range t u more first last items low high ordered lists ih =>
    obtain ⟨fuel, rfl⟩ : ∃ n, fuel = n + 1 := ⟨fuel - 1, by omega⟩
    rw [List.length_append, List.length_cons, List.length_append] at enough
    obtain ⟨stop, others⟩ := ih (show more.length < fuel by omega) (pos + t.length + 1 + u.length)
    refine ⟨stop, ?_⟩
    rw [List.append_assoc, List.cons_append, List.append_assoc, classLetters_item (low.proceeds _),
      bind_ok (classLetter_of_spells low pos _), classTail_range (high.proceeds _),
      bind_ok (classLetter_of_spells high _ _), if_neg (Char.not_lt.mpr ordered), bind_ok others]
    rfl

/-- An item that is read is a letter, or a range up to the letter behind a dash. -/
theorem classTail_cases {letters : List Char} {d : Cursor}
    (taken : classTail start fuel first ⟨pos, cs⟩ = .ok letters d) :
    (∃ others, (∀ tail, Proceeds tail → cs ≠ '-' :: tail) ∧
      classLetters start fuel ⟨pos, cs⟩ = .ok others d) ∨
    ∃ u last stop rest others, cs = '-' :: (u ++ rest) ∧ Spells u last ∧ first ≤ last ∧
      classLetters start fuel ⟨stop, rest⟩ = .ok others d := by
  by_cases ranges : ∃ tail, Proceeds tail ∧ cs = '-' :: tail
  · obtain ⟨tail, proceeds, rfl⟩ := ranges
    rw [classTail_range proceeds] at taken
    obtain ⟨last, ⟨stop, rest⟩, ended, resumed⟩ := exists_of_bind_ok taken
    obtain ⟨u, high, rfl⟩ := spells_of_classLetter proceeds ended
    split at resumed
    · cases resumed
    · rename_i ordered
      obtain ⟨others, _, read, done⟩ := exists_of_bind_ok resumed
      cases done
      exact .inr ⟨u, last, stop, rest, others, rfl, high, Char.not_lt.mp ordered, read⟩
  · have single : ∀ tail, Proceeds tail → cs ≠ '-' :: tail :=
      fun tail proceeds same => ranges ⟨tail, proceeds, same⟩
    rw [classTail_letter single] at taken
    obtain ⟨others, _, read, done⟩ := exists_of_bind_ok taken
    cases done
    exact .inl ⟨others, single, read⟩

/-- What is read up to a closing bracket is a listed text. -/
theorem lists_of_classLetters {letters : List Char}
    (taken : classLetters start fuel ⟨pos, cs⟩ = .ok letters ⟨stop, after⟩) :
    ∃ body items, Lists body items ∧ cs = body ++ ']' :: after := by
  -- each round of fuel takes one item
  induction fuel generalizing pos cs letters with
  | zero => cases taken
  | succ fuel ih =>
    by_cases proceeds : Proceeds cs
    · rw [classLetters_item proceeds] at taken
      obtain ⟨first, ⟨_, rest⟩, begun, resumed⟩ := exists_of_bind_ok taken
      obtain ⟨t, low, rfl⟩ := spells_of_classLetter proceeds begun
      rcases classTail_cases resumed with
        ⟨_, single, read⟩ | ⟨u, last, _, rest, _, rfl, high, ordered, read⟩
      · obtain ⟨body, items, lists, rfl⟩ := ih read
        refine ⟨_, _, .letter low ?_ lists, (List.append_assoc ..).symm⟩
        rintro d more rfl
        have closing : d = ']' := by
          by_contra other
          exact single _ ⟨d, _, rfl, other⟩ rfl
        subst closing
        have ends := splitUnescaped_lists lists after
        cases ends
      · obtain ⟨body, items, lists, rfl⟩ := ih read
        refine ⟨_, _, .range low high ordered lists, ?_⟩
        simp only [List.append_assoc, List.cons_append]
    · match cs with
      | [] => cases taken
      | d :: tail =>
        obtain rfl : d = ']' := by
          by_contra other
          exact proceeds ⟨d, tail, rfl, other⟩
        cases taken
        exact ⟨[], [], .nil, rfl⟩

/-! Classes. -/

/-- The texts of classes, in brackets. -/
inductive Writes : LetterClass → List Char → Prop
  | listed {body : List Char} {items : List ClassItem} : Lists body items → body.head? ≠ some '^' →
    Writes ⟨false, items⟩ ('[' :: (body ++ [']']))
  | negated {body : List Char} {items : List ClassItem} : Lists body items →
    Writes ⟨true, items⟩ ('[' :: '^' :: (body ++ [']']))

variable {a : Alphabet} {ids : Identities} {cl : LetterClass}

theorem Writes.opens (writes : cl.Writes cs) : ∃ inner, cs = '[' :: inner := by
  cases writes with
  | listed | negated => exact ⟨_, rfl⟩

/-- What the reader makes of the letters that a class lists. -/
def ofListed (s : ExpressionSet) (start : Nat) (negated : Bool) (letters : List Char) :
    Reader (Exp Int) :=
  match s.alphabet? with
  | none => failSince start "letter class in a multi-tape context"
  | some alphabet =>
    if negated && alphabet.isOpen then failSince start "negated class over an open alphabet"
    else do
      let chosen := if negated then alphabet.letters.filter (!letters.contains ·) else letters
      let e ← lift (s.letterSum chosen .zero)
      if e.isZero then failSince start "invalid empty letter class" else return e

/-- What the reader does after the sign of negation. -/
def afterSign (s : ExpressionSet) (start : Nat) (negated : Bool) : Reader (Exp Int) := do
  ofListed s start negated (← classLetters start (← get).rest.length.succ)

theorem letterClass_negated (s : ExpressionSet) (start pos : Nat) (cs : List Char) :
    letterClass s start ⟨pos, '^' :: cs⟩ = afterSign s start true ⟨pos + 1, cs⟩ := rfl

theorem letterClass_listed (plain : cs.head? ≠ some '^') (s : ExpressionSet) (start pos : Nat) :
    letterClass s start ⟨pos, cs⟩ = afterSign s start false ⟨pos, cs⟩ := by
  have front : peek ⟨pos, cs⟩ = .ok cs.head? ⟨pos, cs⟩ := rfl
  have other : (cs.head? == some '^') = false := beq_eq_false_iff_ne.mpr plain
  unfold letterClass
  rw [bind_ok front, other]
  rfl

theorem afterSign_of_lists (lists : Lists body items) (s : ExpressionSet) (negated : Bool)
    (start pos : Nat) (rest : List Char) :
    ∃ stop, afterSign s start negated ⟨pos, body ++ ']' :: rest⟩ =
      ofListed s start negated (listed ⟨negated, items⟩) ⟨stop, rest⟩ := by
  have enough : body.length < (body ++ ']' :: rest).length.succ := by simp
  obtain ⟨stop, taken⟩ := classLetters_of_lists lists start enough pos rest
  exact ⟨stop, bind_ok taken⟩

theorem letterClass_of_writes (writes : cl.Writes ('[' :: cs)) (s : ExpressionSet)
    (start pos : Nat) (rest : List Char) : ∃ stop, letterClass s start ⟨pos, cs ++ rest⟩ =
      ofListed s start cl.negated cl.listed ⟨stop, rest⟩ := by
  cases writes with
  | @listed body items lists plain =>
    have other : (body ++ ']' :: rest).head? ≠ some '^' := by
      cases body with
      | nil => exact fun same => absurd (Option.some.inj same) (by decide)
      | cons => exact plain
    rw [List.append_assoc, List.singleton_append, letterClass_listed other]
    exact afterSign_of_lists lists s false start pos rest
  | negated lists =>
    rw [List.cons_append, List.append_assoc, List.singleton_append, letterClass_negated]
    exact afterSign_of_lists lists s true start (pos + 1) rest

/-- Over an alphabet the class is read as the sum of its letters. -/
theorem ofListed_letters (a : Alphabet) (ids : Identities) (cl : LetterClass) (start : Nat) :
    ofListed ⟨.letters a, ids⟩ start cl.negated cl.listed =
      if cl.negated && a.isOpen then failSince start "negated class over an open alphabet"
      else do
        let e ← lift (letterSum ⟨.letters a, ids⟩ (cl.chosen a) .zero)
        if e.isZero then failSince start "invalid empty letter class" else return e := rfl

theorem reads_ofListed (admitted : cl.Admitted a) (start : Nat) (rest : List Char) :
    Reads false false (ofListed ⟨.letters a, ids⟩ start cl.negated cl.listed) rest rest
      (Counts a ids (cl.weight a)) := by
  have bounded : ¬ (cl.negated && a.isOpen) = true := by
    rw [Bool.and_eq_true]
    rintro ⟨negated, isOpen⟩
    rw [admitted.bounded negated] at isOpen
    cases isOpen
  rw [ofListed_letters, if_neg bounded]
  apply Reads.bind (P := Counts a ids (cl.weight a))
  · apply Reads.lift
    · intro e added
      have counts := counts_letterSum added
      simp only [count_chosen] at counts
      exact counts
    · exact fun _ => (letterSum_spec a ids _ _).mpr (admitted_iff.mp admitted).2.2
  · intro e counts
    have inhabited : ¬ e.isZero = true := by
      obtain ⟨c, nonzero⟩ := admitted.inhabited
      exact fun zero => nonzero (counts.none_of_isZero zero c)
    rw [if_neg inhabited]
    exact Reads.pure counts

theorem ofListed_error (refused : ¬ cl.Admitted a) (start : Nat) (c : Cursor) :
    ∃ e d, ofListed ⟨.letters a, ids⟩ start cl.negated cl.listed c = .error e d := by
  rw [ofListed_letters]
  split
  · exact ⟨_, _, rfl⟩
  · rename_i bounded
    cases added : letterSum ⟨.letters a, ids⟩ (cl.chosen a) (.zero : Exp Int) with
    | error e => exact ⟨e, _, rfl⟩
    | ok e =>
      by_cases zero : e.isZero = true
      · rw [bind_ok (show lift (.ok e) c = .ok e c from rfl), if_pos zero]
        exact ⟨_, _, rfl⟩
      · refine absurd (admitted_iff.mpr ⟨?_, ?_, ?_⟩) refused
        · intro negated
          rw [negated, Bool.true_and] at bounded
          exact Bool.eq_false_iff.mpr bounded
        · intro empty
          rw [empty] at added
          cases added
          exact zero rfl
        · exact (letterSum_spec a ids _ _).mp ⟨e, added⟩

theorem reads_letterClass (ids : Identities) (writes : cl.Writes ('[' :: cs))
    (admitted : cl.Admitted a) (start : Nat) (rest : List Char) :
    Reads false false (letterClass ⟨.letters a, ids⟩ start) (cs ++ rest) rest
      (Counts (K := Int) a ids (cl.weight a)) := by
  intro pos
  obtain ⟨stop, same⟩ := letterClass_of_writes writes ⟨.letters a, ids⟩ start pos rest
  rw [same]
  exact reads_ofListed admitted start rest stop

theorem letterClass_error (ids : Identities) (writes : cl.Writes ('[' :: cs))
    (refused : ¬ cl.Admitted a) (start pos : Nat) (rest : List Char) :
    ∃ e d, letterClass (K := Int) ⟨.letters a, ids⟩ start ⟨pos, cs ++ rest⟩ = .error e d := by
  obtain ⟨stop, same⟩ := letterClass_of_writes writes ⟨.letters a, ids⟩ start pos rest
  rw [same]
  exact ofListed_error refused start _

/-- A listed text that ends at the first closing bracket. -/
theorem eq_of_split (split : splitUnescaped ']' cs = some (t, [])) (lists : Lists body items)
    (same : cs ++ rest = body ++ ']' :: after) : cs = body ++ [']'] := by
  have ends := Alphabet.splitUnescaped_append (by decide) split rest
  rw [same, splitUnescaped_lists lists] at ends
  cases ends
  rw [← List.singleton_append, ← List.append_assoc] at same
  exact List.append_cancel_right same

theorem lists_of_afterSign {e : Exp Int} {d : Cursor} {s : ExpressionSet} {negated : Bool}
    (split : splitUnescaped ']' cs = some (t, []))
    (read : afterSign s start negated ⟨pos, cs ++ rest⟩ = .ok e d) :
    ∃ body items, Lists body items ∧ cs = body ++ [']'] := by
  have here : (get : Reader Cursor) ⟨pos, cs ++ rest⟩ =
      .ok ⟨pos, cs ++ rest⟩ ⟨pos, cs ++ rest⟩ := rfl
  unfold afterSign at read
  rw [bind_ok here] at read
  obtain ⟨letters, ⟨_, after⟩, taken, _⟩ := exists_of_bind_ok read
  obtain ⟨body, items, lists, same⟩ := lists_of_classLetters taken
  exact ⟨body, items, lists, eq_of_split split lists same⟩

/-- What is read up to the first closing bracket is the text of a class. -/
theorem writes_of_letterClass {e : Exp Int} {d : Cursor} {s : ExpressionSet}
    (split : splitUnescaped ']' cs = some (t, []))
    (read : letterClass s start ⟨pos, cs ++ rest⟩ = .ok e d) : ∃ cl, Writes cl ('[' :: cs) := by
  by_cases negated : cs.head? = some '^'
  · obtain ⟨cs, rfl⟩ := List.head?_eq_some_iff.mp negated
    rw [Alphabet.splitUnescaped_plain (by decide) (by decide)] at split
    obtain ⟨⟨inner, _⟩, found, ends⟩ := Option.map_eq_some_iff.mp split
    cases ends
    rw [List.cons_append, letterClass_negated] at read
    obtain ⟨body, items, lists, rfl⟩ := lists_of_afterSign found read
    exact ⟨⟨true, items⟩, .negated lists⟩
  · have plain : (cs ++ rest).head? ≠ some '^' := by
      cases cs with
      | nil => cases split
      | cons => exact negated
    rw [letterClass_listed plain] at read
    obtain ⟨body, items, lists, rfl⟩ := lists_of_afterSign split read
    refine ⟨⟨false, items⟩, .listed lists fun same => negated ?_⟩
    rw [List.head?_append, same]
    rfl

end LetterClass

/-! ### Texts of one class -/

namespace ExpressionSet

open Text Text.Reader

variable {K : Type} [Weights K] {s : ExpressionSet} {cs : List Char} {P : Exp K → Prop}
variable {fails : Bool}

/-- The reader of whole texts in a dialect. -/
def reader (s : ExpressionSet) (dialect : Dialect) (length : Nat) : Reader (Exp K) :=
  match dialect with
  | .canonical => do
    let e ← readSum (readingFuel length) s
    skipBlanks
    expectEnd
    return e
  | .posix p => do
    let e ← readAlternatives p s (4 * (length + 2))
    match ← peek with
    | none => return e
    | some c => failHere (unexpectedText c)

/-- Brackets open a class in the canonical dialect. -/
theorem readAt_bracket (single : s.labels.tapes? = none)
    (reads : ∀ start rest, Reads fails false (s.letterClass start) (cs ++ rest) rest P) :
    ReadAt fails s P .sum ('[' :: cs) := by
  have opens : Opens ('[' :: cs) := ⟨'[', cs, rfl, by decide, by decide, by decide⟩
  have plain : Plain ('[' :: cs) := fun c same => Option.some.inj same ▸ by decide
  have leaf : ReadAt fails s P .leaf ('[' :: cs) := by
    intro rest fuel enough pos
    obtain ⟨fuel, rfl⟩ : ∃ n, fuel = n + 1 := ⟨fuel - 1, by omega⟩
    exact reads pos rest (pos + 1)
  exact (((leaf.suffix.weight opens plain).product opens).shuffle.conjunction.tuple_of_single
    single).sum

/-- A class alone in the canonical dialect. -/
theorem reads_canonical (single : s.labels.tapes? = none)
    (reads : ∀ start rest, Reads fails false (s.letterClass start) (cs ++ rest) rest P) :
    Reads fails false (s.reader .canonical ('[' :: cs).length) ('[' :: cs) [] P := by
  have sum := readAt_bracket single reads [] (readingFuel ('[' :: cs).length) (follows_nil _) (by
    rw [List.append_nil, readingFuel]
    omega)
  rw [List.append_nil] at sum
  unfold reader
  apply sum.bind_of_strays
  · exact fun e value pos => .ok value
  · exact fun may e tail pos => .failed may

/-- Brackets open a class in the POSIX dialects. -/
theorem reads_posix (dialect : Posix) (product : ∀ e, P e → P (s.mul .one e))
    (reads : ∀ start rest, Reads fails false (s.letterClass start) (cs ++ rest) rest P) :
    Reads fails false (s.reader (.posix dialect) ('[' :: cs).length) ('[' :: cs) [] P := by
  obtain ⟨n, fuel⟩ : ∃ n, 4 * (('[' :: cs).length + 2) = n + 4 := ⟨_, rfl⟩
  have unit : Reads fails false (readUnit dialect s (n + 2)) ('[' :: cs) [] P := by
    intro pos
    have inner := reads pos [] (pos + 1)
    rw [List.append_nil] at inner
    cases dialect <;> exact inner
  have factor : Reads fails false (readConcatenation dialect s (n + 3) .one) ('[' :: cs) [] P := by
    have rounds : Reads fails false (do
        let e ← readUnit dialect s (n + 2)
        let e ← repetitions s dialect (← get).rest.length e
        readConcatenation dialect s (n + 2) (s.mul .one e)) ('[' :: cs) [] P := by
      apply unit.bind
      intro e value pos
      exact .ok (product e value)
    intro pos
    have outcome := rounds pos
    cases dialect <;> exact outcome
  have whole : Reads fails false (readAlternatives dialect s (n + 4)) ('[' :: cs) [] P := by
    apply factor.bind
    intro e value pos
    cases dialect <;> exact .ok value
  unfold reader
  rw [fuel]
  exact whole.bind fun e value pos => .ok value

theorem reads_reader (dialect : Dialect) (single : s.labels.tapes? = none)
    (product : ∀ e, P e → P (s.mul .one e))
    (reads : ∀ start rest, Reads fails false (s.letterClass start) (cs ++ rest) rest P) :
    Reads fails false (s.reader dialect ('[' :: cs).length) ('[' :: cs) [] P := by
  cases dialect with
  | canonical => exact reads_canonical single reads
  | posix p => exact reads_posix p product reads

end ExpressionSet

namespace Expression

open Text Text.Reader ExpressionSet

variable {a : Alphabet} {ids : Identities} {dialect : Dialect} {cl : LetterClass} {cs : List Char}

/-- Whether the text is in brackets that match each other. -/
def Bracketed (cs : List Char) : Prop :=
  ∃ inner body, cs = '[' :: inner ∧ splitUnescaped ']' inner = some (body, [])

theorem parse_of_reader {result : Result (Exp Int)}
    (read : Reader.parse (reader ⟨.letters a, ids⟩ dialect cs.length) cs = result) :
    parse ⟨.letters a, .integer⟩ ids dialect cs = (do
      let e ← result
      return ⟨.integer, ⟨.letters a, ids⟩, e⟩ : Result Expression) := by
  rw [← read]
  cases dialect <;> rfl

theorem parse_of_admitted (ids : Identities) (dialect : Dialect) (writes : cl.Writes cs)
    (admitted : cl.Admitted a) :
    ∃ e, parse ⟨.letters a, .integer⟩ ids dialect cs = .ok ⟨.integer, ⟨.letters a, ids⟩, e⟩ ∧
      CountsLetters a (cl.weight a) e := by
  obtain ⟨inner, rfl⟩ := writes.opens
  have whole := reads_reader dialect rfl (fun _ counts => counts.factor)
    (LetterClass.reads_letterClass ids writes admitted)
  obtain ⟨e, read, counts⟩ := whole.parse_ok
  exact ⟨e, parse_of_reader read, counts.countsLetters⟩

/-- Where no class is read, nothing is. -/
theorem parse_error_of_letterClass (dialect : Dialect) {inner : List Char}
    (refused : ∀ start pos rest, ∃ e d, letterClass (K := Int) ⟨.letters a, ids⟩ start
      ⟨pos, inner ++ rest⟩ = .error e d) :
    ∃ e, parse ⟨.letters a, .integer⟩ ids dialect ('[' :: inner) = .error e := by
  have reads (start : Nat) (rest : List Char) :
      Reads true false (letterClass (K := Int) ⟨.letters a, ids⟩ start) (inner ++ rest) rest
        fun _ => False :=
    Reads.of_error fun pos => refused start pos rest
  have whole := reads_reader dialect rfl (fun _ impossible => impossible) reads
  obtain ⟨e, failed⟩ := whole.parse_error
  exact ⟨e, parse_of_reader failed⟩

theorem admitted_of_parse {inner : List Char} {r : Expression} (writes : cl.Writes ('[' :: inner))
    (read : parse ⟨.letters a, .integer⟩ ids dialect ('[' :: inner) = .ok r) : cl.Admitted a := by
  by_contra refused
  obtain ⟨e, failed⟩ := parse_error_of_letterClass dialect
    (LetterClass.letterClass_error ids writes refused)
  rw [read] at failed
  cases failed

theorem written_of_parse {inner body : List Char} {r : Expression}
    (split : splitUnescaped ']' inner = some (body, []))
    (read : parse ⟨.letters a, .integer⟩ ids dialect ('[' :: inner) = .ok r) :
    ∃ cl : LetterClass, cl.Writes ('[' :: inner) := by
  by_contra unwritten
  have refused (start pos : Nat) (rest : List Char) : ∃ e d, letterClass (K := Int)
      ⟨.letters a, ids⟩ start ⟨pos, inner ++ rest⟩ = .error e d := by
    cases outcome : letterClass (K := Int) ⟨.letters a, ids⟩ start ⟨pos, inner ++ rest⟩ with
    | error e d => exact ⟨e, d, rfl⟩
    | ok e d => exact absurd (LetterClass.writes_of_letterClass split outcome) unwritten
  obtain ⟨e, failed⟩ := parse_error_of_letterClass dialect refused
  rw [read] at failed
  cases failed

/-- In all dialects a text in brackets is read if it is the text of a letter class that stands for
letters of the alphabet, and then as the series of the class. -/
theorem parse_class (a : Alphabet) (ids : Identities) (dialect : Dialect)
    (bracketed : Bracketed cs) :
    ((∃ r, parse ⟨.letters a, .integer⟩ ids dialect cs = .ok r) ↔
      ∃ cl : LetterClass, cl.Writes cs ∧ cl.Admitted a) ∧
    ∀ (cl : LetterClass) r, cl.Writes cs → parse ⟨.letters a, .integer⟩ ids dialect cs = .ok r →
      ∃ e, r = ⟨.integer, ⟨.letters a, ids⟩, e⟩ ∧ CountsLetters a (cl.weight a) e := by
  obtain ⟨inner, body, rfl, split⟩ := bracketed
  refine ⟨⟨?_, ?_⟩, ?_⟩
  · rintro ⟨r, read⟩
    obtain ⟨cl, writes⟩ := written_of_parse split read
    exact ⟨cl, writes, admitted_of_parse writes read⟩
  · rintro ⟨cl, writes, admitted⟩
    obtain ⟨e, read, _⟩ := parse_of_admitted ids dialect writes admitted
    exact ⟨_, read⟩
  · intro cl r writes read
    have admitted : cl.Admitted a := admitted_of_parse writes read
    obtain ⟨e, same, counts⟩ := parse_of_admitted ids dialect writes admitted
    exact ⟨e, Except.ok.inj (read.symm.trans same), counts⟩

/-- A letter that a range and an item of its own cover counts twice. -/
theorem parse_class_of_overlap :
    let abc := Alphabet.ofLetters false ['a', 'b', 'c']
    let text := "[a-\\cb]".toList
    let cl : LetterClass := ⟨false, [.range 'a' 'c', .letter 'b']⟩
    Bracketed text ∧ cl.Writes text ∧ cl.Admitted abc ∧
      (∃ r, parse ⟨.letters abc, .integer⟩ .linear (.posix .extended) text = .ok r) ∧
      ∀ r, parse ⟨.letters abc, .integer⟩ .linear (.posix .extended) text = .ok r →
        ∃ e, r = ⟨.integer, ⟨.letters abc, .linear⟩, e⟩ ∧ CountsLetters abc (cl.weight abc) e := by
  intro abc text cl
  have bracketed : Bracketed text := ⟨_, _, rfl, rfl⟩
  have last : LetterClass.Lists ['b'] [.letter 'b'] :=
    .letter (.plain (by decide) (by decide)) (by simp) .nil
  have range : LetterClass.Lists "a-\\cb".toList cl.items :=
    .range (.plain (by decide) (by decide)) (.escaped (by decide)) (by decide) last
  have writes : cl.Writes text := .listed range (by decide)
  have accepted : (cl.chosen abc).all abc.accepts = true := by decide
  have admitted : cl.Admitted abc :=
    LetterClass.admitted_iff.mpr ⟨nofun, by decide, List.all_eq_true.mp accepted⟩
  have spec := parse_class abc .linear (.posix .extended) bracketed
  exact ⟨bracketed, writes, admitted, spec.1.mpr ⟨cl, writes, admitted⟩,
    fun r => spec.2 cl r writes⟩

theorem parse_class_of_repeated_letter :
    let a := Alphabet.ofLetters false ['a']
    ∃ e : Exp Int, parse ⟨.letters a, .integer⟩ .linear .canonical "[aa]".toList =
        .ok ⟨.integer, ⟨.letters a, .linear⟩, e⟩ ∧
      ∃ f, e.meaning (.letters a) = some f ∧ f ['a'] = 2 := by
  intro a
  let cl : LetterClass := ⟨false, [.letter 'a', .letter 'a']⟩
  have spells : LetterClass.Spells ['a'] 'a' := .plain (by decide) (by decide)
  have writes : cl.Writes "[aa]".toList :=
    .listed (.letter spells (by simp) (.letter spells (by simp) .nil)) (by decide)
  have accepted : (cl.chosen a).all a.accepts = true := by decide
  have admitted : cl.Admitted a :=
    LetterClass.admitted_iff.mpr ⟨nofun, by decide, List.all_eq_true.mp accepted⟩
  obtain ⟨e, read, f, denotes, letter, _⟩ := parse_of_admitted .linear .canonical writes admitted
  exact ⟨e, read, f, denotes, letter 'a'⟩

end Expression

end WeightedAutomata
