import WeightedAutomata.Proofs.Label.Letters

/-! Free sets of labels: a label is one letter on each tape, so that the words on the tapes tell in
which order labels were read. -/

namespace WeightedAutomata

namespace Label

/-- The letters of a label on a tape. A label that is not a tuple has one tape. -/
def lettersAt : Label → Nat → List Char
  | tuple tapes, i => ((tapes[i]?).map letters).getD []
  | l, 0 => l.letters
  | _, _ + 1 => []

/-- The word that labels spell on a tape. -/
def wordAt (labels : List Label) (i : Nat) : List Char := labels.flatMap (·.lettersAt i)

end Label

namespace LabelSet

open Label (wordAt)

variable {ls : LabelSet} {a b l : Label} {tapes : List LabelSet} {as us vs : List Label} {i : Nat}

theorem letter_of_isLetters (letters : ls.isLetters = true) (member : ls.contains l = true) :
    ∃ c, l = .letter c := by
  cases ls with
  | letters alphabet =>
    cases l with
    | letter c => exact ⟨c, rfl⟩
    | one | word _ | tuple _ | special => cases member
  | nullable _ | words _ | tuple _ => cases letters

theorem tuple_of_contains (member : (tuple tapes).contains l = true) :
    ∃ as, l = .tuple as ∧ containsEach tapes as = true := by
  cases l with
  | tuple as => exact ⟨as, rfl, member⟩
  | one | letter _ | word _ | special => cases member

/-- Each label of a tuple is in the set of its tape. -/
theorem contains_at (member : containsEach tapes as = true) (inside : i < tapes.length) :
    ∃ ls l, tapes[i]? = some ls ∧ as[i]? = some l ∧ ls.contains l = true := by
  induction tapes generalizing as i with
  | nil => cases inside
  | cons ls tapes ih =>
    cases as with
    | nil => cases member
    | cons l as =>
      obtain ⟨first, others⟩ := containsEach_cons.mp member
      cases i with
      | zero => exact ⟨ls, l, rfl, rfl, first⟩
      | succ i => exact ih others (Nat.lt_of_succ_lt_succ inside)

theorem containsEach_of_at (long : as.length = tapes.length)
    (each : ∀ (i : Nat) (ls : LabelSet) (l : Label), tapes[i]? = some ls → as[i]? = some l →
      ls.contains l = true) :
    containsEach tapes as = true := by
  induction tapes generalizing as with
  | nil =>
    rw [List.length_eq_zero_iff.mp long]
    rfl
  | cons ls tapes ih =>
    cases as with
    | nil => cases long
    | cons l as =>
      exact containsEach_cons.mpr ⟨each 0 ls l rfl rfl,
        ih (Nat.succ.inj long) fun i => each (i + 1)⟩

theorem flat_of_free (free : (tuple tapes).isFree = true) : ∀ ls ∈ tapes, ls.isTuple = false := by
  intro ls listed
  have letters : ls.isLetters = true := List.all_eq_true.mp free ls listed
  cases ls with
  | tuple _ => cases letters
  | letters _ | nullable _ | words _ => rfl

/-- A label of a free set is one letter on each tape. -/
theorem lettersAt_of_contains (free : ls.isFree = true) (member : ls.contains l = true)
    (inside : i < ls.tapeCount) : ∃ c, l.lettersAt i = [c] := by
  cases ls with
  | nullable _ | words _ => cases free
  | letters alphabet =>
    obtain rfl : i = 0 := Nat.lt_one_iff.mp inside
    obtain ⟨c, rfl⟩ := letter_of_isLetters rfl member
    exact ⟨c, rfl⟩
  | tuple tapes =>
    obtain ⟨as, rfl, each⟩ := tuple_of_contains member
    obtain ⟨ls, l, listed, found, member⟩ := contains_at each inside
    have letters := List.all_eq_true.mp free ls (List.mem_of_getElem? listed)
    obtain ⟨c, rfl⟩ := letter_of_isLetters letters member
    refine ⟨c, ?_⟩
    rw [Label.lettersAt, found]
    rfl

/-- What labels spell on a tape of a tuple are letters of that tape. -/
theorem accepts_of_mem_wordAt (free : (tuple tapes).isFree = true)
    (members : ∀ l ∈ us, (tuple tapes).contains l = true) (listed : tapes[i]? = some ls) {c : Char}
    (spelled : c ∈ wordAt us i) : ls.accepts c = true := by
  obtain ⟨l, among, letter⟩ := List.mem_flatMap.mp spelled
  obtain ⟨as, rfl, each⟩ := tuple_of_contains (members l among)
  have inside := (List.getElem?_eq_some_iff.mp listed).1
  obtain ⟨ls', l, listed', found, member⟩ := contains_at each inside
  obtain rfl : ls = ls' := Option.some.inj (listed.symm.trans listed')
  have letters := List.all_eq_true.mp free ls (List.mem_of_getElem? listed)
  obtain ⟨d, rfl⟩ := letter_of_isLetters letters member
  rw [Label.lettersAt, found] at letter
  obtain rfl := List.mem_singleton.mp letter
  cases ls with
  | letters alphabet => exact member
  | nullable _ | words _ | tuple _ => cases letters

/-- The letters on the tapes tell the labels of a free set apart. -/
theorem eq_of_lettersAt (free : ls.isFree = true) (left : ls.contains a = true)
    (right : ls.contains b = true) (same : ∀ i < ls.tapeCount, a.lettersAt i = b.lettersAt i) :
    a = b := by
  cases ls with
  | nullable _ | words _ => cases free
  | letters alphabet =>
    obtain ⟨c, rfl⟩ := letter_of_isLetters rfl left
    obtain ⟨d, rfl⟩ := letter_of_isLetters rfl right
    rw [(List.cons.inj (same 0 Nat.one_pos)).1]
  | tuple tapes =>
    obtain ⟨as, rfl, lefts⟩ := tuple_of_contains left
    obtain ⟨bs, rfl, rights⟩ := tuple_of_contains right
    refine congrArg Label.tuple (eq_of_map_letters (flat_of_free free) lefts rights ?_)
    refine List.ext_getElem? fun i => ?_
    rw [List.getElem?_map, List.getElem?_map]
    by_cases inside : i < tapes.length
    · obtain ⟨_, l, _, found, _⟩ := contains_at lefts inside
      obtain ⟨_, l', _, found', _⟩ := contains_at rights inside
      have letters := same i inside
      rw [Label.lettersAt, Label.lettersAt, found, found'] at letters
      rw [found, found']
      exact congrArg some letters
    · rw [List.getElem?_eq_none, List.getElem?_eq_none]
      · rw [length_of_containsEach rights]
        exact Nat.le_of_not_lt inside
      · rw [length_of_containsEach lefts]
        exact Nat.le_of_not_lt inside

/-- Over a free set the words on the tapes tell which labels spell them. -/
theorem eq_of_wordAt (free : ls.isFree = true) (tapes : ls.tapeCount ≠ 0)
    (left : ∀ l ∈ us, ls.contains l = true) (right : ∀ l ∈ vs, ls.contains l = true)
    (same : ∀ i < ls.tapeCount, wordAt us i = wordAt vs i) : us = vs := by
  have first := Nat.pos_of_ne_zero tapes
  induction us generalizing vs with
  | nil =>
    cases vs with
    | nil => rfl
    | cons b vs =>
      obtain ⟨d, letter⟩ := lettersAt_of_contains free (right b List.mem_cons_self) first
      have words := same 0 first
      rw [wordAt, wordAt, List.flatMap_cons, letter] at words
      cases words
  | cons a us ih =>
    obtain ⟨member, lefts⟩ := List.forall_mem_cons.mp left
    cases vs with
    | nil =>
      obtain ⟨c, letter⟩ := lettersAt_of_contains free member first
      have words := same 0 first
      rw [wordAt, wordAt, List.flatMap_cons, letter] at words
      cases words
    | cons b vs =>
      obtain ⟨member', rights⟩ := List.forall_mem_cons.mp right
      have split (i : Nat) (inside : i < ls.tapeCount) :
          a.lettersAt i = b.lettersAt i ∧ wordAt us i = wordAt vs i := by
        obtain ⟨c, letter⟩ := lettersAt_of_contains free member inside
        obtain ⟨d, letter'⟩ := lettersAt_of_contains free member' inside
        have words := same i inside
        rw [wordAt, wordAt, List.flatMap_cons, List.flatMap_cons, letter, letter'] at words
        obtain ⟨equal, rest⟩ := List.cons.inj words
        rw [letter, letter', equal]
        exact ⟨rfl, rest⟩
      rw [eq_of_lettersAt free member member' fun i inside => (split i inside).1,
        ih lefts rights fun i inside => (split i inside).2]

end LabelSet

end WeightedAutomata
