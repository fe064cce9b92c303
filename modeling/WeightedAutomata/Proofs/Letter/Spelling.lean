import Mathlib.Data.List.Basic
import WeightedAutomata.Automaton.Evaluation
import WeightedAutomata.Proofs.Letter.Escape

/-! The text of a word is read back as the word. -/

namespace WeightedAutomata

namespace Letter

/-- Whether the letter is one of the visible ASCII characters. -/
def Visible (c : Char) : Prop := 0x21 ≤ c.toNat ∧ c.toNat ≤ 0x7e

/-- Whether the letter has a text. Two codes are reserved. -/
def Named (c : Char) : Prop := c.toNat ≠ 0 ∧ c.toNat ≠ 0xff

instance (c : Char) : Decidable (Visible c) := inferInstanceAs (Decidable (_ ∧ _))

instance (c : Char) : Decidable (Named c) := inferInstanceAs (Decidable (_ ∧ _))

variable {c : Char} {u p signs : List Char}

theorem Visible.named (visible : Visible c) : Named c := by
  obtain ⟨low, high⟩ := visible
  constructor <;> omega

theorem not_needsCode (visible : Visible c) : needsCode c = false := by
  obtain ⟨low, high⟩ := visible
  rw [not_needsCode_iff]
  omega

theorem not_blank (visible : Visible c) : Text.isBlank c = false := by
  obtain ⟨low, high⟩ := visible
  simp only [Text.isBlank, Bool.or_eq_false_iff, Bool.and_eq_false_iff, decide_eq_false_iff_not,
    beq_eq_false_iff_ne]
  omega

theorem writable_of_needsCode (named : Named c) (code : needsCode c = true) : Writable c := by
  obtain ⟨low, high⟩ := named
  have range := needsCode_iff.mp code
  constructor <;> omega

theorem needsCode_of_unnamed (unnamed : ¬ Named c) : needsCode c = true := by
  unfold Named at unnamed
  rw [needsCode_iff]
  omega

/-! ### Reading letters -/

/-- A letter after a backslash is read as itself. -/
theorem readMarked_escaped (whole : String) (differ : c ≠ 'x') (rest : List Char) :
    readMarked whole ('\\' :: c :: rest) =
      (readMarked whole rest).map fun marked => (c, true) :: marked := by
  rw [readMarked.eq_5 _ _ _ (by simp [differ]) (by simp [differ])]
  cases readMarked whole rest <;> rfl

theorem readMarked_plain (whole : String) (differ : c ≠ '\\') (rest : List Char) :
    readMarked whole (c :: rest) =
      (readMarked whole rest).map fun marked => (c, false) :: marked := by
  rw [readMarked.eq_6 _ _ _ (by simp [differ]) (by simp [differ]) (by simp [differ])
    (by simp [differ])]
  cases readMarked whole rest <;> rfl

theorem readMarked_code (whole : String) (c : Char) (rest : List Char) :
    readMarked whole (coded c ++ rest) = (do
      let c ← ofCode (Text.hexDigits c.toNat) whole
      return (c, true) :: (← readMarked whole rest)) := by
  change readMarked whole ('\\' :: 'x' :: _ :: _ :: rest) = _
  rw [readMarked]
  rfl

theorem readMarked_coded (whole : String) (writable : Writable c) (rest : List Char) :
    readMarked whole (coded c ++ rest) =
      (readMarked whole rest).map fun marked => (c, true) :: marked := by
  rw [readMarked_code, ofCode_hexDigits writable whole]
  cases readMarked whole rest <;> rfl

/-- Signs among which are the backslash, but neither the `x` of the codes nor a reserved letter. -/
structure Signs (signs : List Char) : Prop where
  escape : '\\' ∈ signs
  hex : 'x' ∉ signs
  named : ∀ c ∈ signs, Named c

theorem named_of_all {u : List Char} (named : u.all (Named ·) = true) : ∀ c ∈ u, Named c :=
  fun c listed => of_decide_eq_true (List.all_eq_true.mp named c listed)

theorem signs_operators : Signs operators :=
  ⟨by decide, by decide, named_of_all (by decide)⟩

variable {text : Char → List Char}

section

variable (signed : Signs signs) (writing : ∀ c, Writing signs c (text c)) (whole : String)

include signed writing

/-- One letter is read back, and marked if it has a meaning. -/
theorem readMarked_text (named : Named c) (rest : List Char) :
    ∃ flag, readMarked whole (text c ++ rest) =
      (readMarked whole rest).map (fun marked => (c, flag) :: marked) ∧
        (flag = false → c ∉ signs) := by
  have ways := writing c
  generalize text c = p at ways ⊢
  cases ways with
  | escaped sign =>
    have differ : c ≠ 'x' := fun same => signed.hex (same ▸ sign)
    exact ⟨true, readMarked_escaped whole differ rest, nofun⟩
  | coded needed =>
    exact ⟨true, readMarked_coded whole (writable_of_needsCode named needed) rest, nofun⟩
  | plain other =>
    have differ : c ≠ '\\' := fun same => other (same ▸ signed.escape)
    exact ⟨false, readMarked_plain whole differ rest, fun _ => other⟩

/-- A reserved letter is written by its code, which is refused. -/
theorem readMarked_unnamed (unnamed : ¬ Named c) (rest : List Char) :
    ∃ reason, readMarked whole (text c ++ rest) = .error (.badLabel whole reason) := by
  have code : text c = coded c := by
    have ways := writing c
    generalize text c = p at ways ⊢
    cases ways with
    | escaped sign => exact absurd (signed.named c sign) unnamed
    | coded => rfl
    | plain _ raw => exact absurd (needsCode_of_unnamed unnamed) (Bool.eq_false_iff.mp raw)
  have reserved : c.toNat = 0 ∨ c.toNat = 0xff := by
    unfold Named at unnamed
    omega
  rw [code, readMarked_code]
  rcases reserved with zero | last
  · rw [zero]
    exact ⟨_, rfl⟩
  · rw [last]
    exact ⟨_, rfl⟩

/-- The letters of a word are read back from their texts. -/
theorem readMarked_flatMap (named : ∀ c ∈ u, Named c) :
    ∃ marked, readMarked whole (u.flatMap text) = .ok marked ∧ marked.map (·.1) = u ∧
      ∀ entry ∈ marked, entry.2 = false → entry.1 ∉ signs := by
  induction u with
  | nil => exact ⟨[], rfl, rfl, nofun⟩
  | cons c u ih =>
    obtain ⟨first, others⟩ := List.forall_mem_cons.mp named
    obtain ⟨marked, read, letters, plain⟩ := ih others
    obtain ⟨flag, step, here⟩ := readMarked_text signed writing whole first (u.flatMap text)
    refine ⟨(c, flag) :: marked, ?_, by rw [List.map_cons, letters],
      List.forall_mem_cons.mpr ⟨here, plain⟩⟩
    rw [List.flatMap_cons, step, read]
    rfl

theorem readMarked_of_unnamed (unnamed : ¬ ∀ c ∈ u, Named c) :
    ∃ reason, readMarked whole (u.flatMap text) = .error (.badLabel whole reason) := by
  induction u with
  | nil => exact absurd nofun unnamed
  | cons c u ih =>
    rw [List.flatMap_cons]
    by_cases first : Named c
    · obtain ⟨reason, refused⟩ :=
        ih fun others => unnamed (List.forall_mem_cons.mpr ⟨first, others⟩)
      obtain ⟨flag, step, _⟩ := readMarked_text signed writing whole first (u.flatMap text)
      refine ⟨reason, ?_⟩
      rw [step, refused]
      rfl
    · exact readMarked_unnamed signed writing whole first _

end

theorem unescape_flatMap_escape (named : ∀ c ∈ u, Named c) :
    unescape (u.flatMap escape) = .ok u := by
  obtain ⟨marked, read, letters, _⟩ := readMarked_flatMap signs_operators writing_escape
    (String.ofList (u.flatMap escape)) named
  unfold unescape
  rw [read, ← letters]
  rfl

theorem unescape_of_unnamed (unnamed : ¬ ∀ c ∈ u, Named c) : ∃ label reason,
    unescape (u.flatMap escape) = .error (.badLabel label reason) := by
  obtain ⟨reason, refused⟩ := readMarked_of_unnamed signs_operators writing_escape
    (String.ofList (u.flatMap escape)) unnamed
  refine ⟨String.ofList (u.flatMap escape), reason, ?_⟩
  unfold unescape
  rw [refused]
  rfl

/-! ### Blanks -/

/-- Whether trimming leaves the text of the word as it is: a blank at an end is written by its code,
or is a space in front. The letter `ε` alone is left out, whose text is that of the empty word. -/
structure Firm (u : List Char) : Prop where
  first : ∀ c ∈ u.head?, Text.isBlank c = true → c = ' ' ∨ needsCode c = true
  last : ∀ c ∈ u.getLast?, Text.isBlank c = true → needsCode c = true
  other : u ≠ ['ε']

theorem firm_of_visible (visible : ∀ c ∈ u, Visible c) : Firm u where
  first c member blank := by
    have solid := not_blank (visible c (List.mem_of_mem_head? member))
    exact absurd blank (Bool.eq_false_iff.mp solid)
  last c member blank := by
    have solid := not_blank (visible c (List.mem_of_mem_getLast? member))
    exact absurd blank (Bool.eq_false_iff.mp solid)
  other := by
    rintro rfl
    exact absurd (visible 'ε' List.mem_cons_self).2 (by decide)

theorem visible_escape (visible : Visible c) : ∀ d ∈ escape c, Visible d := by
  have ways := writing_escape c
  generalize escape c = p at ways ⊢
  cases ways with
  | escaped => exact List.forall_mem_cons.mpr ⟨by decide, List.forall_mem_singleton.mpr visible⟩
  | coded needed => exact absurd (needed.symm.trans (not_needsCode visible)) Bool.noConfusion
  | plain => exact List.forall_mem_singleton.mpr visible

/-- The only blanks that may stand first in the text of a letter. -/
theorem blank_of_head?_escape {d : Char} (member : d ∈ (escape c).head?)
    (blank : Text.isBlank d = true) : d = c ∧ c ≠ ' ' ∧ needsCode c = false := by
  have ways := writing_escape c
  generalize escape c = p at ways member
  cases ways with
  | escaped | coded =>
    obtain rfl := Option.some.inj member
    cases blank
  | plain other raw =>
    exact ⟨(Option.some.inj member).symm, fun same => other (same ▸ by decide), raw⟩

/-- The only blanks that may stand last in the text of a letter. -/
theorem blank_of_getLast?_escape {d : Char} (member : d ∈ (escape c).getLast?)
    (blank : Text.isBlank d = true) : d = c ∧ needsCode c = false := by
  have ways := writing_escape c
  generalize escape c = p at ways member
  cases ways with
  | escaped sign =>
    have raw : operators.all (fun c => !needsCode c) = true := by decide
    refine ⟨(Option.some.inj member).symm, ?_⟩
    exact Bool.not_eq_true' _ ▸ List.all_eq_true.mp raw c sign
  | coded =>
    have digits : ∀ n < 16, Text.isBlank (Nat.digitChar n) = false := by decide
    obtain rfl : Nat.digitChar (c.toNat % 16) = d := Option.some.inj member
    rw [digits _ (Nat.mod_lt _ (by decide))] at blank
    cases blank
  | plain other raw => exact ⟨(Option.some.inj member).symm, raw⟩

theorem escape_ne_nil (c : Char) : escape c ≠ [] := by
  have ways := writing_escape c
  generalize escape c = p at ways ⊢
  cases ways <;> exact List.cons_ne_nil _ _

theorem first_flatMap_escape (firm : Firm u) :
    ∀ d ∈ (u.flatMap escape).head?, Text.isBlank d = false := by
  intro d member
  obtain _ | ⟨c, u⟩ := u
  · cases member
  rw [List.flatMap_cons, List.head?_append_of_ne_nil _ (escape_ne_nil c)] at member
  refine Bool.eq_false_iff.mpr fun blank => ?_
  obtain ⟨rfl, space, raw⟩ := blank_of_head?_escape member blank
  have first := firm.first d rfl blank
  rw [raw] at first
  exact first.elim space Bool.noConfusion

theorem last_flatMap_escape (firm : Firm u) :
    ∀ d ∈ (u.flatMap escape).getLast?, Text.isBlank d = false := by
  intro d member
  rcases List.eq_nil_or_concat u with rfl | ⟨v, c, rfl⟩
  · cases member
  rw [List.concat_eq_append, List.flatMap_append, List.flatMap_singleton,
    List.getLast?_append_of_ne_nil _ (escape_ne_nil c)] at member
  refine Bool.eq_false_iff.mpr fun blank => ?_
  obtain ⟨rfl, raw⟩ := blank_of_getLast?_escape member blank
  have last := firm.last d (by simp) blank
  rw [raw] at last
  cases last

theorem trim_flatMap_escape (firm : Firm u) : Text.trim (u.flatMap escape) = u.flatMap escape :=
  Text.trim_of_solid_ends (first_flatMap_escape firm) (last_flatMap_escape firm)

/-- The two texts of the empty word are read as words of one letter, which has another text. -/
theorem not_text_of_one (firm : Firm u) :
    ¬(u.flatMap escape = ['\\', 'e'] ∨ u.flatMap escape = ['ε']) := by
  by_cases named : ∀ c ∈ u, Named c
  · have read := unescape_flatMap_escape named
    rintro (same | same)
    · rw [same] at read
      obtain rfl : u = ['e'] := (Except.ok.inj read).symm
      exact absurd same (by decide)
    · rw [same] at read
      exact firm.other (Except.ok.inj read).symm
  · obtain ⟨label, reason, refused⟩ := unescape_of_unnamed named
    rintro (same | same) <;> rw [same] at refused <;> cases refused

end Letter

namespace Automaton

/-- The text of a word: its letters with their escapes, or that of the empty word. -/
def wordText (u : List Char) : List Char :=
  (if u.isEmpty then Label.one else Label.word u).text.toList

theorem wordText_of_ne_nil {u : List Char} (nonempty : u ≠ []) :
    wordText u = u.flatMap Letter.escape := by
  unfold wordText
  rw [if_neg (by simpa using nonempty), Label.text, String.toList_ofList]

/-- The text of a word, letter by letter, is read as the word. -/
theorem wordLetters_flatMap_escape {u : List Char} (visible : ∀ c ∈ u, Letter.Visible c) :
    wordLetters (u.flatMap Letter.escape) = .ok u := by
  have firm := Letter.firm_of_visible visible
  unfold wordLetters
  rw [Letter.trim_flatMap_escape firm]
  dsimp only
  rw [if_neg (Letter.not_text_of_one firm)]
  exact Letter.unescape_flatMap_escape fun c member => (visible c member).named

theorem wordLetters_wordText {u : List Char} (visible : ∀ c ∈ u, Letter.Visible c) :
    wordLetters (wordText u) = .ok u := by
  by_cases empty : u = []
  · subst empty
    rfl
  · rw [wordText_of_ne_nil empty]
    exact wordLetters_flatMap_escape visible

end Automaton

end WeightedAutomata
