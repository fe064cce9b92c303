import WeightedAutomata.Proofs.Label.Free
import WeightedAutomata.Proofs.Letter.Spelling
import WeightedAutomata.Proofs.Text.Splitting

/-! The text of a label is read back as the label, where its letters have texts and no blank at its
ends is lost. -/

namespace WeightedAutomata

mutual

/-- Whether the letters of the label are visible, on every tape. -/
def Label.Visible : Label → Prop
  | .letter c => Letter.Visible c
  | .word u => ∀ c ∈ u, Letter.Visible c
  | .tuple labels => AllVisible labels
  | .one | .special => True

def Label.AllVisible : List Label → Prop
  | [] => True
  | l :: labels => l.Visible ∧ AllVisible labels

end

namespace Letter

/-- A character after a backslash, or one that means nothing in any syntax. -/
inductive Glyph : List Char → Prop
  | escaped {c : Char} : Text.isBlank c = false → Glyph ['\\', c]
  | plain {c : Char} : Text.isBlank c = false → c ∉ operators → Glyph [c]

variable {c : Char} {p : List Char}

theorem Visible.glyph (visible : Visible c) : Glyph (escape c) := by
  unfold escape
  rw [not_needsCode visible]
  by_cases operator : operators.contains c = true
  · rw [if_pos operator]
    exact .escaped (not_blank visible)
  · rw [if_neg operator]
    exact .plain (not_blank visible) fun member => operator (List.contains_iff_mem.mpr member)

theorem Glyph.not_blank (glyph : Glyph p) : ∀ c ∈ p, Text.isBlank c = false := by
  cases glyph with
  | escaped solid => exact List.forall_mem_cons.mpr ⟨by decide, List.forall_mem_singleton.mpr solid⟩
  | plain solid => exact List.forall_mem_singleton.mpr solid

/-- A text of glyphs. -/
def Spelled (t : List Char) : Prop := ∃ ps, t = ps.flatten ∧ ps ≠ [] ∧ ∀ p ∈ ps, Glyph p

/-- A text of glyphs and bars. -/
def Barred (t : List Char) : Prop :=
  ∃ ps, t = ps.flatten ∧ ps ≠ [] ∧ ∀ p ∈ ps, Glyph p ∨ p = ['|']

variable {t u : List Char}

theorem Spelled.barred (spelled : Spelled t) : Barred t := by
  obtain ⟨ps, same, nonempty, glyphs⟩ := spelled
  exact ⟨ps, same, nonempty, fun p member => .inl (glyphs p member)⟩

theorem Barred.append (left : Barred t) (right : Barred u) : Barred (t ++ '|' :: u) := by
  obtain ⟨ps, rfl, _, glyphs⟩ := left
  obtain ⟨qs, rfl, _, glyphs'⟩ := right
  refine ⟨ps ++ ['|'] :: qs, by simp, by simp, fun p member => ?_⟩
  rcases List.mem_append.mp member with first | later
  · exact glyphs p first
  · rcases List.mem_cons.mp later with bar | last
    · exact .inr bar
    · exact glyphs' p last

theorem Barred.not_blank (barred : Barred t) : ∀ c ∈ t, Text.isBlank c = false := by
  obtain ⟨ps, rfl, _, glyphs⟩ := barred
  intro c member
  obtain ⟨p, listed, inside⟩ := List.mem_flatten.mp member
  rcases glyphs p listed with glyph | rfl
  · exact glyph.not_blank c inside
  · rw [List.mem_singleton.mp inside]
    decide

theorem Barred.ne_nil (barred : Barred t) : t ≠ [] := by
  obtain ⟨ps, rfl, nonempty, glyphs⟩ := barred
  obtain ⟨p, listed⟩ := List.exists_mem_of_ne_nil ps nonempty
  intro empty
  have nothing : p = [] := List.flatten_eq_nil_iff.mp empty p listed
  subst nothing
  rcases glyphs [] listed with glyph | bar
  · cases glyph
  · cases bar

/-- In front stands no operator but a backslash or a bar. -/
theorem Barred.head?_ne (barred : Barred t) {c : Char} (operator : c ∈ operators)
    (other : c ≠ '\\' ∧ c ≠ '|') : t.head? ≠ some c := by
  obtain ⟨ps, rfl, nonempty, glyphs⟩ := barred
  obtain ⟨p, ps, rfl⟩ := List.exists_cons_of_ne_nil nonempty
  intro same
  rcases glyphs p List.mem_cons_self with glyph | rfl
  · cases glyph with
    | escaped => exact other.1 (Option.some.inj same).symm
    | plain _ outside => exact outside (Option.some.inj same ▸ operator)
  · exact other.2 (Option.some.inj same).symm

end Letter

open Letter (Glyph Spelled Barred Firm Named)
open Text (Whole Edged)

/-! ### Texts on one tape -/

namespace Label

theorem toList_tapesText_cons {l m : Label} {ls : List Label} :
    (tapesText (l :: m :: ls)).toList = l.text.toList ++ '|' :: (tapesText (m :: ls)).toList := by
  rw [tapesText, String.toList_append, String.toList_append, List.append_assoc]
  rfl

/-- What holds of the texts of labels holds of them with bars between, if a bar keeps it. -/
theorem tapesText_induction {P : List Char → Prop} {labels : List Label}
    (join : ∀ {t u : List Char}, P t → P u → P (t ++ '|' :: u)) (nonempty : labels ≠ [])
    (each : ∀ l ∈ labels, P l.text.toList) : P (tapesText labels).toList := by
  induction labels with
  | nil => exact absurd rfl nonempty
  | cons l labels ih =>
    obtain ⟨head, tail⟩ := List.forall_mem_cons.mp each
    cases labels with
    | nil => exact head
    | cons m labels =>
      rw [toList_tapesText_cons]
      exact join head (ih (List.cons_ne_nil m labels) tail)

end Label

namespace LabelSet

variable {ls : LabelSet} {l : Label} {labels : List Label} {tapes : List LabelSet}

/-- The text of a label of one tape is that of the empty word, or of a word of the set. -/
theorem text_cases (single : ls.isTuple = false) (member : ls.contains l = true) :
    l = .one ∨ l.letters ≠ [] ∧ l.text.toList = l.letters.flatMap Letter.escape ∧
      ls.word l.letters = .ok l := by
  cases l with
  | one => exact .inl rfl
  | letter c =>
    refine .inr ⟨List.cons_ne_nil c [], ?_, ?_⟩
    · rw [Label.text, String.toList_ofList, Label.letters, List.flatMap_singleton]
    · cases ls <;> first | rfl | cases member
  | word u =>
    have nonempty : u ≠ [] := letters_ne_nil single member rfl
    refine .inr ⟨nonempty, ?_, ?_⟩
    · rw [Label.text, String.toList_ofList, Label.letters]
    · cases ls with
      | words =>
        obtain ⟨c, u, rfl⟩ := List.exists_cons_of_ne_nil nonempty
        rfl
      | _ => cases member
  | tuple | special => cases ls <;> simp_all [contains, isTuple, tapes?]

theorem parseLetters_text (single : ls.isTuple = false) (member : ls.contains l = true)
    (firm : Firm l.letters) (named : ∀ c ∈ l.letters, Named c) :
    ls.parseLetters l.text.toList = .ok l := by
  have checked : ls.check l = .ok () := if_pos member
  rcases text_cases single member with rfl | ⟨nonempty, text, read⟩
  · have read : ls.word [] = .ok .one := by
      cases ls <;> first | rfl | cases member
    change (do
      let res ← ls.word []
      ls.check res
      return res : Result Label) = _
    rw [read]
    change (do ls.check .one; return .one : Result Label) = _
    rw [checked]
    rfl
  · unfold parseLetters
    rw [text, Letter.trim_flatMap_escape firm]
    dsimp only
    rw [if_neg (Letter.not_text_of_one firm), Letter.unescape_flatMap_escape named]
    dsimp only [bind, Except.bind]
    rw [if_neg (by simpa using nonempty), read]
    dsimp only
    rw [checked]
    rfl

/-! ### Bars between tapes -/

theorem whole_singleton {c : Char} (plain : c ≠ '\\' ∧ c ≠ '|') : Whole splitTapes [c] := by
  intro rest first others split
  change splitTapes (c :: rest) = _
  rw [splitTapes, split]
  · rfl
  · simp [plain.1]
  · simp [plain.2]

theorem whole_escaped (c : Char) : Whole splitTapes ['\\', c] := by
  intro rest first others split
  change splitTapes ('\\' :: c :: rest) = _
  rw [splitTapes, split]
  rfl

/-- No bar of a letter stands between two tapes. -/
theorem whole_escape (c : Char) : Whole splitTapes (Letter.escape c) := by
  have ways := Letter.writing_escape c
  generalize Letter.escape c = p at ways ⊢
  cases ways with
  | escaped => exact whole_escaped c
  | coded needed =>
    have digits : ∀ n < 16, Nat.digitChar n ≠ '\\' ∧ Nat.digitChar n ≠ '|' := by decide
    have range := Letter.needsCode_iff.mp needed
    have high : c.toNat / 16 < 16 := by omega
    have low : c.toNat % 16 < 16 := Nat.mod_lt _ (by decide)
    exact (whole_escaped 'x').append
      ((whole_singleton (digits _ high)).append (whole_singleton (digits _ low)))
  | plain other =>
    exact whole_singleton
      ⟨fun same => other (same ▸ by decide), fun same => other (same ▸ by decide)⟩

theorem whole_text (single : ls.isTuple = false) (member : ls.contains l = true) :
    Whole splitTapes l.text.toList := by
  rcases text_cases single member with rfl | ⟨-, text, -⟩
  · exact whole_escaped 'e'
  · rw [text, List.flatMap_def]
    refine Text.whole_flatten fun p inside => ?_
    obtain ⟨c, _, rfl⟩ := List.mem_map.mp inside
    exact whole_escape c

theorem splitTapes_tapesText (nonempty : labels ≠ [])
    (each : ∀ l ∈ labels, Whole splitTapes l.text.toList) :
    splitTapes (Label.tapesText labels).toList = labels.map (·.text.toList) := by
  induction labels with
  | nil => exact absurd rfl nonempty
  | cons l labels ih =>
    obtain ⟨head, tail⟩ := List.forall_mem_cons.mp each
    cases labels with
    | nil =>
      have alone : splitTapes (l.text.toList ++ []) = [l.text.toList ++ []] := head [] [] [] rfl
      rwa [List.append_nil] at alone
    | cons m labels =>
      have bar : splitTapes ('|' :: (Label.tapesText (m :: labels)).toList) =
          [] :: (m :: labels).map (·.text.toList) := by
        rw [splitTapes, ih (List.cons_ne_nil m labels) tail]
      rw [Label.toList_tapesText_cons, head _ _ _ bar, List.append_nil]
      rfl

/-! ### Ends -/

theorem edged_text (single : ls.isTuple = false) (member : ls.contains l = true)
    (firm : Firm l.letters) : Edged l.text.toList := by
  rcases text_cases single member with rfl | ⟨nonempty, text, -⟩
  · have text : Label.one.text.toList = ['\\', 'e'] := rfl
    rw [text]
    exact Text.edged_of_solid (List.cons_ne_nil _ _) (by simp [Text.isBlank])
  · obtain ⟨c, u, same⟩ := List.exists_cons_of_ne_nil nonempty
    rw [text]
    refine ⟨?_, Letter.first_flatMap_escape firm, Letter.last_flatMap_escape firm⟩
    rw [same, List.flatMap_cons]
    exact List.append_ne_nil_of_left_ne_nil (Letter.escape_ne_nil c) _

theorem edged_tapesText (nonempty : labels ≠ []) (each : ∀ l ∈ labels, Edged l.text.toList) :
    Edged (Label.tapesText labels).toList :=
  Label.tapesText_induction (fun head tail => head.around tail ['|']) nonempty each

/-! ### Labels -/

/-- Whether labels are on one tape, or are tuples of one or more such labels. -/
def Shallow : LabelSet → Prop
  | tuple tapes => tapes ≠ [] ∧ ∀ tape ∈ tapes, tape.isTuple = false
  | _ => True

theorem exists_tape_of_mem (single : ∀ tape ∈ tapes, tape.isTuple = false)
    (member : containsEach tapes labels = true) (inside : l ∈ labels) :
    ∃ tape : LabelSet, tape.isTuple = false ∧ tape.contains l = true := by
  induction labels generalizing tapes with
  | nil => cases inside
  | cons m labels ih =>
    cases tapes with
    | nil => cases member
    | cons tape tapes =>
      obtain ⟨alone, others⟩ := List.forall_mem_cons.mp single
      obtain ⟨here, later⟩ := containsEach_cons.mp member
      rcases List.mem_cons.mp inside with rfl | inside
      · exact ⟨tape, alone, here⟩
      · exact ih others later inside

theorem ne_nil_of_containsEach (nonempty : tapes ≠ []) (member : containsEach tapes labels = true) :
    labels ≠ [] := by
  rintro rfl
  exact nonempty (List.length_eq_zero_iff.mp (length_of_containsEach member).symm)

theorem parseLabel_of_single (single : ls.isTuple = false) (cs : List Char) :
    ls.parseLabel cs = ls.parseLetters cs := by
  cases ls with
  | tuple => cases single
  | _ =>
    rw [parseLabel]
    simp

theorem parseEach_texts (single : ∀ tape ∈ tapes, tape.isTuple = false)
    (member : containsEach tapes labels = true)
    (firm : ∀ l ∈ labels, Firm l.letters) (named : ∀ l ∈ labels, ∀ c ∈ l.letters, Named c) :
    parseEach tapes (labels.map (·.text.toList)) = .ok labels := by
  induction labels generalizing tapes with
  | nil =>
    cases tapes with
    | nil => rfl
    | cons => cases member
  | cons l labels ih =>
    cases tapes with
    | nil => cases member
    | cons tape tapes =>
      obtain ⟨alone, others⟩ := List.forall_mem_cons.mp single
      obtain ⟨here, later⟩ := containsEach_cons.mp member
      obtain ⟨firm, firms⟩ := List.forall_mem_cons.mp firm
      obtain ⟨named, names⟩ := List.forall_mem_cons.mp named
      rw [List.map_cons, parseEach, parseLabel_of_single alone,
        parseLetters_text alone here firm named, ih others later firms names]
      rfl

/-- The text of a tuple is read tape by tape. -/
theorem parseLabel_tapesText (nonempty : tapes ≠ [])
    (single : ∀ tape ∈ tapes, tape.isTuple = false)
    (member : containsEach tapes labels = true) (firm : ∀ l ∈ labels, Firm l.letters) :
    (tuple tapes).parseLabel (Label.tuple labels).text.toList = (do
      let res := Label.tuple (← parseEach tapes (labels.map (·.text.toList)))
      (tuple tapes).check res
      return res) := by
  have inhabited : labels ≠ [] := ne_nil_of_containsEach nonempty member
  have edged : Edged (Label.tuple labels).text.toList := by
    refine edged_tapesText inhabited fun l inside => ?_
    obtain ⟨tape, alone, here⟩ := exists_tape_of_mem single member inside
    exact edged_text alone here (firm l inside)
  have split : splitTapes (Label.tuple labels).text.toList = labels.map (·.text.toList) := by
    refine splitTapes_tapesText inhabited fun l inside => ?_
    obtain ⟨tape, alone, here⟩ := exists_tape_of_mem single member inside
    exact whole_text alone here
  have long : (labels.map (·.text.toList)).length = tapes.length := by
    rw [List.length_map, length_of_containsEach member]
  unfold parseLabel
  rw [edged.trim]
  dsimp only
  rw [split, if_neg (not_not_intro long)]

theorem exists_lettersAt (inside : l ∈ labels) :
    ∃ i, (Label.tuple labels).lettersAt i = l.letters := by
  obtain ⟨i, found⟩ := List.mem_iff_getElem?.mp inside
  refine ⟨i, ?_⟩
  rw [Label.lettersAt, found]
  rfl

theorem lettersAt_zero (single : ls.isTuple = false) (member : ls.contains l = true) :
    l.lettersAt 0 = l.letters := by
  cases ls <;> cases l <;> first | rfl | cases member | cases single

/-- The text of a label is read back as the label, if its letters are no reserved ones. -/
theorem parseLabel_of_named (shallow : ls.Shallow) (member : ls.contains l = true)
    (firm : ∀ i, Firm (l.lettersAt i)) (named : ∀ i, ∀ c ∈ l.lettersAt i, Named c) :
    ls.parseLabel l.text.toList = .ok l := by
  cases ls with
  | tuple tapes =>
    obtain ⟨labels, rfl, each⟩ := tuple_of_contains member
    obtain ⟨nonempty, single⟩ := shallow
    have onTape (l : Label) (inside : l ∈ labels) :
        Firm l.letters ∧ ∀ c ∈ l.letters, Named c := by
      obtain ⟨i, same⟩ := exists_lettersAt inside
      exact same ▸ ⟨firm i, named i⟩
    have checked : (tuple tapes).check (.tuple labels) = .ok () := if_pos member
    rw [parseLabel_tapesText nonempty single each fun l inside => (onTape l inside).1,
      parseEach_texts single each (fun l inside => (onTape l inside).1)
        fun l inside => (onTape l inside).2]
    change (do (tuple tapes).check (.tuple labels); return .tuple labels : Result Label) = _
    rw [checked]
    rfl
  | letters | nullable | words =>
    have same := lettersAt_zero rfl member
    rw [parseLabel_of_single rfl]
    exact parseLetters_text rfl member (same ▸ firm 0) (same ▸ named 0)

/-! ### Visible letters -/

theorem visible_of_mem (visible : Label.AllVisible labels) : ∀ l ∈ labels, l.Visible := by
  induction labels with
  | nil => exact nofun
  | cons l labels ih => exact List.forall_mem_cons.mpr ⟨visible.1, ih visible.2⟩

theorem visible_letters (visible : l.Visible) : ∀ c ∈ l.letters, Letter.Visible c := by
  cases l with
  | letter => exact List.forall_mem_singleton.mpr visible
  | word => exact visible
  | one | tuple | special => exact nofun

theorem visible_lettersAt (visible : l.Visible) (i : Nat) :
    ∀ c ∈ l.lettersAt i, Letter.Visible c := by
  cases l with
  | tuple labels =>
    intro c member
    rw [Label.lettersAt] at member
    cases found : labels[i]? with
    | none =>
      rw [found] at member
      cases member
    | some l =>
      rw [found] at member
      exact visible_letters (visible_of_mem visible l (List.mem_of_getElem? found)) c member
  | one | letter | word | special =>
    cases i with
    | zero => exact visible_letters visible
    | succ =>
      intro c member
      cases member

theorem spelled_text (single : ls.isTuple = false) (member : ls.contains l = true)
    (visible : l.Visible) : Spelled l.text.toList := by
  rcases text_cases single member with rfl | ⟨nonempty, text, -⟩
  · exact ⟨[['\\', 'e']], rfl, by simp, List.forall_mem_singleton.mpr (.escaped rfl)⟩
  · rw [text, List.flatMap_def]
    refine ⟨l.letters.map Letter.escape, rfl, by simpa using nonempty, fun p there => ?_⟩
    obtain ⟨c, inside, rfl⟩ := List.mem_map.mp there
    exact (visible_letters visible c inside).glyph

theorem spelled_texts (single : ∀ tape ∈ tapes, tape.isTuple = false)
    (member : containsEach tapes labels = true) (visible : Label.AllVisible labels) :
    ∀ l ∈ labels, Spelled l.text.toList := by
  intro l inside
  obtain ⟨tape, alone, here⟩ := exists_tape_of_mem single member inside
  exact spelled_text alone here (visible_of_mem visible l inside)

theorem barred_tapesText (nonempty : labels ≠ []) (each : ∀ l ∈ labels, Spelled l.text.toList) :
    Barred (Label.tapesText labels).toList :=
  Label.tapesText_induction Barred.append nonempty fun l inside => (each l inside).barred

theorem barred_text (shallow : ls.Shallow) (member : ls.contains l = true) (visible : l.Visible) :
    Barred l.text.toList := by
  cases ls with
  | tuple tapes =>
    obtain ⟨labels, rfl, each⟩ := tuple_of_contains member
    obtain ⟨nonempty, single⟩ := shallow
    exact barred_tapesText (ne_nil_of_containsEach nonempty each)
      (spelled_texts single each visible)
  | _ => exact (spelled_text rfl member visible).barred

theorem visible_text (single : ls.isTuple = false) (member : ls.contains l = true)
    (visible : l.Visible) : ∀ c ∈ l.text.toList, Letter.Visible c := by
  rcases text_cases single member with rfl | ⟨-, text, -⟩
  · have text : Label.one.text.toList = ['\\', 'e'] := rfl
    rw [text]
    simp [Letter.Visible]
  · intro c inside
    rw [text] at inside
    obtain ⟨d, listed, here⟩ := List.mem_flatMap.mp inside
    exact Letter.visible_escape (visible_letters visible d listed) c here

theorem visible_tapesText (nonempty : labels ≠ [])
    (each : ∀ l ∈ labels, ∀ c ∈ l.text.toList, Letter.Visible c) :
    ∀ c ∈ (Label.tapesText labels).toList, Letter.Visible c := by
  have bar : Letter.Visible '|' := by decide
  refine Label.tapesText_induction (P := (∀ c ∈ ·, Letter.Visible c)) (fun head tail => ?_)
    nonempty each
  exact List.forall_mem_append.mpr ⟨head, List.forall_mem_cons.mpr ⟨bar, tail⟩⟩

/-- No character of the text of a label is a sign outside of the visible ones. -/
theorem visible_label (shallow : ls.Shallow) (member : ls.contains l = true)
    (visible : l.Visible) : ∀ c ∈ l.text.toList, Letter.Visible c := by
  cases ls with
  | tuple tapes =>
    obtain ⟨labels, rfl, each⟩ := tuple_of_contains member
    refine visible_tapesText (ne_nil_of_containsEach shallow.1 each) fun l inside => ?_
    obtain ⟨tape, alone, here⟩ := exists_tape_of_mem shallow.2 each inside
    exact visible_text alone here (visible_of_mem visible l inside)
  | letters | nullable | words => exact visible_text rfl member visible

theorem parseLabel_text (shallow : ls.Shallow) (member : ls.contains l = true)
    (visible : l.Visible) : ls.parseLabel l.text.toList = .ok l :=
  parseLabel_of_named shallow member
    (fun i => Letter.firm_of_visible (visible_lettersAt visible i))
    fun i c inside => (visible_lettersAt visible i c inside).named

end LabelSet

end WeightedAutomata
