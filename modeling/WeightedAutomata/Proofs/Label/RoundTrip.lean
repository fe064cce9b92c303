import WeightedAutomata.Proofs.Label.Text

/-! Which labels are read back from their texts: those without a reserved letter. The reserved ones
are written by their codes like other letters, but their codes are refused. -/

namespace WeightedAutomata.LabelSet

open Letter (Firm Named)

variable {ls : LabelSet} {l : Label} {labels : List Label} {tapes : List LabelSet}

theorem parseLetters_of_unnamed (single : ls.isTuple = false) (member : ls.contains l = true)
    (firm : Firm l.letters) (unnamed : ¬ ∀ c ∈ l.letters, Named c) :
    ∃ label reason, ls.parseLetters l.text.toList = .error (.badLabel label reason) := by
  rcases text_cases single member with rfl | ⟨-, text, -⟩
  · exact absurd nofun unnamed
  · obtain ⟨label, reason, refused⟩ := Letter.unescape_of_unnamed unnamed
    refine ⟨label, reason, ?_⟩
    unfold parseLetters
    rw [text, Letter.trim_flatMap_escape firm]
    dsimp only
    rw [if_neg (Letter.not_text_of_one firm), refused]
    rfl

/-- The first tape with a reserved letter is refused. -/
theorem parseEach_of_unnamed (single : ∀ tape ∈ tapes, tape.isTuple = false)
    (member : containsEach tapes labels = true) (firm : ∀ l ∈ labels, Firm l.letters)
    (unnamed : ¬ ∀ l ∈ labels, ∀ c ∈ l.letters, Named c) :
    ∃ label reason,
      parseEach tapes (labels.map (·.text.toList)) = .error (.badLabel label reason) := by
  induction labels generalizing tapes with
  | nil => exact absurd nofun unnamed
  | cons l labels ih =>
    cases tapes with
    | nil => cases member
    | cons tape tapes =>
      obtain ⟨alone, others⟩ := List.forall_mem_cons.mp single
      obtain ⟨here, later⟩ := containsEach_cons.mp member
      obtain ⟨first, firms⟩ := List.forall_mem_cons.mp firm
      rw [List.map_cons, parseEach, parseLabel_of_single alone]
      by_cases named : ∀ c ∈ l.letters, Named c
      · obtain ⟨label, reason, refused⟩ := ih others later firms fun names =>
          unnamed (List.forall_mem_cons.mpr ⟨named, names⟩)
        refine ⟨label, reason, ?_⟩
        rw [parseLetters_text alone here first named, refused]
        rfl
      · obtain ⟨label, reason, refused⟩ := parseLetters_of_unnamed alone here first named
        refine ⟨label, reason, ?_⟩
        rw [refused]
        rfl

theorem parseLabel_of_unnamed (shallow : ls.Shallow) (member : ls.contains l = true)
    (firm : ∀ i, Firm (l.lettersAt i)) (unnamed : ∃ i, ∃ c ∈ l.lettersAt i, ¬ Named c) :
    ∃ label reason, ls.parseLabel l.text.toList = .error (.badLabel label reason) := by
  obtain ⟨i, c, inside, reserved⟩ := unnamed
  cases ls with
  | tuple tapes =>
    obtain ⟨labels, rfl, each⟩ := tuple_of_contains member
    obtain ⟨nonempty, single⟩ := shallow
    have firms (l : Label) (listed : l ∈ labels) : Firm l.letters := by
      obtain ⟨i, same⟩ := exists_lettersAt listed
      exact same ▸ firm i
    have somewhere : ¬ ∀ l ∈ labels, ∀ c ∈ l.letters, Named c := by
      intro named
      rw [Label.lettersAt] at inside
      cases found : labels[i]? with
      | none =>
        rw [found] at inside
        cases inside
      | some l =>
        rw [found] at inside
        exact reserved (named l (List.mem_of_getElem? found) c inside)
    obtain ⟨label, reason, refused⟩ := parseEach_of_unnamed single each firms somewhere
    refine ⟨label, reason, ?_⟩
    rw [parseLabel_tapesText nonempty single each firms, refused]
    rfl
  | letters | nullable | words =>
    have same := lettersAt_zero rfl member
    have here : c ∈ l.letters := by
      cases i with
      | zero => exact same ▸ inside
      | succ i => cases l <;> first | cases inside | cases member
    rw [parseLabel_of_single rfl]
    exact parseLetters_of_unnamed rfl member (same ▸ firm 0) fun named => reserved (named c here)

/-- The text of a label is read back as the label, unless a letter is reserved, which is refused.
The ends of the tapes are no blanks that trimming takes. -/
theorem parseLabel_text_of_firm (shallow : ls.Shallow) (member : ls.contains l = true)
    (firm : ∀ i, Firm (l.lettersAt i)) :
    ((∀ i, ∀ c ∈ l.lettersAt i, Named c) → ls.parseLabel l.text.toList = .ok l) ∧
      ((∃ i, ∃ c ∈ l.lettersAt i, ¬ Named c) →
        ∃ label reason, ls.parseLabel l.text.toList = .error (.badLabel label reason)) :=
  ⟨parseLabel_of_named shallow member firm, parseLabel_of_unnamed shallow member firm⟩

/-- A space and a bar are read back, and a blank that is written by its code. -/
theorem parseLabel_text_of_firm_of_blanks :
    (tuple [.words (.ofLetters true []), .nullable (.ofLetters true [])]).parseLabel
      (Label.tuple [.word [' ', '|', '\n'], .letter 'é']).text.toList =
        .ok (.tuple [.word [' ', '|', '\n'], .letter 'é']) := by
  have shallow : (tuple [.words (.ofLetters true []), .nullable (.ofLetters true [])]).Shallow :=
    ⟨by decide, by decide⟩
  have each (P : List Char → Prop) (first : P [' ', '|', '\n']) (second : P ['é']) (none : P [])
      (i : Nat) : P ((Label.tuple [.word [' ', '|', '\n'], .letter 'é']).lettersAt i) := by
    obtain _ | _ | i := i
    · exact first
    · exact second
    · exact none
  have firm := each Firm ⟨by simp, by simp [Letter.needsCode], by decide⟩
    ⟨by simp [Text.isBlank], by simp [Text.isBlank], by decide⟩ ⟨by simp, by simp, by simp⟩
  have named := each (∀ c ∈ ·, Named c) (Letter.named_of_all (by decide))
    (Letter.named_of_all (by decide)) (Letter.named_of_all rfl)
  exact (parseLabel_text_of_firm shallow rfl firm).1 named

/-- The set of all letters has the reserved one U+00FF, whose text is refused. -/
theorem parseLabel_text_of_reserved_letter :
    (letters (.ofLetters true [])).contains (.letter 'ÿ') = true ∧
      (letters (.ofLetters true [])).parseLabel (Label.letter 'ÿ').text.toList =
        .error (.badLabel "\\xff" "reserved letter \\xff") := by
  decide

end WeightedAutomata.LabelSet
