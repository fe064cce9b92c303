import WeightedAutomata.Letter.Alphabet
import WeightedAutomata.Proofs.Letter.Escape
import WeightedAutomata.Proofs.Letter.Spelling

/-! The text of an alphabet is read back as the alphabet. -/

namespace WeightedAutomata

namespace Alphabet

open Letter

variable {a : Alphabet} {c : Char} {cs rest : List Char}

/-! ### Letters -/

theorem writing_letterText (c : Char) : Writing separators c (letterText c) := writing separators c

theorem signs_separators : Signs separators :=
  ⟨by decide, by decide, named_of_all (by decide)⟩

theorem expandRanges_of_single {marked : List (Char × Bool)} (size : Nat)
    (single : ∀ entry ∈ marked, entry ≠ ('-', false)) :
    expandRanges size marked = .ok (marked.map (·.1)) := by
  induction marked with
  | nil => rfl
  | cons entry marked ih =>
    obtain ⟨_, others⟩ := List.forall_mem_cons.mp single
    have step : expandRanges size (entry :: marked) =
        (do return entry.1 :: (← expandRanges size marked)) := by
      obtain ⟨c, flag⟩ := entry
      rw [expandRanges]
      rintro _ _ _ rfl
      exact others _ List.mem_cons_self rfl
    rw [step, ih others]
    rfl

/-! ### Ellipses -/

theorem splitEllipsis_append (cs : List Char) :
    splitEllipsis (cs ++ ['.', '.', '.']) = (cs, true) := by
  unfold splitEllipsis
  rw [List.reverse_append]
  change (cs.reverse.reverse, true) = _
  rw [List.reverse_reverse]

/-- Before a dot of a list of letters stands a backslash. -/
theorem splitEllipsis_flatMap_letterText (cs : List Char) :
    splitEllipsis (cs.flatMap letterText) = (cs.flatMap letterText, false) := by
  unfold splitEllipsis
  split
  · rename_i rest reversed
    exfalso
    rcases List.eq_nil_or_concat cs with rfl | ⟨cs, c, rfl⟩
    · cases reversed
    · rw [List.concat_eq_append, List.flatMap_append, List.flatMap_singleton,
        List.reverse_append] at reversed
      have ways := writing_letterText c
      generalize letterText c = p at ways reversed
      cases ways with
      | escaped => cases (List.cons.inj (List.cons.inj reversed).2).1
      | coded =>
        have digits : ∀ n < 16, Nat.digitChar n ≠ '.' := by decide
        exact digits _ (Nat.mod_lt _ (by decide)) (List.cons.inj reversed).1
      | plain other =>
        have dot : c = '.' := (List.cons.inj reversed).1
        exact other (dot ▸ by decide)
  · rfl

/-! ### Alphabets -/

theorem insert_of_lt (least : ∀ d ∈ cs, c < d) : Letter.insert c cs = c :: cs := by
  cases cs with
  | nil => rfl
  | cons d cs => exact if_pos (least d List.mem_cons_self)

theorem letters_ofLetters (isOpen : Bool) (sorted : cs.Pairwise (· < ·)) :
    (ofLetters isOpen cs).letters = cs ∧ (ofLetters isOpen cs).isOpen = isOpen := by
  induction cs with
  | nil => exact ⟨rfl, rfl⟩
  | cons c cs ih =>
    obtain ⟨least, tail⟩ := List.pairwise_cons.mp sorted
    refine ⟨?_, rfl⟩
    change Letter.insert c (ofLetters isOpen cs).letters = _
    rw [(ih tail).1]
    exact insert_of_lt least

theorem ofLetters_letters (a : Alphabet) : ofLetters a.isOpen a.letters = a := by
  obtain ⟨letters, same⟩ := letters_ofLetters a.isOpen a.sorted
  cases made : ofLetters a.isOpen a.letters with
  | mk letters' isOpen' sorted' =>
    rw [made] at letters same
    obtain ⟨letters'', isOpen'', sorted''⟩ := a
    cases letters
    cases same
    rfl

theorem toList_text (a : Alphabet) :
    a.text.toList = a.letters.flatMap letterText ++ if a.isOpen then ['.', '.', '.'] else [] := by
  unfold text
  rw [String.toList_append, String.toList_ofList]
  split <;> rfl

theorem splitEllipsis_text (a : Alphabet) :
    splitEllipsis a.text.toList = (a.letters.flatMap letterText, a.isOpen) := by
  rw [toList_text]
  cases a.isOpen with
  | true => exact splitEllipsis_append _
  | false =>
    rw [if_neg Bool.false_ne_true, List.append_nil]
    exact splitEllipsis_flatMap_letterText _

theorem read_text (named : ∀ c ∈ a.letters, Named c) : parse a.text.toList = .ok a := by
  obtain ⟨marked, read, letters, plain⟩ := readMarked_flatMap signs_separators writing_letterText
    (String.ofList (a.letters.flatMap letterText)) named
  have single : ∀ entry ∈ marked, entry ≠ ('-', false) := by
    rintro _ member rfl
    exact plain _ member rfl (by decide)
  unfold parse
  rw [splitEllipsis_text]
  dsimp only
  rw [read]
  change (do return ofLetters a.isOpen (← expandRanges _ marked) : Result Alphabet) = _
  rw [expandRanges_of_single _ single, letters]
  exact congrArg Except.ok (ofLetters_letters a)

theorem read_text_of_unnamed (unnamed : ¬ ∀ c ∈ a.letters, Named c) :
    ∃ e, parse a.text.toList = .error e := by
  obtain ⟨reason, refused⟩ := readMarked_of_unnamed signs_separators writing_letterText
    (String.ofList (a.letters.flatMap letterText)) unnamed
  refine ⟨.badLabel (String.ofList (a.letters.flatMap letterText)) reason, ?_⟩
  unfold parse
  rw [splitEllipsis_text]
  dsimp only
  rw [refused]
  rfl

/-! ### Closing signs -/

open Text.Reader (splitUnescaped)

theorem splitUnescaped_escaped (closing : Char) (c : Char) (rest : List Char) :
    splitUnescaped closing ('\\' :: c :: rest) =
      (splitUnescaped closing rest).map fun (body, rest) => ('\\' :: c :: body, rest) := by
  rw [splitUnescaped]

theorem splitUnescaped_plain {closing : Char} (differ : c ≠ closing) (escape : c ≠ '\\') :
    splitUnescaped closing (c :: rest) =
      (splitUnescaped closing rest).map fun (body, rest) => (c :: body, rest) := by
  rw [splitUnescaped, if_neg differ]
  simp [escape]

/-- What comes after the closing sign does not matter. -/
theorem splitUnescaped_append {closing : Char} {body after : List Char} (other : closing ≠ '\\')
    (split : splitUnescaped closing cs = some (body, after)) (rest : List Char) :
    splitUnescaped closing (cs ++ rest) = some (body, after ++ rest) := by
  fun_induction splitUnescaped closing cs generalizing body with
  | case1 => cases split
  | case2 d tail ih =>
    obtain ⟨⟨inner, _⟩, found, same⟩ := Option.map_eq_some_iff.mp split
    cases same
    rw [List.cons_append, List.cons_append, splitUnescaped_escaped, ih found]
    rfl
  | case3 tail =>
    cases split
    rw [List.cons_append, splitUnescaped, if_pos rfl]
    simp [other]
  | case4 d tail single differ ih =>
    have escape : d ≠ '\\' := by
      rintro rfl
      cases tail with
      | nil => cases split
      | cons c tail => exact single c tail rfl rfl
    obtain ⟨⟨inner, _⟩, found, same⟩ := Option.map_eq_some_iff.mp split
    cases same
    rw [List.cons_append, splitUnescaped_plain differ escape, ih found]
    rfl

theorem splitUnescaped_letterText {closing : Char} (separator : closing ∈ separators) (c : Char)
    (cs : List Char) : splitUnescaped closing (letterText c ++ cs) =
      (splitUnescaped closing cs).map fun (body, rest) => (letterText c ++ body, rest) := by
  have ways := writing_letterText c
  generalize letterText c = p at ways ⊢
  cases ways with
  | escaped => exact splitUnescaped_escaped closing c cs
  | coded needed =>
    have byte : c.toNat < 256 := by
      have range := needsCode_iff.mp needed
      omega
    have digits : ∀ n < 256, (Text.hexDigits n).all (· ∉ separators) := by decide +kernel
    have plain (d : Char) (member : d ∈ Text.hexDigits c.toNat) (cs : List Char) :
        splitUnescaped closing (d :: cs) =
          (splitUnescaped closing cs).map fun (body, rest) => (d :: body, rest) := by
      have outside : d ∉ separators :=
        of_decide_eq_true (List.all_eq_true.mp (digits _ byte) d member)
      exact splitUnescaped_plain (fun same => outside (same ▸ separator))
        (fun same => outside (same ▸ by decide))
    change splitUnescaped closing ('\\' :: 'x' :: _ :: _ :: cs) = _
    rw [splitUnescaped_escaped, plain _ List.mem_cons_self,
      plain _ (List.mem_cons_of_mem _ List.mem_cons_self)]
    cases splitUnescaped closing cs <;> rfl
  | plain outside =>
    exact splitUnescaped_plain (fun same : c = closing => outside (same ▸ separator))
      (fun same : c = '\\' => outside (same ▸ by decide))

/-- The text of an alphabet ends where a closing sign stands first. -/
theorem splitUnescaped_text {closing : Char} (separator : closing ∈ separators)
    (other : closing ≠ '\\' ∧ closing ≠ '.') (a : Alphabet) (rest : List Char) :
    splitUnescaped closing (a.text.toList ++ closing :: rest) = some (a.text.toList, rest) := by
  have last : splitUnescaped closing (closing :: rest) = some ([], rest) := by
    rw [splitUnescaped, if_pos rfl]
    simp [other.1]
  have dots : splitUnescaped closing
      ((if a.isOpen then ['.', '.', '.'] else []) ++ closing :: rest) =
        some (if a.isOpen then ['.', '.', '.'] else [], rest) := by
    cases a.isOpen with
    | true =>
      have dot (cs : List Char) : splitUnescaped closing ('.' :: cs) =
          (splitUnescaped closing cs).map fun (body, rest) => ('.' :: body, rest) :=
        splitUnescaped_plain other.2.symm (by decide)
      change splitUnescaped closing ('.' :: '.' :: '.' :: closing :: rest) = _
      rw [dot, dot, dot, last]
      rfl
    | false => exact last
  rw [toList_text, List.append_assoc]
  induction a.letters with
  | nil => exact dots
  | cons c cs ih =>
    rw [List.flatMap_cons, List.append_assoc, List.append_assoc,
      splitUnescaped_letterText separator, ih]
    rfl

/-- Whether the sign stands in the text without a backslash that escapes it. -/
inductive Unescaped (sign : Char) : List Char → Prop
  | here (rest : List Char) : sign ≠ '\\' → Unescaped sign (sign :: rest)
  | escaped (c : Char) {rest : List Char} : Unescaped sign rest → Unescaped sign ('\\' :: c :: rest)
  | plain {c : Char} {rest : List Char} : c ≠ '\\' → Unescaped sign rest →
    Unescaped sign (c :: rest)

theorem exists_split_of_unescaped {closing : Char} (unescaped : Unescaped closing cs) :
    ∃ body rest, splitUnescaped closing cs = some (body, rest) := by
  induction unescaped with
  | here rest other =>
    refine ⟨[], rest, ?_⟩
    rw [splitUnescaped, if_pos rfl]
    simp [other]
  | escaped c _ ih =>
    obtain ⟨body, rest, split⟩ := ih
    exact ⟨'\\' :: c :: body, rest, by rw [splitUnescaped_escaped, split]; rfl⟩
  | @plain c tail escape _ ih =>
    obtain ⟨body, rest, split⟩ := ih
    by_cases same : c = closing
    · refine ⟨[], tail, ?_⟩
      rw [splitUnescaped, if_pos same]
      simp [escape]
    · exact ⟨c :: body, rest, by rw [splitUnescaped_plain same escape, split]; rfl⟩

theorem not_unescaped_text {closing : Char} (separator : closing ∈ separators)
    (other : closing ≠ '\\' ∧ closing ≠ '.') (a : Alphabet) : ¬Unescaped closing a.text.toList := by
  intro unescaped
  obtain ⟨body, rest, split⟩ := exists_split_of_unescaped unescaped
  have early := splitUnescaped_append other.1 split [closing]
  rw [splitUnescaped_text separator other a []] at early
  exact List.append_ne_nil_of_right_ne_nil rest (List.cons_ne_nil closing [])
    (congrArg Prod.snd (Option.some.inj early)).symm

/-- An alphabet is read back from its text, in which each closing parenthesis is escaped. Only the
reserved letters are refused. -/
theorem parse_text_iff (a : Alphabet) :
    (parse a.text.toList = .ok a ↔ ∀ c ∈ a.letters, Named c) ∧ ¬Unescaped ')' a.text.toList := by
  refine ⟨⟨fun read => ?_, read_text⟩, not_unescaped_text (by decide) (by decide) a⟩
  by_contra unnamed
  obtain ⟨e, refused⟩ := read_text_of_unnamed unnamed
  cases refused.symm.trans read

example : (ofLetters true ['x', '\\', ')', '-', '\n', '.']).text =
    "\\x0a\\)\\-\\.\\\\x..." := by decide

end Alphabet

end WeightedAutomata
