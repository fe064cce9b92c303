import WeightedAutomata.Polynomial.Parser
import WeightedAutomata.Proofs.Label.Text
import WeightedAutomata.Proofs.Polynomial.Value
import WeightedAutomata.Proofs.Weights.Spelling

/-! The text of a polynomial is read back as the polynomial. -/

set_option linter.unusedSectionVars false

namespace WeightedAutomata

open Letter (Glyph Barred)
open Text (Whole Edged)
open Weights (brackets Legible)

namespace Polynomial

variable {t u w : List Char} {ts : List (List Char)} {c : Char}

/-! ### Plus signs -/

theorem splitMonomials_cons {depth : Nat} (plain : c ∉ brackets) (inside : c = '+' → depth ≠ 0)
    (rest : List Char) :
    splitMonomials (c :: rest) depth = consFirst c (splitMonomials rest depth) := by
  have differ (d : Char) (bracket : d ∈ brackets) : c ≠ d := fun same => plain (same ▸ bracket)
  rw [splitMonomials]
  · rw [if_neg (not_or_intro (differ _ (by decide)) (differ _ (by decide))),
      if_neg (not_or_intro (differ _ (by decide)) (differ _ (by decide))),
      if_neg fun both => inside both.1 both.2]
  · simp [differ '\\' (by decide)]

theorem whole_singleton (plain : c ∉ brackets) (other : c ≠ '+') :
    Whole (splitMonomials · 0) [c] := by
  intro rest first others same
  change splitMonomials rest 0 = _ at same
  change splitMonomials (c :: rest) 0 = _
  rw [splitMonomials_cons plain fun plus => absurd plus other, same]
  rfl

theorem whole_escaped (c : Char) : Whole (splitMonomials · 0) ['\\', c] := by
  intro rest first others same
  change splitMonomials rest 0 = _ at same
  change splitMonomials ('\\' :: c :: rest) 0 = _
  rw [splitMonomials, same]
  rfl

/-- The plus signs of a label stand after backslashes. -/
theorem whole_barred (barred : Barred t) (plain : ∀ c ∈ t, c ≠ '⟨' ∧ c ≠ '⟩') :
    Whole (splitMonomials · 0) t := by
  obtain ⟨ps, rfl, -, glyphs⟩ := barred
  refine Text.whole_flatten fun p listed => ?_
  rcases glyphs p listed with glyph | rfl
  · cases glyph with
    | escaped => exact whole_escaped _
    | @plain c _ other =>
      have here := plain c (List.mem_flatten.mpr ⟨[c], listed, List.mem_singleton_self c⟩)
      have differ (d : Char) (operator : d ∈ Letter.operators) : c ≠ d :=
        fun same => other (same ▸ operator)
      refine whole_singleton ?_ (differ _ (by decide))
      simp [brackets, here, differ '<' (by decide), differ '>' (by decide), differ '\\' (by decide)]
  · exact whole_singleton (by decide) (by decide)

/-- The brackets around the weights of a style. -/
def opening : Style → Char
  | .ascii => '<'
  | .symbols => '⟨'

def closing : Style → Char
  | .ascii => '>'
  | .symbols => '⟩'

/-- Plus signs inside a weight do not count. -/
theorem whole_weight (style : Style) (plain : ∀ c ∈ w, c ∉ brackets) :
    Whole (splitMonomials · 0) (opening style :: (w ++ [closing style])) := by
  intro rest first others same
  change splitMonomials rest 0 = _ at same
  have inside : splitMonomials (w ++ closing style :: rest) 1 =
      (w ++ closing style :: first) :: others := by
    induction w with
    | nil =>
      change splitMonomials (closing style :: rest) 1 = _
      cases style <;> simp [closing, splitMonomials, same, consFirst]
    | cons c w ih =>
      obtain ⟨first, others⟩ := List.forall_mem_cons.mp plain
      rw [List.cons_append, splitMonomials_cons first (by simp), ih others]
      rfl
  have bracket (rest : List Char) : splitMonomials (opening style :: rest) 0 =
      consFirst (opening style) (splitMonomials rest 1) := by
    cases style <;> simp [opening, splitMonomials]
  have text : opening style :: (w ++ [closing style]) ++ rest =
      opening style :: (w ++ closing style :: rest) := by simp
  rw [text]
  change splitMonomials _ 0 = _
  rw [bracket, inside]
  simp [consFirst]

/-- The pieces of a sum between its plus signs, with the blanks around them. -/
def pieces : List Char → List (List Char) → List (List Char)
  | t, [] => [t]
  | t, u :: us => (t ++ [' ']) :: pieces (' ' :: u) us

theorem splitMonomials_joined (first : Whole (splitMonomials · 0) t)
    (others : ∀ u ∈ ts, Whole (splitMonomials · 0) u) :
    splitMonomials (t ++ ts.flatMap fun u => " + ".toList ++ u) 0 = pieces t ts := by
  induction ts generalizing t with
  | nil =>
    have alone : splitMonomials (t ++ []) 0 = [t ++ []] := first [] [] [] rfl
    rw [List.append_nil] at alone
    rwa [List.flatMap_nil, List.append_nil]
  | cons u ts ih =>
    obtain ⟨second, rest⟩ := List.forall_mem_cons.mp others
    have blank : Whole (splitMonomials · 0) [' '] := whole_singleton (by decide) (by decide)
    have later := ih (blank.append second) rest
    have plus : splitMonomials ('+' :: (' ' :: u ++ ts.flatMap fun u => " + ".toList ++ u)) 0 =
        [] :: pieces (' ' :: u) ts := by
      rw [splitMonomials, if_neg (by decide), if_neg (by decide), if_pos ⟨rfl, rfl⟩]
      · exact congrArg _ later
      · simp
    have joined := (first.append blank) _ _ _ plus
    rw [List.flatMap_cons]
    simpa [pieces] using joined

/-! ### Labels of terms -/

section

variable {ls : LabelSet} {l : Label} {labels : List Label} {style : Style}

/-- The label of a term. The empty word has a sign of its own among the symbols. -/
def labelText (style : Style) (l : Label) : List Char :=
  (match style, l with
    | .symbols, .one => "ε"
    | _, l => l.text).toList

theorem labelText_cases (style : Style) (l : Label) :
    l = .one ∧ labelText style l = ['ε'] ∨ labelText style l = l.text.toList := by
  cases style with
  | ascii => exact .inr rfl
  | symbols =>
    cases l with
    | one => exact .inl ⟨rfl, rfl⟩
    | letter | word | tuple | special => exact .inr rfl

theorem barred_labelText (shallow : ls.Shallow) (member : ls.contains l = true)
    (visible : l.Visible) : Barred (labelText style l) := by
  rcases labelText_cases style l with ⟨rfl, same⟩ | same <;> rw [same]
  · have glyph : Glyph ['ε'] := .plain (by decide) (by decide)
    exact ⟨[['ε']], rfl, by simp, List.forall_mem_singleton.mpr (.inl glyph)⟩
  · exact LabelSet.barred_text shallow member visible

/-- No brackets of symbols and no sign for the sum without terms stand in the label. -/
theorem plain_labelText (shallow : ls.Shallow) (member : ls.contains l = true)
    (visible : l.Visible) : ∀ c ∈ labelText style l, c ≠ '⟨' ∧ c ≠ '⟩' ∧ c ≠ '∅' := by
  intro c inside
  rcases labelText_cases style l with ⟨rfl, same⟩ | same <;> rw [same] at inside
  · rw [List.mem_singleton.mp inside]
    decide
  · have ascii : c.toNat ≤ 0x7e := (LabelSet.visible_label shallow member visible c inside).2
    refine ⟨?_, ?_, ?_⟩ <;> rintro rfl <;> exact absurd ascii (by decide)

/-- No label is written like the sum without terms. -/
theorem text_ne_zeroText (shallow : ls.Shallow) (member : ls.contains l = true)
    (visible : l.Visible) : l.text.toList ≠ ['\\', 'z'] := by
  have onTape {ls : LabelSet} {l : Label} (single : ls.isTuple = false)
      (member : ls.contains l = true) (visible : l.Visible) : l.text.toList ≠ ['\\', 'z'] := by
    rcases LabelSet.text_cases single member with rfl | ⟨-, text, -⟩
    · decide
    · have read := Letter.unescape_flatMap_escape fun c inside =>
        (LabelSet.visible_letters visible c inside).named
      intro same
      rw [text] at same
      rw [same] at read
      rw [← Except.ok.inj read] at same
      exact absurd same (by decide)
  cases ls with
  | tuple tapes =>
    obtain ⟨labels, rfl, each⟩ := LabelSet.tuple_of_contains member
    obtain ⟨nonempty, single⟩ := shallow
    obtain ⟨l, labels, rfl⟩ :=
      List.exists_cons_of_ne_nil (LabelSet.ne_nil_of_containsEach nonempty each)
    cases labels with
    | nil =>
      obtain ⟨tape, alone, here⟩ :=
        LabelSet.exists_tape_of_mem single each (List.mem_singleton_self l)
      change l.text.toList ≠ _
      exact onTape alone here visible.1
    | cons m labels =>
      intro same
      have bar : '|' ∈ ['\\', 'z'] := by
        rw [← same, Label.text, Label.toList_tapesText_cons]
        exact List.mem_append_right _ List.mem_cons_self
      exact absurd bar (by decide)
  | letters | nullable | words => exact onTape rfl member visible

/-! ### Terms -/

variable {K : Type} [Weights K] [Weights.Lawful K] [Legible K] {x : K} {p : Polynomial K}

/-- The label of a term stands alone, or after a weight in brackets. -/
theorem termText_cases (style : Style) (l : Label) (x : K) :
    x = Weights.one ∧ (termText style l x).toList = labelText style l ∨
      (termText style l x).toList = opening style :: ((Weights.format style x).toList ++
        closing style :: labelText style l) := by
  unfold termText
  dsimp only
  by_cases one : Weights.isOne x = true
  · rw [if_pos one]
    exact .inl ⟨Weights.isOne_iff.mp one, rfl⟩
  · rw [if_neg one]
    refine .inr ?_
    cases style with
    | ascii => simp [labelText, opening, closing]
    | symbols => cases l <;> simp [labelText, opening, closing]

theorem splitWeight_append {first last : Char} (plain : ∀ c ∈ w, c ≠ first ∧ c ≠ last)
    (rest : List Char) : splitWeight first last (w ++ last :: rest) 0 = some (w, rest) := by
  induction w with
  | nil => rw [List.nil_append, splitWeight, if_pos ⟨rfl, rfl⟩]
  | cons c w ih =>
    obtain ⟨here, others⟩ := List.forall_mem_cons.mp plain
    rw [List.cons_append, splitWeight, if_neg fun both => here.2 both.1]
    dsimp only
    rw [if_neg here.1, if_neg here.2, ih others]
    rfl

theorem parseLabel_congr {cs ds : List Char} (same : Text.trim cs = Text.trim ds) :
    ls.parseLabel cs = ls.parseLabel ds := by
  cases ls with
  | tuple =>
    unfold LabelSet.parseLabel
    rw [same]
  | letters | nullable | words =>
    rw [LabelSet.parseLabel_of_single rfl, LabelSet.parseLabel_of_single rfl]
    unfold LabelSet.parseLetters
    rw [same]

theorem parseLabel_labelText (shallow : ls.Shallow) (member : ls.contains l = true)
    (visible : l.Visible) : ls.parseLabel (labelText style l) = .ok l := by
  have read := LabelSet.parseLabel_text shallow member visible
  rcases labelText_cases style l with ⟨rfl, same⟩ | same <;> rw [same]
  · -- The two signs for the empty word are read alike.
    cases ls with
    | tuple | letters => cases member
    | nullable | words => exact read
  · exact read

/-- A text that is read as a term, with blanks around it. -/
def Reads (ls : LabelSet) (t : List Char) (term : Label × K) : Prop :=
  ∀ front back : List Char, (∀ c ∈ front, Text.isBlank c = true) →
    (∀ c ∈ back, Text.isBlank c = true) → parseMonomial ls (front ++ (t ++ back)) = .ok term

theorem parseWeighted_append {first last : Char} (offset : Nat)
    (plain : ∀ c ∈ w, c ≠ first ∧ c ≠ last) (weight : Weights.parse w = .ok x) (edged : Edged t)
    (label : ls.parseLabel t = .ok l) (after : ∀ c ∈ u, Text.isBlank c = true) :
    parseWeighted ls first last offset (w ++ last :: (t ++ u)) = .ok (l, x) := by
  unfold parseWeighted
  rw [splitWeight_append plain]
  dsimp only
  rw [weight, edged.trim_append after]
  change (do
    let l ← if t.isEmpty then ls.word [] else ls.parseLabel t
    return (l, x) : Result (Label × K)) = _
  rw [if_neg (by simpa using edged.nonempty), label]
  rfl

theorem edged_labelText (shallow : ls.Shallow) (member : ls.contains l = true)
    (visible : l.Visible) : Edged (labelText style l) := by
  have barred : Barred (labelText style l) := barred_labelText shallow member visible
  exact Text.edged_of_solid barred.ne_nil barred.not_blank

theorem edged_termText (shallow : ls.Shallow) (member : ls.contains l = true)
    (visible : l.Visible) : Edged (termText style l x).toList := by
  have edged : Edged (labelText style l) := edged_labelText shallow member visible
  rcases termText_cases style l x with ⟨_, same⟩ | same <;> rw [same]
  · exact edged
  · have bracket : Edged [opening style] := by
      refine Text.edged_of_solid (List.cons_ne_nil _ _) (List.forall_mem_singleton.mpr ?_)
      cases style <;> rfl
    have around := bracket.around edged ((Weights.format style x).toList ++ [closing style])
    rwa [List.append_assoc, List.singleton_append, List.singleton_append] at around

theorem reads_termText (shallow : ls.Shallow) (member : ls.contains l = true)
    (visible : l.Visible) (writable : Legible.Writable x) :
    Reads ls (termText style l x).toList (l, x) := by
  intro front back before after
  have barred : Barred (labelText style l) := barred_labelText shallow member visible
  have edged : Edged (labelText style l) := edged_labelText shallow member visible
  have read : ls.parseLabel (labelText style l) = .ok l :=
    parseLabel_labelText shallow member visible
  have skip : Text.skipBlanks (front ++ ((termText style l x).toList ++ back)) = _ :=
    (edged_termText shallow member visible).skipBlanks_append before back
  unfold parseMonomial
  rw [skip]
  rcases termText_cases style l x with ⟨rfl, same⟩ | same <;> rw [same]
  · dsimp only
    have label : ls.parseLabel (labelText style l ++ back) = .ok l :=
      (parseLabel_congr ((edged.trim_append after).trans edged.trim.symm)).trans read
    obtain ⟨c, cs, text⟩ := List.exists_cons_of_ne_nil edged.nonempty
    have first : (labelText style l).head? = some c := by
      rw [text]
      rfl
    have letter : c ≠ '<' := by
      rintro rfl
      exact barred.head?_ne (by decide) (by decide) first
    have ascii : c ≠ '⟨' :=
      (plain_labelText shallow member visible c (text ▸ List.mem_cons_self)).1
    rw [text, List.cons_append] at label ⊢
    split
    · next same => exact absurd (List.cons.inj same).1 letter
    · next same => exact absurd (List.cons.inj same).1 ascii
    · rw [label]
      rfl
  · have plain : ∀ c ∈ (Weights.format style x).toList, c ≠ opening style ∧ c ≠ closing style := by
      intro c inside
      have other := Legible.not_bracket style writable inside
      refine ⟨?_, ?_⟩ <;> rintro rfl <;> exact other (by cases style <;> decide)
    have weighted (offset : Nat) := parseWeighted_append offset plain
      (Legible.reads style writable) edged read after
    rw [List.cons_append, List.append_assoc, List.cons_append]
    cases style <;> exact weighted _

theorem whole_termText (shallow : ls.Shallow) (member : ls.contains l = true)
    (visible : l.Visible) (writable : Legible.Writable x) :
    Whole (splitMonomials · 0) (termText style l x).toList := by
  have label : Whole (splitMonomials · 0) (labelText style l) :=
    whole_barred (barred_labelText shallow member visible) fun c inside =>
      have plain := plain_labelText shallow member visible c inside
      ⟨plain.1, plain.2.1⟩
  rcases termText_cases style l x with ⟨_, same⟩ | same <;> rw [same]
  · exact label
  · have weight := whole_weight style fun c inside => Legible.not_bracket style writable inside
    have joined := weight.append label
    rwa [List.cons_append, List.append_assoc, List.singleton_append] at joined

/-- No term is written like the sum without terms. -/
theorem termText_ne_zeroText (style : Style) (x : K) (shallow : ls.Shallow)
    (member : ls.contains l = true) (visible : l.Visible) :
    (termText style l x).toList ≠ ['\\', 'z'] ∧
      (termText style l x).toList.head? ≠ some '∅' := by
  rcases termText_cases style l x with ⟨_, same⟩ | same <;> rw [same]
  · refine ⟨?_, fun empty => ?_⟩
    · rcases labelText_cases style l with ⟨_, same⟩ | same <;> rw [same]
      · decide
      · exact text_ne_zeroText shallow member visible
    · have plain := plain_labelText shallow member visible '∅' (List.mem_of_mem_head? empty)
      exact plain.2.2 rfl
  · refine ⟨fun zero => ?_, fun empty => ?_⟩
    · exact absurd (List.cons.inj zero).1 (by cases style <;> decide)
    · exact absurd (Option.some.inj empty) (by cases style <;> decide)

/-! ### Sums -/

/-- A term that comes after all others is put at the end. -/
theorem addTerm_append (below : ∀ term ∈ p.terms, compare term.1 l = .lt)
    (nonzero : Weights.isZero x = false) : p.addTerm l x = ⟨p.terms ++ [(l, x)]⟩ := by
  obtain ⟨terms⟩ := p
  have kept : plus x none = some x := by
    unfold plus
    dsimp only
    rw [nonzero, if_neg Bool.false_ne_true]
  unfold addTerm
  rw [nonzero, if_neg Bool.false_ne_true]
  congr 1
  induction terms with
  | nil =>
    rw [Terms.update, kept]
    rfl
  | cons term terms ih =>
    obtain ⟨first, others⟩ := List.forall_mem_cons.mp below
    have greater : compare l term.1 = .gt := Std.OrientedCmp.gt_of_lt first
    rw [Terms.update, greater]
    exact congrArg (term :: ·) (ih others)

theorem addTerms_of_sorted {terms : Terms Label K} (sorted : Terms.Sorted (p.terms ++ terms))
    (nonzero : ∀ term ∈ terms, Weights.isZero term.2 = false) :
    p.addTerms terms = ⟨p.terms ++ terms⟩ := by
  induction terms generalizing p with
  | nil => rw [List.append_nil]; rfl
  | cons term terms ih =>
    obtain ⟨first, others⟩ := List.forall_mem_cons.mp nonzero
    have below := (List.pairwise_append.mp sorted).2.2
    have step : p.addTerm term.1 term.2 = ⟨p.terms ++ [term]⟩ :=
      addTerm_append (fun t inside => below t inside term List.mem_cons_self) first
    change (p.addTerm term.1 term.2).addTerms terms = _
    rw [step, ih (by simpa using sorted) others, List.append_assoc]
    rfl

/-- The pieces of a sum are read one after the other. -/
theorem parseParts_pieces {term : Label × K} {terms : Terms Label K}
    {text : Label × K → List Char} (reads : ∀ t ∈ term :: terms, Reads ls (text t) t)
    (front : List Char) (before : ∀ c ∈ front, Text.isBlank c = true) (start : Nat) :
    parseParts ls (pieces (front ++ text term) (terms.map text)) start p =
      .ok (p.addTerms (term :: terms)) := by
  induction terms generalizing term front start p with
  | nil =>
    have read := reads term List.mem_cons_self front [] before nofun
    rw [List.append_nil] at read
    rw [List.map_nil, pieces, parseParts, read]
    rfl
  | cons next terms ih =>
    obtain ⟨first, others⟩ := List.forall_mem_cons.mp reads
    have blank : ∀ c ∈ [' '], Text.isBlank c = true := List.forall_mem_singleton.mpr rfl
    have read := first front [' '] before blank
    rw [← List.append_assoc] at read
    rw [List.map_cons, pieces, parseParts, read]
    exact ih others [' '] blank _

/-- The terms with plus signs between them are not the sign for the sum without terms. -/
theorem joined_ne_zeroText (zero : t ≠ ['\\', 'z']) (empty : t.head? ≠ some '∅')
    (nonempty : t ≠ []) :
    ¬(t ++ ts.flatMap (fun u => " + ".toList ++ u) = ['\\', 'z'] ∨
      t ++ ts.flatMap (fun u => " + ".toList ++ u) = ['∅']) := by
  rintro (same | same)
  · cases ts with
    | nil =>
      rw [List.flatMap_nil, List.append_nil] at same
      exact zero same
    | cons u ts =>
      have blank : ' ' ∈ t ++ (u :: ts).flatMap fun u => " + ".toList ++ u := by simp
      rw [same] at blank
      exact absurd blank (by decide)
  · have first : t.head? = some '∅' := by
      rw [← List.head?_append_of_ne_nil t nonempty, same]
      rfl
    exact empty first

theorem toList_format (style : Style) (term : Label × K) (terms : Terms Label K) :
    (format style ⟨term :: terms⟩).toList = (termText style term.1 term.2).toList ++
      (terms.map fun t => (termText style t.1 t.2).toList).flatMap fun u => " + ".toList ++ u := by
  unfold format
  rw [if_neg (by simp [isZero]), String.toList_intercalate, List.map_map]
  exact Text.intercalate_cons _ _ _

theorem parse_zeroText (style : Style) :
    parse ls (zeroText style).toList = .ok (zero : Polynomial K) := by
  have sign : Text.trim (zeroText style).toList = ['\\', 'z'] ∨
      Text.trim (zeroText style).toList = ['∅'] := by
    cases style with
    | ascii => exact .inl (by decide)
    | symbols => exact .inr (by decide)
  unfold parse
  dsimp only
  rw [if_pos sign]

/-- The text of a polynomial is read back as the polynomial. The weights that are not zero are all
writable, but for tropical ones beyond 64 bits. -/
theorem read_format (shallow : ls.Shallow) (within : p.Over ls)
    (visible : ∀ term ∈ p.terms, term.1.Visible)
    (writable : ∀ term ∈ p.terms, Legible.Writable term.2) (style : Style) :
    parse ls (p.format style).toList = .ok p := by
  obtain ⟨_ | ⟨term, terms⟩⟩ := p
  · exact parse_zeroText style
  let text (t : Label × K) := (termText style t.1 t.2).toList
  have edged (t : Label × K) (listed : t ∈ term :: terms) : Edged (text t) :=
    edged_termText shallow (within.labelled t listed) (visible t listed)
  have whole (t : Label × K) (listed : t ∈ term :: terms) : Whole (splitMonomials · 0) (text t) :=
    whole_termText shallow (within.labelled t listed) (visible t listed) (writable t listed)
  have reads (t : Label × K) (listed : t ∈ term :: terms) : Reads ls (text t) t :=
    reads_termText shallow (within.labelled t listed) (visible t listed) (writable t listed)
  obtain ⟨first, others⟩ := List.forall_mem_cons.mp edged
  obtain ⟨notZero, notEmpty⟩ := termText_ne_zeroText style term.2 shallow
    (within.labelled term List.mem_cons_self) (visible term List.mem_cons_self)
  have joined : Edged (text term ++ (terms.map text).flatMap fun u => " + ".toList ++ u) :=
    Text.edged_joined _ first (List.forall_mem_map.mpr others)
  have split : splitMonomials
      (text term ++ (terms.map text).flatMap fun u => " + ".toList ++ u) 0 =
        pieces (text term) (terms.map text) := by
    obtain ⟨first, others⟩ := List.forall_mem_cons.mp whole
    exact splitMonomials_joined first (List.forall_mem_map.mpr others)
  have read : parseParts ls (pieces (text term) (terms.map text)) 0 zero =
      .ok (zero.addTerms (term :: terms)) := parseParts_pieces reads [] nofun 0
  rw [toList_format]
  unfold parse
  dsimp only
  rw [joined.trim, if_neg (joined_ne_zeroText notZero notEmpty first.nonempty), split, read,
    addTerms_of_sorted within.sorted within.nonzero]
  rfl

/-- The signs of sums, weights and tapes are letters here. -/
theorem read_format_of_operators :
    let ls : LabelSet :=
      .tuple [.words (.ofLetters true []), .nullable (.ofLetters false ['+', '|'])]
    let p : Polynomial (Tropical .max) :=
      ⟨[(.tuple [.one, .letter '+'], .finite (-3)), (.tuple [.word ['<', '|'], .one], .finite 0)]⟩
    p.format .symbols = "⟨-3⟩\\e|\\+ + \\<\\||\\e" ∧
      parse ls (p.format .symbols).toList = .ok p := by
  intro ls p
  refine ⟨by decide, ?_⟩
  have shallow : ls.Shallow := ⟨by decide, by decide⟩
  have within : p.Over ls := by decide
  have visible : ∀ term ∈ p.terms, term.1.Visible := by
    simp [p, Label.Visible, Label.AllVisible, Letter.Visible]
  have writable : ∀ term ∈ p.terms, Legible.Writable term.2 := by
    refine List.forall_mem_cons.mpr ⟨?_, List.forall_mem_singleton.mpr ?_⟩
    · exact ⟨by decide, by decide⟩
    · exact ⟨by decide, by decide⟩
  exact read_format shallow within visible writable .symbols

end

end Polynomial

end WeightedAutomata
