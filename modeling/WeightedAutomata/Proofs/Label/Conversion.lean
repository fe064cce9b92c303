import WeightedAutomata.Proofs.Label.Letters

/-!
Labels carried from one set to another: which sets have an image for every label of another set, and
what the image spells. A set that has a label keeps it.
-/

namespace WeightedAutomata

/-- Whether the label is of one tape. -/
def Label.IsSingle : Label → Prop
  | one | letter _ | word _ => True
  | tuple _ | special => False

namespace LabelSet

variable {ls target source : LabelSet} {l l' : Label}

mutual

theorem isOne_one (ls : LabelSet) : ls.one.isOne = true := by
  cases ls with
  | tuple tapes => exact allOne_ones tapes
  | _ => rfl

theorem allOne_ones (tapes : List LabelSet) : Label.allOne (ones tapes) = true := by
  cases tapes with
  | nil => rfl
  | cons ls tapes =>
    rw [ones, Label.allOne, isOne_one ls, allOne_ones tapes]
    rfl

end

theorem check_of_contains (member : ls.contains l = true) : ls.check l = .ok () := if_pos member

theorem contains_of_check (checked : ls.check l = .ok ()) : ls.contains l = true := by
  unfold check at checked
  split at checked
  · assumption
  · cases checked

theorem single_of_contains (single : ls.isTuple = false) (member : ls.contains l = true) :
    l.IsSingle := by
  cases l with
  | one | letter | word => trivial
  | tuple | special => cases ls with
    | tuple => cases single
    | _ => cases member

theorem word_letters (single : ls.isTuple = false) (member : ls.contains l = true) :
    ls.word l.letters = .ok l := by
  cases ls with
  | tuple => cases single
  | letters =>
    cases l with
    | letter => rfl
    | _ => cases member
  | nullable =>
    cases l with
    | one | letter => rfl
    | _ => cases member
  | words =>
    cases l with
    | one => rfl
    | word u =>
      cases u with
      | nil => cases member
      | cons => rfl
    | _ => cases member

theorem convert_special (target source : LabelSet) :
    target.convert source .special = .ok .special := by
  cases target <;> cases source <;> rfl

/-- A label of one tape is written with the labels of the target. -/
theorem convert_single (single : l.IsSingle) : target.convert source l = (do
    let res ← target.word l.letters
    target.check res
    return res) := by
  cases l with
  | tuple | special => cases single
  | _ => cases target <;> cases source <;> rfl

theorem convert_single_eq_ok (single : l.IsSingle) :
    target.convert source l = .ok l' ↔
      target.word l.letters = .ok l' ∧ target.contains l' = true := by
  rw [convert_single single]
  constructor
  · intro converted
    obtain ⟨res, spelled, converted⟩ := Result.bind_eq_ok.mp converted
    obtain ⟨_, checked, done⟩ := Result.bind_eq_ok.mp converted
    cases done
    exact ⟨spelled, contains_of_check checked⟩
  · rintro ⟨spelled, member⟩
    rw [spelled]
    change (do target.check l'; return l' : Result Label) = .ok l'
    rw [check_of_contains member]
    rfl

/-- On one tape it does not matter from which set the label comes. -/
theorem convert_of_contains (single : ls.isTuple = false) (member : ls.contains l = true) :
    ls.convert source l = .ok l :=
  (convert_single_eq_ok (single_of_contains single member)).mpr
    ⟨word_letters single member, member⟩

mutual

theorem convert_self (ls : LabelSet) (l : Label) (member : ls.contains l = true) :
    ls.convert ls l = .ok l := by
  cases ls with
  | tuple tapes =>
    cases l with
    | tuple as =>
      rw [convert, convertEach_self tapes as member]
      change (do (tuple tapes).check (.tuple as); return .tuple as : Result Label) = _
      rw [check_of_contains member]
      rfl
    | _ => cases member
  | _ => exact convert_of_contains rfl member

theorem convertEach_self (tapes : List LabelSet) (as : List Label)
    (member : containsEach tapes as = true) : convertEach tapes tapes as = .ok as := by
  match tapes, as with
  | [], [] => rfl
  | [], _ :: _ => cases member
  | _ :: _, [] => cases member
  | ls :: tapes, l :: as =>
    obtain ⟨first, rest⟩ := containsEach_cons.mp member
    rw [convertEach, convert_self ls l first, convertEach_self tapes as rest]
    rfl

end

/-- Labels that read something stay when the empty word leaves the set. -/
theorem convert_proper (member : ls.contains l = true) (reads : l.isOne = false) :
    ls.proper.convert ls l = .ok l := by
  cases ls with
  | nullable alphabet =>
    cases l with
    | letter c =>
      have kept : (letters alphabet).contains (.letter c) = true := member
      exact convert_of_contains rfl kept
    | one => cases reads
    | word | tuple | special => cases member
  | _ => exact convert_self _ l member

end LabelSet

/-! ### Conversion and embedding -/

namespace Alphabet

variable {a b : Alphabet}

/-- Whether the alphabet is open or lists a letter. -/
def Populated (a : Alphabet) : Prop := a.isOpen = true ∨ a.letters ≠ []

/-- Whether the alphabet is open or leaves a letter out. -/
def Limited (a : Alphabet) : Prop := a.isOpen = true ∨ ∃ c, c ∉ a.letters

theorem Populated.exists_accepted (populated : a.Populated) : ∃ c, a.accepts c = true := by
  rcases populated with isOpen | nonempty
  · exact ⟨default, by rw [accepts, isOpen, Bool.true_or]⟩
  · obtain ⟨c, member⟩ := List.exists_mem_of_ne_nil _ nonempty
    exact ⟨c, by rw [accepts, List.contains_iff_mem.mpr member, Bool.or_true]⟩

theorem accepts_of_isSubset {c : Char} (subset : a.isSubset b = true)
    (accepted : a.accepts c = true) : b.accepts c = true := by
  unfold accepts at accepted ⊢
  unfold isSubset at subset
  rcases Bool.or_eq_true_iff.mp subset with open_ | listed
  · rw [open_, Bool.true_or]
  · obtain ⟨closed, inside⟩ := Bool.and_eq_true_iff.mp listed
    rw [Bool.not_eq_true'] at closed
    rw [closed, Bool.false_or, List.contains_iff_mem] at accepted
    rw [List.all_eq_true.mp inside c accepted, Bool.or_true]

/-- A closed alphabet of all letters would accept those of an open one, of which it is no
superset. -/
theorem isSubset_iff (limited : b.Limited) :
    a.isSubset b = true ↔ ∀ c, a.accepts c = true → b.accepts c = true := by
  refine ⟨fun subset c => accepts_of_isSubset subset, fun accepted => ?_⟩
  cases openB : b.isOpen with
  | true => rw [isSubset, openB, Bool.true_or]
  | false =>
    have listed : ∀ c, a.accepts c = true → c ∈ b.letters := by
      intro c known
      have found := accepted c known
      rw [accepts, openB, Bool.false_or] at found
      exact List.contains_iff_mem.mp found
    have closed : a.isOpen = false := by
      rcases limited with isOpen | ⟨c, missing⟩
      · exact absurd isOpen (openB ▸ Bool.false_ne_true)
      · refine Bool.eq_false_iff.mpr fun openA => missing (listed c ?_)
        rw [accepts, openA, Bool.true_or]
    have inside : a.letters.all b.letters.contains = true := by
      refine List.all_eq_true.mpr fun c member => List.contains_iff_mem.mpr (listed c ?_)
      rw [accepts, List.contains_iff_mem.mpr member, Bool.or_true]
    rw [isSubset, openB, closed, inside]
    rfl

end Alphabet

namespace Label

mutual

/-- Whether `a` spells, tape by tape, what `b` spells on its first tapes; `R` is asked of the
numbers of tapes. -/
def Corresponds (R : Nat → Nat → Prop) : Label → Label → Prop
  | tuple as, tuple bs => R as.length bs.length ∧ CorrespondsEach R as bs
  | tuple _, _ | _, tuple _ => False
  | a, b => a.letters = b.letters

def CorrespondsEach (R : Nat → Nat → Prop) : List Label → List Label → Prop
  | a :: as, b :: bs => a.Corresponds R b ∧ CorrespondsEach R as bs
  | _, _ => True

end

theorem corresponds_of_letters {R : Nat → Nat → Prop} {a b : Label} (left : a.IsSingle)
    (right : b.IsSingle) (same : a.letters = b.letters) : a.Corresponds R b := by
  cases a with
  | tuple | special => cases left
  | _ =>
    cases b with
    | tuple | special => cases right
    | _ => exact same

end Label

namespace LabelSet

variable {ls target source : LabelSet} {l l' : Label} {cs : List Char}

mutual

/-- Whether all alphabets of the set satisfy `P`. -/
def AllAlphabets (P : Alphabet → Prop) : LabelSet → Prop
  | letters a | nullable a | words a => P a
  | tuple tapes => AllAlphabetsEach P tapes

def AllAlphabetsEach (P : Alphabet → Prop) : List LabelSet → Prop
  | [] => True
  | ls :: tapes => ls.AllAlphabets P ∧ AllAlphabetsEach P tapes

end

mutual

/-- Whether `target` spells what the labels of `source` spell, where `source` may have further tapes
behind those of `target`. -/
def Receives : (target source : LabelSet) → Prop
  | letters b, letters a | nullable b, letters a | words b, letters a | nullable b, nullable a
  | words b, nullable a | words b, words a => ∀ c, a.accepts c = true → b.accepts c = true
  | tuple targets, tuple sources => ReceivesEach targets sources
  | _, _ => False

def ReceivesEach : (targets sources : List LabelSet) → Prop
  | [], _ => True
  | target :: targets, source :: sources => target.Receives source ∧ ReceivesEach targets sources
  | _ :: _, [] => False

end

mutual

/-- Whether `target` has as many tapes as `source`, or more, wherever both are of tuples. -/
def Spans : (target source : LabelSet) → Prop
  | tuple targets, tuple sources => SpansEach targets sources
  | _, _ => True

def SpansEach : (targets sources : List LabelSet) → Prop
  | _, [] => True
  | target :: targets, source :: sources => target.Spans source ∧ SpansEach targets sources
  | [], _ :: _ => False

end

/-- What the labels of one tape spell. -/
def Spells : LabelSet → List Char → Prop
  | letters a, cs => ∃ c, cs = [c] ∧ a.accepts c = true
  | nullable a, cs => cs = [] ∨ ∃ c, cs = [c] ∧ a.accepts c = true
  | words a, cs => ∀ c ∈ cs, a.accepts c = true
  | tuple _, _ => False

theorem spells_of_contains (single : ls.isTuple = false) (member : ls.contains l = true) :
    ls.Spells l.letters := by
  cases ls with
  | tuple => cases single
  | letters =>
    cases l with
    | letter c => exact ⟨c, rfl, member⟩
    | _ => cases member
  | nullable =>
    cases l with
    | one => exact .inl rfl
    | letter c => exact .inr ⟨c, rfl, member⟩
    | _ => cases member
  | words =>
    cases l with
    | one => exact fun c absent => nomatch absent
    | word u => exact List.all_eq_true.mp (Bool.and_eq_true_iff.mp member).2
    | _ => cases member

/-- Whatever a set spells has a label in it. -/
theorem word_of_spells (spelled : ls.Spells cs) :
    ∃ l, ls.word cs = .ok l ∧ ls.contains l = true ∧ l.IsSingle ∧ l.letters = cs := by
  cases ls with
  | tuple => cases spelled
  | letters =>
    obtain ⟨c, rfl, accepted⟩ := spelled
    exact ⟨.letter c, rfl, accepted, trivial, rfl⟩
  | nullable =>
    rcases spelled with rfl | ⟨c, rfl, accepted⟩
    · exact ⟨.one, rfl, rfl, trivial, rfl⟩
    · exact ⟨.letter c, rfl, accepted, trivial, rfl⟩
  | words =>
    cases cs with
    | nil => exact ⟨.one, rfl, rfl, trivial, rfl⟩
    | cons c cs => exact ⟨.word (c :: cs), rfl, List.all_eq_true.mpr spelled, trivial, rfl⟩

theorem letters_of_word (spelled : ls.word cs = .ok l) : l.IsSingle ∧ l.letters = cs := by
  unfold word at spelled
  split at spelled
  · cases spelled
  · split at spelled
    · cases spelled
      exact ⟨trivial, rfl⟩
    · cases spelled
  · cases spelled
    exact ⟨trivial, rfl⟩
  · cases spelled
    exact ⟨trivial, rfl⟩
  · cases spelled

theorem spells_of_word (spelled : ls.word cs = .ok l) (member : ls.contains l = true) :
    ls.Spells cs := by
  obtain ⟨_, letters⟩ := letters_of_word spelled
  rw [← letters]
  refine spells_of_contains ?_ member
  cases ls with
  | tuple => cases spelled
  | _ => rfl

variable {targets sources : List LabelSet} {ks ks' : List Label}

theorem convert_tuple_eq_ok :
    (tuple targets).convert (tuple sources) (.tuple ks) = .ok l' ↔
      ∃ ks', convertEach targets sources ks = .ok ks' ∧ containsEach targets ks' = true ∧
        l' = .tuple ks' := by
  rw [convert]
  constructor
  · intro converted
    obtain ⟨ks', each, converted⟩ := Result.bind_eq_ok.mp converted
    obtain ⟨_, checked, done⟩ := Result.bind_eq_ok.mp converted
    cases done
    exact ⟨ks', each, contains_of_check checked, rfl⟩
  · rintro ⟨ks', each, members, rfl⟩
    have member : (tuple targets).contains (.tuple ks') = true := members
    rw [each]
    change (do (tuple targets).check (.tuple ks'); return .tuple ks' : Result Label) = _
    rw [check_of_contains member]
    rfl

theorem convertEach_cons_eq_ok :
    convertEach (target :: targets) (source :: sources) (l :: ks) = .ok ks' ↔
      ∃ l' rest, target.convert source l = .ok l' ∧ convertEach targets sources ks = .ok rest ∧
        ks' = l' :: rest := by
  rw [convertEach]
  constructor
  · intro converted
    obtain ⟨l', first, converted⟩ := Result.bind_eq_ok.mp converted
    obtain ⟨rest, each, done⟩ := Result.bind_eq_ok.mp converted
    cases done
    exact ⟨l', rest, first, each, rfl⟩
  · rintro ⟨l', rest, first, each, rfl⟩
    rw [first, each]
    rfl

/-- The label of a conversion is in the target. -/
theorem contains_of_convert (member : source.contains l = true)
    (converted : target.convert source l = .ok l') : target.contains l' = true := by
  by_cases single : l.IsSingle
  · exact ((convert_single_eq_ok single).mp converted).2
  · cases l with
    | one | letter | word => exact absurd trivial single
    | special => cases source <;> cases member
    | tuple ks =>
      cases source with
      | tuple sources =>
        cases target with
        | tuple targets =>
          obtain ⟨ks', _, contained, rfl⟩ := convert_tuple_eq_ok.mp converted
          exact contained
        | _ => cases converted
      | _ => cases member

/-! The letters of a label stay. -/

mutual

theorem corresponds_of_convert (target source : LabelSet) (l l' : Label)
    (member : source.contains l = true) (converted : target.convert source l = .ok l') :
    l'.Corresponds (· ≤ ·) l ∧ (target.Spans source → l'.Corresponds (· = ·) l) := by
  cases source with
  | tuple sources =>
    cases l with
    | tuple ks =>
      cases target with
      | tuple targets =>
        obtain ⟨ks', each, contained, rfl⟩ := convert_tuple_eq_ok.mp converted
        exact correspondsEach_of_convert targets sources ks ks' member contained each
      | _ => cases converted
    | _ => cases member
  | _ =>
    have single := single_of_contains rfl member
    obtain ⟨spelled, _⟩ := (convert_single_eq_ok single).mp converted
    obtain ⟨single', same⟩ := letters_of_word spelled
    exact ⟨Label.corresponds_of_letters single' single same,
      fun _ => Label.corresponds_of_letters single' single same⟩

theorem correspondsEach_of_convert (targets sources : List LabelSet) (ks ks' : List Label)
    (members : containsEach sources ks = true) (contained : containsEach targets ks' = true)
    (converted : convertEach targets sources ks = .ok ks') :
    (ks'.length ≤ ks.length ∧ Label.CorrespondsEach (· ≤ ·) ks' ks) ∧
    (SpansEach targets sources →
      ks'.length = ks.length ∧ Label.CorrespondsEach (· = ·) ks' ks) := by
  match targets, sources, ks with
  | [], sources, ks =>
    obtain rfl := List.length_eq_zero_iff.mp (length_of_containsEach contained)
    refine ⟨⟨Nat.zero_le _, trivial⟩, fun spans => ⟨?_, trivial⟩⟩
    cases sources with
    | nil => exact (length_of_containsEach members).symm
    | cons => cases spans
  | target :: targets, [], _ | target :: targets, source :: sources, [] =>
    cases converted
    cases contained
  | target :: targets, source :: sources, l :: ks =>
    obtain ⟨l', rest, first, each, rfl⟩ := convertEach_cons_eq_ok.mp converted
    obtain ⟨member, members⟩ := containsEach_cons.mp members
    obtain ⟨_, contained⟩ := containsEach_cons.mp contained
    obtain ⟨leading, whole⟩ := corresponds_of_convert target source l l' member first
    obtain ⟨⟨shorter, leadings⟩, wholes⟩ :=
      correspondsEach_of_convert targets sources ks rest members contained each
    refine ⟨⟨Nat.succ_le_succ shorter, leading, leadings⟩, fun spans => ?_⟩
    obtain ⟨long, spelled⟩ := wholes spans.2
    exact ⟨congrArg (· + 1) long, whole spans.1, spelled⟩

end

/-! What a target receives. -/

theorem spells_of_receives (received : target.Receives source) (spelled : source.Spells cs) :
    target.Spells cs := by
  cases source with
  | tuple => cases spelled
  | letters a =>
    obtain ⟨c, rfl, accepted⟩ := spelled
    cases target with
    | tuple => cases received
    | letters b => exact ⟨c, rfl, received c accepted⟩
    | nullable b => exact .inr ⟨c, rfl, received c accepted⟩
    | words b => exact List.forall_mem_singleton.mpr (received c accepted)
  | nullable a =>
    cases target with
    | letters | tuple => cases received
    | nullable b =>
      exact spelled.imp_right fun ⟨c, same, accepted⟩ => ⟨c, same, received c accepted⟩
    | words b =>
      rcases spelled with rfl | ⟨c, rfl, accepted⟩
      · exact fun c absent => nomatch absent
      · exact List.forall_mem_singleton.mpr (received c accepted)
  | words a =>
    cases target with
    | words b => exact fun c member => received c (spelled c member)
    | _ => cases received

/-- A set of one tape spells the letters that its alphabet accepts. -/
theorem spells_letter_iff {c : Char} : ls.Spells [c] ↔
    ∃ a, (ls = .letters a ∨ ls = .nullable a ∨ ls = .words a) ∧ a.accepts c = true := by
  cases ls with
  | tuple => simp [Spells]
  | letters | nullable | words => simp [Spells]

/-- An alphabet that accepts a letter shows by words of up to two letters which kind a set is of. -/
theorem receives_of_spells (single : source.isTuple = false)
    (populated : source.AllAlphabets Alphabet.Populated)
    (spells : ∀ cs, source.Spells cs → target.Spells cs) : target.Receives source := by
  cases source with
  | tuple => cases single
  | letters a =>
    have spelled (c : Char) (accepted : a.accepts c = true) :=
      spells_letter_iff.mp (spells [c] ⟨c, rfl, accepted⟩)
    cases target with
    | tuple =>
      obtain ⟨c, accepted⟩ := Alphabet.Populated.exists_accepted populated
      simpa using spelled c accepted
    | letters | nullable | words => simpa [Receives] using spelled
  | nullable a =>
    have spelled (c : Char) (accepted : a.accepts c = true) :=
      spells_letter_iff.mp (spells [c] (.inr ⟨c, rfl, accepted⟩))
    have empty : target.Spells [] := spells [] (.inl rfl)
    cases target with
    | tuple => cases empty
    | letters b =>
      obtain ⟨d, same, _⟩ := empty
      cases same
    | nullable | words => simpa [Receives] using spelled
  | words a =>
    obtain ⟨c, accepted⟩ := Alphabet.Populated.exists_accepted populated
    have spelled (c : Char) (accepted : a.accepts c = true) :=
      spells_letter_iff.mp (spells [c] (List.forall_mem_singleton.mpr accepted))
    have empty : target.Spells [] := spells [] (List.forall_mem_nil _)
    have double : target.Spells [c, c] :=
      spells [c, c] (List.forall_mem_cons.mpr ⟨accepted, List.forall_mem_singleton.mpr accepted⟩)
    cases target with
    | tuple => cases empty
    | letters b =>
      obtain ⟨d, same, _⟩ := empty
      cases same
    | nullable b =>
      rcases double with same | ⟨d, same, _⟩ <;> cases same
    | words => simpa [Receives] using spelled

mutual

theorem exists_label (ls : LabelSet) (populated : ls.AllAlphabets Alphabet.Populated) :
    ∃ l, ls.contains l = true := by
  cases ls with
  | tuple tapes =>
    obtain ⟨ks, members⟩ := exists_labels tapes populated
    exact ⟨.tuple ks, members⟩
  | letters a =>
    obtain ⟨c, accepted⟩ := Alphabet.Populated.exists_accepted populated
    exact ⟨.letter c, accepted⟩
  | nullable | words => exact ⟨.one, rfl⟩

theorem exists_labels (tapes : List LabelSet)
    (populated : AllAlphabetsEach Alphabet.Populated tapes) :
    ∃ ks, containsEach tapes ks = true := by
  cases tapes with
  | nil => exact ⟨[], rfl⟩
  | cons ls tapes =>
    obtain ⟨l, member⟩ := exists_label ls populated.1
    obtain ⟨ks, members⟩ := exists_labels tapes populated.2
    exact ⟨l :: ks, containsEach_cons.mpr ⟨member, members⟩⟩

end

mutual

theorem convert_of_receives (target source : LabelSet) (l : Label)
    (received : target.Receives source) (member : source.contains l = true) :
    ∃ l', target.convert source l = .ok l' := by
  cases source with
  | tuple sources =>
    cases target with
    | tuple targets =>
      cases l with
      | tuple ks =>
        obtain ⟨ks', each, members⟩ := convertEach_of_receives targets sources ks received member
        exact ⟨.tuple ks', convert_tuple_eq_ok.mpr ⟨ks', each, members, rfl⟩⟩
      | _ => cases member
    | _ => cases received
  | _ =>
    have single := single_of_contains rfl member
    obtain ⟨l', spelled, contained, _⟩ :=
      word_of_spells (spells_of_receives received (spells_of_contains rfl member))
    exact ⟨l', (convert_single_eq_ok single).mpr ⟨spelled, contained⟩⟩

theorem convertEach_of_receives (targets sources : List LabelSet) (ks : List Label)
    (received : ReceivesEach targets sources) (members : containsEach sources ks = true) :
    ∃ ks', convertEach targets sources ks = .ok ks' ∧ containsEach targets ks' = true := by
  match targets, sources, ks with
  | [], _, _ => exact ⟨[], by rw [convertEach]; nofun, rfl⟩
  | _ :: _, [], _ => cases received
  | _ :: _, _ :: _, [] => cases members
  | target :: targets, source :: sources, l :: ks =>
    obtain ⟨member, members⟩ := containsEach_cons.mp members
    obtain ⟨l', first⟩ := convert_of_receives target source l received.1 member
    obtain ⟨rest, each, contained⟩ :=
      convertEach_of_receives targets sources ks received.2 members
    exact ⟨l' :: rest, convertEach_cons_eq_ok.mpr ⟨l', rest, first, each, rfl⟩,
      containsEach_cons.mpr ⟨contains_of_convert member first, contained⟩⟩

end

mutual

theorem receives_of_convert (target source : LabelSet)
    (populated : source.AllAlphabets Alphabet.Populated)
    (converts : ∀ l, source.contains l = true → ∃ l', target.convert source l = .ok l') :
    target.Receives source := by
  cases source with
  | tuple sources =>
    cases target with
    | tuple targets =>
      refine receivesEach_of_convert targets sources populated fun ks members => ?_
      obtain ⟨l', converted⟩ := converts (.tuple ks) members
      obtain ⟨ks', each, contained, _⟩ := convert_tuple_eq_ok.mp converted
      exact ⟨ks', each, contained⟩
    | _ =>
      obtain ⟨ks, members⟩ := exists_labels sources populated
      obtain ⟨l', converted⟩ := converts (.tuple ks) members
      cases converted
  | _ =>
    refine receives_of_spells rfl populated fun cs spelled => ?_
    obtain ⟨l, _, member, single, rfl⟩ := word_of_spells spelled
    obtain ⟨l', converted⟩ := converts l member
    obtain ⟨written, contained⟩ := (convert_single_eq_ok single).mp converted
    exact spells_of_word written contained

theorem receivesEach_of_convert (targets sources : List LabelSet)
    (populated : AllAlphabetsEach Alphabet.Populated sources)
    (converts : ∀ ks, containsEach sources ks = true →
      ∃ ks', convertEach targets sources ks = .ok ks' ∧ containsEach targets ks' = true) :
    ReceivesEach targets sources := by
  match targets, sources with
  | [], _ => trivial
  | target :: targets, [] =>
    obtain ⟨ks', each, contained⟩ := converts [] rfl
    cases each
    cases contained
  | target :: targets, source :: sources =>
    -- One tape takes all its labels while the others keep theirs.
    obtain ⟨l, member⟩ := exists_label source populated.1
    obtain ⟨ks, members⟩ := exists_labels sources populated.2
    constructor
    · refine receives_of_convert target source populated.1 fun l member => ?_
      obtain ⟨ks', each, _⟩ := converts (l :: ks) (containsEach_cons.mpr ⟨member, members⟩)
      obtain ⟨l', rest, first, _, _⟩ := convertEach_cons_eq_ok.mp each
      exact ⟨l', first⟩
    · refine receivesEach_of_convert targets sources populated.2 fun ks members => ?_
      obtain ⟨ks', converted, contained⟩ :=
        converts (l :: ks) (containsEach_cons.mpr ⟨member, members⟩)
      obtain ⟨l', rest, _, each, rfl⟩ := convertEach_cons_eq_ok.mp converted
      exact ⟨rest, each, (containsEach_cons.mp contained).2⟩

end

mutual

theorem receives_iff_embedsInto (target source : LabelSet) (spans : target.Spans source)
    (limited : target.AllAlphabets Alphabet.Limited) :
    target.Receives source ↔ source.embedsInto target = true := by
  cases source with
  | tuple sources =>
    cases target with
    | tuple targets => exact receivesEach_iff_embedsEach targets sources spans limited
    | _ => exact iff_of_false id Bool.false_ne_true
  | letters =>
    cases target with
    | tuple => exact iff_of_false id Bool.false_ne_true
    | _ => exact (Alphabet.isSubset_iff limited).symm
  | nullable =>
    cases target with
    | letters | tuple => exact iff_of_false id Bool.false_ne_true
    | _ => exact (Alphabet.isSubset_iff limited).symm
  | words =>
    cases target with
    | words => exact (Alphabet.isSubset_iff limited).symm
    | _ => exact iff_of_false id Bool.false_ne_true

theorem receivesEach_iff_embedsEach (targets sources : List LabelSet)
    (spans : SpansEach targets sources)
    (limited : AllAlphabetsEach Alphabet.Limited targets) :
    ReceivesEach targets sources ↔ embedsEach sources targets = true := by
  match targets, sources with
  | [], [] => exact iff_of_true trivial rfl
  | [], _ :: _ => cases spans
  | _ :: _, [] => exact iff_of_false id Bool.false_ne_true
  | target :: targets, source :: sources =>
    rw [ReceivesEach, embedsEach, Bool.and_eq_true,
      receives_iff_embedsInto target source spans.1 limited.1,
      receivesEach_iff_embedsEach targets sources spans.2 limited.2]

end

/-- Every label of the source has an image exactly if the target receives the source, and the image
spells the same letters on the tapes of the target. Tapes of the source behind those of the target
are lost; where there are none, the labels have images exactly if the source embeds. -/
theorem convert_spec (populated : source.AllAlphabets Alphabet.Populated) :
    ((∀ l, source.contains l = true → ∃ l', target.convert source l = .ok l') ↔
      target.Receives source) ∧
    (∀ l l', source.contains l = true → target.convert source l = .ok l' →
      target.contains l' = true ∧ l'.Corresponds (· ≤ ·) l ∧
        (target.Spans source → l'.Corresponds (· = ·) l)) ∧
    (target.Spans source → target.AllAlphabets Alphabet.Limited →
      ((∀ l, source.contains l = true → ∃ l', target.convert source l = .ok l') ↔
        source.embedsInto target = true)) := by
  have converts : (∀ l, source.contains l = true → ∃ l', target.convert source l = .ok l') ↔
      target.Receives source := by
    refine ⟨receives_of_convert target source populated, fun received l member => ?_⟩
    exact convert_of_receives target source l received member
  refine ⟨converts, fun l l' member converted => ?_, fun spans limited => ?_⟩
  · exact ⟨contains_of_convert member converted,
      corresponds_of_convert target source l l' member converted⟩
  · rw [converts]
    exact receives_iff_embedsInto target source spans limited

theorem convert_spec_of_words :
    let source := tuple [letters (.ofLetters false ['a']), nullable (.ofLetters true [])]
    let target := tuple [words (.ofLetters false ['a', 'b']), nullable (.ofLetters true [])]
    source.AllAlphabets Alphabet.Populated ∧ target.Spans source ∧
      target.AllAlphabets Alphabet.Limited ∧ source.embedsInto target = true ∧
      ∀ l, source.contains l = true → ∃ l', target.convert source l = .ok l' := by
  intro source target
  have populated : source.AllAlphabets Alphabet.Populated :=
    ⟨.inr (List.cons_ne_nil _ _), .inl rfl, trivial⟩
  have spans : target.Spans source := ⟨trivial, trivial, trivial⟩
  have limited : target.AllAlphabets Alphabet.Limited :=
    ⟨.inr ⟨'c', by decide⟩, .inl rfl, trivial⟩
  have embedded : source.embedsInto target = true := by decide
  exact ⟨populated, spans, limited, embedded,
    ((convert_spec populated).2.2 spans limited).mpr embedded⟩

/-- A pair of letters is converted to its first letter, though pairs do not embed. -/
theorem convert_of_further_tape :
    let source := tuple [letters (.ofLetters false ['a']), letters (.ofLetters false ['x'])]
    let target := tuple [letters (.ofLetters false ['a'])]
    source.embedsInto target = false ∧
      (∀ l, source.contains l = true → ∃ l', target.convert source l = .ok l') ∧
      target.convert source (.tuple [.letter 'a', .letter 'x']) = .ok (.tuple [.letter 'a']) := by
  intro source target
  have received : target.Receives source := ⟨fun _ accepted => accepted, trivial⟩
  exact ⟨by decide, fun l member => convert_of_receives target source l received member, rfl⟩

end LabelSet
end WeightedAutomata
