import WeightedAutomata.Context.Descriptor
import WeightedAutomata.Proofs.Letter.Alphabet
import WeightedAutomata.Proofs.Text.Reading
import WeightedAutomata.Proofs.Weights.Laws
import WeightedAutomata.Proofs.Weights.Spelling

/-! The descriptor of a context is read back as the context. -/

namespace WeightedAutomata

namespace Text.Reader

variable {α β : Type} {x : Reader α} {f : α → Reader β} {cs mid rest : List Char} {v : α} {w : β}

/-- From anywhere, the reader takes the text `cs` up to `rest` and makes `v` of it. -/
def Takes (x : Reader α) (cs rest : List Char) (v : α) : Prop :=
  ∀ pos, ∃ stop, x ⟨pos, cs⟩ = .ok v ⟨stop, rest⟩

theorem Takes.bind (first : Takes x cs mid v) (next : Takes (f v) mid rest w) :
    Takes (x >>= f) cs rest w := by
  intro pos
  obtain ⟨stop, read⟩ := first pos
  rw [bind_ok read]
  exact next stop

theorem takes_pure : Takes (pure v) rest rest v := fun pos => ⟨pos, rfl⟩

theorem takes_get {g : Cursor → Reader β} (next : ∀ pos, Takes (g ⟨pos, cs⟩) cs rest w) :
    Takes (get >>= g) cs rest w :=
  fun pos => next pos pos

/-- From anywhere, the reader fails on the text `cs`. -/
def Refuses (x : Reader α) (cs : List Char) : Prop := ∀ pos, ∃ e stop, x ⟨pos, cs⟩ = .error e stop

theorem Refuses.bind (refuses : Refuses x cs) : Refuses (x >>= f) cs := by
  intro pos
  obtain ⟨e, stop, refused⟩ := refuses pos
  exact ⟨e, stop, bind_error refused⟩

theorem Takes.refuses (first : Takes x cs mid v) (next : Refuses (f v) mid) :
    Refuses (x >>= f) cs := by
  intro pos
  obtain ⟨stop, read⟩ := first pos
  rw [bind_ok read]
  exact next stop

theorem takes_skipBlanks (solid : Solid cs) : Takes skipBlanks cs cs () :=
  fun pos => ⟨pos, skipBlanks_of_solid solid pos⟩

end Text.Reader

mutual

/-- Whether all letters that are listed satisfy `P`, and no tuple is empty. -/
def LabelSet.Lists (P : Char → Prop) : LabelSet → Prop
  | .letters a | .nullable a | .words a => ∀ c ∈ a.letters, P c
  | .tuple tapes => tapes ≠ [] ∧ ListsEach P tapes

def LabelSet.ListsEach (P : Char → Prop) : List LabelSet → Prop
  | [] => True
  | tape :: tapes => tape.Lists P ∧ ListsEach P tapes

end

namespace LabelSet

variable {P Q : Char → Prop}

mutual

theorem Lists.imp (implies : ∀ c, P c → Q c) (ls : LabelSet) (lists : ls.Lists P) : ls.Lists Q := by
  cases ls with
  | letters | nullable | words => exact fun c member => implies c (lists c member)
  | tuple tapes => exact ⟨lists.1, ListsEach.imp implies tapes lists.2⟩

theorem ListsEach.imp (implies : ∀ c, P c → Q c) (tapes : List LabelSet)
    (lists : ListsEach P tapes) : ListsEach Q tapes := by
  cases tapes with
  | nil => trivial
  | cons tape tapes => exact ⟨Lists.imp implies tape lists.1, ListsEach.imp implies tapes lists.2⟩

end

end LabelSet

namespace Context.Descriptor

open Text Text.Reader

variable {d : Descriptor} {cs rest : List Char} {fuel : Nat}

/-! ### Signs and names -/

theorem takes_advance {n : Nat} (long : cs.length = n) : Takes (advance n) (cs ++ rest) rest () := by
  intro pos
  refine ⟨pos + n, ?_⟩
  change EStateM.Result.ok () (Cursor.advance ⟨pos, cs ++ rest⟩ n) = _
  rw [Cursor.advance, ← long, List.drop_left]

theorem takes_takeHere (sign : String) : Takes (takeHere sign) (sign.toList ++ rest) rest true := by
  refine takes_get fun pos => ?_
  have present : sign.toList.isPrefixOf (sign.toList ++ rest) = true :=
    List.isPrefixOf_iff_prefix.mpr (List.prefix_append _ _)
  dsimp only
  rw [if_pos present]
  exact (takes_advance String.length_toList).bind takes_pure

/-- Whether a text starts with a character that is no blank. -/
def starts (t : List Char) : Bool := t.head?.any fun c => !isBlank c

theorem solid_append {t : List Char} (first : starts t = true) (rest : List Char) :
    Solid (t ++ rest) := by
  cases t with
  | nil => cases first
  | cons c t =>
    rintro _ ⟨⟩
    simpa [starts] using first

theorem takes_take {sign : String} (first : starts sign.toList = true) :
    Takes (take sign) (sign.toList ++ rest) rest true :=
  (takes_skipBlanks (solid_append first rest)).bind (takes_takeHere sign)

theorem takes_take_absent {sign : String} (solid : Solid cs)
    (absent : sign.toList.isPrefixOf cs = false) : Takes (take sign) cs cs false := by
  refine (takes_skipBlanks solid).bind (takes_get fun pos => ?_)
  dsimp only
  rw [if_neg (by simp [absent])]
  exact takes_pure

theorem takes_require {sign : String} (first : starts sign.toList = true) :
    Takes (d.require sign) (sign.toList ++ rest) rest () :=
  (takes_take first).bind takes_pure

/-- Whether no name goes on. -/
def EndsName (cs : List Char) : Prop := ∀ c ∈ cs.head?, isNameChar c = false

theorem takes_name {n : List Char} (first : starts n = true) (named : n.all isNameChar = true)
    (ends : EndsName rest) : Takes name (n ++ rest) rest n := by
  have whole : (n ++ rest).takeWhile isNameChar = n := by
    rw [List.takeWhile_append_of_pos (List.all_eq_true.mp named)]
    cases rest with
    | nil => simp
    | cons c rest => simp [ends c rfl]
  refine (takes_skipBlanks (solid_append first rest)).bind (takes_get fun pos => ?_)
  dsimp only
  rw [whole]
  exact (takes_advance rfl).bind takes_pure

/-! ### Alphabets -/

theorem takes_alphabet {a : Alphabet} (named : ∀ c ∈ a.letters, Letter.Named c) :
    Takes (d.alphabet ')') (a.text.toList ++ ')' :: rest) rest a := by
  intro pos
  have split : splitUnescaped ')' (a.text.toList ++ ')' :: rest) = some (a.text.toList, rest) :=
    Alphabet.splitUnescaped_text (by decide) (by decide) a rest
  have body : d.body ')' ⟨pos, a.text.toList ++ ')' :: rest⟩ =
      .ok a.text.toList ⟨pos + a.text.toList.length + 1, rest⟩ := by
    unfold Descriptor.body
    rw [split]
  refine ⟨pos + a.text.toList.length + 1, ?_⟩
  change (do
    let body ← d.body ')'
    lift ((Alphabet.parse body).shift pos) : Reader Alphabet) ⟨pos, _⟩ = _
  rw [bind_ok body, Alphabet.read_text named]
  rfl

/-- The letters of an alphabet, as they stand after the name of a set. -/
def lettersText (a : Alphabet) : List Char :=
  "<".toList ++ ("char_letters".toList ++ ("(".toList ++ (a.text.toList ++ ')' :: ">".toList)))

theorem takes_canonicalLetters {a : Alphabet} (named : ∀ c ∈ a.letters, Letter.Named c) :
    Takes d.canonicalLetters (lettersText a ++ rest) rest a := by
  unfold lettersText
  simp only [List.append_assoc, List.cons_append]
  refine (takes_require (by decide)).bind ((takes_require (by decide)).bind ?_)
  refine (takes_require (by decide)).bind ((takes_alphabet named).bind ?_)
  exact (takes_require (by decide)).bind takes_pure

/-! ### Label sets -/

/-- Whether nothing after a label set could belong to it. -/
def Closes (cs : List Char) : Prop := ∀ c ∈ cs.head?, isBlank c = false ∧ c ≠ 'x'

theorem takes_takeCross (closes : Closes rest) : Takes takeCross rest rest false := by
  intro pos
  refine ⟨pos, ?_⟩
  cases rest with
  | nil => rfl
  | cons c rest =>
    obtain ⟨solid, other⟩ := closes c rfl
    have none : (c :: rest).takeWhile isBlank = [] := List.takeWhile_cons_of_neg (by simp [solid])
    unfold takeCross
    simp only [Cursor.advance, none, List.length_nil, List.drop_zero]
    split
    · rename_i same
      exact absurd (List.cons.inj same).1 other
    · rfl

theorem takes_crossed (closes : Closes rest) : Takes (d.crossed fuel) rest rest [] := by
  cases fuel with
  | zero => exact takes_pure
  | succ fuel =>
    unfold Descriptor.crossed
    exact (takes_takeCross closes).bind takes_pure

/-- A label set that is no tuple in the short form. -/
theorem takes_labelSet {ls : LabelSet} (single : Takes (d.singleLabelSet fuel) cs rest ls)
    (closes : Closes rest) : Takes (d.labelSet (fuel + 1)) cs rest ls := by
  unfold Descriptor.labelSet
  exact single.bind ((takes_crossed closes).bind takes_pure)

/-- Takes what follows the name of a label set, which was read from `start`. -/
def setNamed (d : Descriptor) (fuel : Nat) (start : Cursor) (name : String) : Reader LabelSet := do
  if name = "lal_char" then return .letters (← d.namedLetters)
  else if name = "lan_char" then return .nullable (← d.namedLetters)
  else if name = "law_char" then return .words (← d.namedLetters)
  else if name = "letterset" then return .letters (← d.canonicalLetters)
  else if name = "wordset" then return .words (← d.canonicalLetters)
  else if name = "nullableset" then
    d.require "<"
    let inner ← d.labelSet fuel
    d.require ">"
    return nullableOf inner
  else if name = "lat" then
    d.require "<"
    let first ← d.labelSet fuel
    let others ← d.commaLabelSets fuel
    d.require ">"
    return .tuple (first :: others)
  else
    set start
    d.fail ("unknown labelset `" ++ name ++ "`")

theorem singleLabelSet_eq (d : Descriptor) (fuel : Nat) : d.singleLabelSet (fuel + 1) = (do
    if ← take "[" then shortSuffix (← d.alphabet ']')
    else
      let start ← get
      d.setNamed fuel start (String.ofList (← name))) := by
  rw [Descriptor.singleLabelSet]
  rfl

/-- A label set starts with a name, and the name tells how it goes on. -/
theorem singleLabelSet_of_name (d : Descriptor) (fuel : Nat) {n : String} {mid : List Char}
    (first : starts n.toList = true) (named : n.toList.all isNameChar = true)
    (ends : EndsName mid) (pos : Nat) :
    ∃ start stop, d.singleLabelSet (fuel + 1) ⟨pos, n.toList ++ mid⟩ =
      d.setNamed fuel start n ⟨stop, mid⟩ := by
  have noBracket : "[".toList.isPrefixOf (n.toList ++ mid) = false := by
    cases letters : n.toList with
    | nil =>
      rw [letters] at first
      cases first
    | cons c cs =>
      rw [letters, List.all_cons, Bool.and_eq_true] at named
      have differ : '[' ≠ c := by
        rintro rfl
        exact absurd named.1 (by decide)
      have bracket : "[".toList = ['['] := rfl
      rw [bracket]
      simp [List.isPrefixOf, differ]
  obtain ⟨start, absent⟩ := takes_take_absent (solid_append first mid) noBracket pos
  obtain ⟨stop, taken⟩ := takes_name first named ends start
  have place (c : Cursor) : (get : Reader Cursor) c = .ok c c := rfl
  refine ⟨⟨start, n.toList ++ mid⟩, stop, ?_⟩
  rw [singleLabelSet_eq, bind_ok absent, if_neg Bool.false_ne_true, bind_ok (place _),
    bind_ok taken, String.ofList_toList]

theorem takes_singleLabelSet {n : String} {mid : List Char} {ls : LabelSet}
    (first : starts n.toList = true) (named : n.toList.all isNameChar = true)
    (ends : EndsName mid) (next : ∀ start, Takes (d.setNamed fuel start n) mid rest ls) :
    Takes (d.singleLabelSet (fuel + 1)) (n.toList ++ mid) rest ls := by
  intro pos
  obtain ⟨start, stop, goesOn⟩ := singleLabelSet_of_name d fuel first named ends pos
  rw [goesOn]
  exact next start stop

theorem endsName_lettersText (a : Alphabet) (rest : List Char) : EndsName (lettersText a ++ rest) := by
  have sign : "<".toList = ['<'] := rfl
  rw [lettersText, sign]
  rintro _ ⟨⟩
  decide

theorem takes_letters {a : Alphabet} (named : ∀ c ∈ a.letters, Letter.Named c) :
    Takes (d.singleLabelSet (fuel + 1)) ("letterset".toList ++ (lettersText a ++ rest)) rest
      (.letters a) :=
  takes_singleLabelSet (by decide) (by decide) (endsName_lettersText a rest) fun _ =>
    (takes_canonicalLetters named).bind takes_pure

theorem takes_words {a : Alphabet} (named : ∀ c ∈ a.letters, Letter.Named c) :
    Takes (d.singleLabelSet (fuel + 1)) ("wordset".toList ++ (lettersText a ++ rest)) rest
      (.words a) :=
  takes_singleLabelSet (by decide) (by decide) (endsName_lettersText a rest) fun _ =>
    (takes_canonicalLetters named).bind takes_pure

theorem closes_closing (rest : List Char) : Closes (">".toList ++ rest) := by
  have sign : ">".toList = ['>'] := rfl
  rw [sign]
  rintro _ ⟨⟩
  decide

theorem endsName_opening (rest : List Char) : EndsName ("<".toList ++ rest) := by
  have sign : "<".toList = ['<'] := rfl
  rw [sign]
  rintro _ ⟨⟩
  decide

theorem takes_nullable {a : Alphabet} (named : ∀ c ∈ a.letters, Letter.Named c) :
    Takes (d.singleLabelSet (fuel + 3)) ("nullableset".toList ++ ("<".toList ++
      ("letterset".toList ++ (lettersText a ++ (">".toList ++ rest))))) rest (.nullable a) := by
  refine takes_singleLabelSet (by decide) (by decide) (endsName_opening _) fun _ => ?_
  refine (takes_require (by decide)).bind ?_
  refine (takes_labelSet (takes_letters named) (closes_closing rest)).bind ?_
  exact (takes_require (by decide)).bind takes_pure

/-! ### Blanks in front -/

theorem skipBlanks_blank (solid : Solid cs) (pos : Nat) :
    skipBlanks ⟨pos, ' ' :: cs⟩ = .ok () ⟨pos + 1, cs⟩ := by
  have blanks : (' ' :: cs).takeWhile isBlank = [' '] := by
    rw [List.takeWhile_cons_of_pos (by decide)]
    cases cs with
    | nil => rfl
    | cons c cs => rw [List.takeWhile_cons_of_neg (by simp [solid c rfl])]
  change EStateM.Result.ok () (Cursor.advance _ ((' ' :: cs).takeWhile isBlank).length) = _
  rw [blanks]
  rfl

theorem take_blank (sign : String) (solid : Solid cs) (pos : Nat) :
    take sign ⟨pos, ' ' :: cs⟩ = take sign ⟨pos + 1, cs⟩ := by
  unfold take
  rw [bind_ok (skipBlanks_blank solid pos), skipBlanks_bind solid]

theorem labelSet_blank (solid : Solid cs) (pos : Nat) :
    d.labelSet (fuel + 2) ⟨pos, ' ' :: cs⟩ = d.labelSet (fuel + 2) ⟨pos + 1, cs⟩ := by
  rw [Descriptor.labelSet]
  apply Reader.bind_congr
  rw [singleLabelSet_eq]
  exact Reader.bind_congr (take_blank "[" solid pos)

theorem takes_labelSet_blank {ls : LabelSet} (solid : Solid cs)
    (takes : Takes (d.labelSet (fuel + 2)) cs rest ls) :
    Takes (d.labelSet (fuel + 2)) (' ' :: cs) rest ls := by
  intro pos
  rw [labelSet_blank solid]
  exact takes (pos + 1)

/-! ### Tuples -/

/-- The descriptors of further tapes, each after a comma. -/
def furtherText (tapes : List LabelSet) : List Char :=
  tapes.flatMap fun tape => ",".toList ++ ' ' :: tape.text.toList

theorem furtherText_cons (tape : LabelSet) (tapes : List LabelSet) : furtherText (tape :: tapes) =
    ",".toList ++ ' ' :: (tape.text.toList ++ furtherText tapes) := by
  simp only [furtherText, List.flatMap_cons, List.append_assoc, List.cons_append]

theorem toList_tapesText (tape : LabelSet) (tapes : List LabelSet) :
    (LabelSet.tapesText (tape :: tapes)).toList = tape.text.toList ++ furtherText tapes := by
  have comma : ", ".toList = ",".toList ++ [' '] := rfl
  induction tapes generalizing tape with
  | nil => exact (List.append_nil _).symm
  | cons next tapes ih =>
    change (tape.text ++ ", " ++ LabelSet.tapesText (next :: tapes)).toList = _
    simp only [String.toList_append, ih, comma, furtherText, List.flatMap_cons, List.append_assoc,
      List.cons_append, List.nil_append]

theorem toList_letters (a : Alphabet) :
    (LabelSet.letters a).text.toList = "letterset".toList ++ lettersText a := by
  have opening : "letterset<char_letters(".toList =
      "letterset".toList ++ ("<".toList ++ ("char_letters".toList ++ "(".toList)) := by simp
  have closing : ")>".toList = ')' :: ">".toList := by simp
  change ("letterset<char_letters(" ++ a.text ++ ")>").toList = _
  simp only [String.toList_append, opening, closing, lettersText, List.append_assoc]

theorem toList_words (a : Alphabet) :
    (LabelSet.words a).text.toList = "wordset".toList ++ lettersText a := by
  have opening : "wordset<char_letters(".toList =
      "wordset".toList ++ ("<".toList ++ ("char_letters".toList ++ "(".toList)) := by simp
  have closing : ")>".toList = ')' :: ">".toList := by simp
  change ("wordset<char_letters(" ++ a.text ++ ")>").toList = _
  simp only [String.toList_append, opening, closing, lettersText, List.append_assoc]

theorem toList_nullable (a : Alphabet) : (LabelSet.nullable a).text.toList = "nullableset".toList ++
    ("<".toList ++ ("letterset".toList ++ (lettersText a ++ ">".toList))) := by
  have opening : "nullableset<letterset<char_letters(".toList = "nullableset".toList ++
      ("<".toList ++ ("letterset".toList ++ ("<".toList ++ ("char_letters".toList ++
        "(".toList)))) := by simp
  have closing : ")>>".toList = ')' :: (">".toList ++ ">".toList) := by simp
  change ("nullableset<letterset<char_letters(" ++ a.text ++ ")>>").toList = _
  simp only [String.toList_append, opening, closing, lettersText, List.append_assoc,
    List.cons_append]

theorem toList_tuple (tape : LabelSet) (tapes : List LabelSet) :
    (LabelSet.tuple (tape :: tapes)).text.toList = "lat".toList ++ ("<".toList ++
      (tape.text.toList ++ (furtherText tapes ++ ">".toList))) := by
  have opening : "lat<".toList = "lat".toList ++ "<".toList := by simp
  change ("lat<" ++ LabelSet.tapesText (tape :: tapes) ++ ">").toList = _
  simp only [String.toList_append, toList_tapesText, opening, List.append_assoc]

theorem closes_furtherText (tapes : List LabelSet) (rest : List Char) :
    Closes (furtherText tapes ++ (">".toList ++ rest)) := by
  cases tapes with
  | nil => exact closes_closing rest
  | cons tape tapes =>
    have sign : ",".toList = [','] := by simp
    rw [furtherText, List.flatMap_cons, sign]
    rintro _ ⟨⟩
    decide

/-- A descriptor of a label set starts with its name, which is long. -/
theorem exists_name {ls : LabelSet} {P : Char → Prop} (described : ls.Lists P) : ∃ n mid : List Char,
    ls.text.toList = n ++ mid ∧ starts n = true ∧ 4 ≤ ls.text.toList.length := by
  have long {n mid : List Char} (enough : 4 ≤ n.length) : 4 ≤ (n ++ mid).length := by
    rw [List.length_append]
    exact Nat.le_add_right_of_le enough
  cases ls with
  | letters a =>
    rw [toList_letters]
    exact ⟨_, _, rfl, by decide, long (by decide)⟩
  | nullable a =>
    rw [toList_nullable]
    exact ⟨_, _, rfl, by decide, long (by decide)⟩
  | words a =>
    rw [toList_words]
    exact ⟨_, _, rfl, by decide, long (by decide)⟩
  | tuple tapes =>
    cases tapes with
    | nil => exact absurd rfl described.1
    | cons tape tapes =>
      rw [toList_tuple, ← List.append_assoc]
      exact ⟨_, _, rfl, by decide, long (by decide)⟩

theorem solid_text {ls : LabelSet} {P : Char → Prop} (described : ls.Lists P) (rest : List Char) :
    Solid (ls.text.toList ++ rest) := by
  obtain ⟨n, mid, same, first, _⟩ := exists_name described
  rw [same, List.append_assoc]
  exact solid_append first _

mutual

/-- The text of a label set is read as the label set. -/
theorem takes_text (ls : LabelSet) (described : ls.Lists Letter.Named) (fuel : Nat)
    (enough : ls.text.toList.length ≤ fuel) (rest : List Char) (closes : Closes rest) :
    Takes (d.labelSet fuel) (ls.text.toList ++ rest) rest ls := by
  obtain ⟨_, _, _, _, long⟩ := exists_name described
  obtain ⟨fuel, rfl⟩ : ∃ f, fuel = f + 4 := ⟨fuel - 4, by omega⟩
  cases ls with
  | letters a =>
    rw [toList_letters, List.append_assoc]
    exact takes_labelSet (takes_letters described) closes
  | words a =>
    rw [toList_words, List.append_assoc]
    exact takes_labelSet (takes_words described) closes
  | nullable a =>
    simp only [toList_nullable, List.append_assoc]
    exact takes_labelSet (takes_nullable described) closes
  | tuple tapes =>
    cases tapes with
    | nil => exact absurd rfl described.1
    | cons tape tapes =>
      obtain ⟨_, first, others⟩ := described
      simp only [toList_tuple, List.length_append] at enough
      have name : "lat".toList.length = 3 := by simp
      simp only [toList_tuple, List.append_assoc]
      refine takes_labelSet
        (takes_singleLabelSet (by decide) (by decide) (endsName_opening _) fun _ => ?_) closes
      refine (takes_require (by decide)).bind ?_
      refine (takes_text tape first _ (by omega) _ (closes_furtherText tapes rest)).bind ?_
      refine (takes_furtherText tapes others _ (by omega) rest).bind ?_
      exact (takes_require (by decide)).bind takes_pure

theorem takes_furtherText (tapes : List LabelSet) (described : LabelSet.ListsEach Letter.Named tapes)
    (fuel : Nat) (enough : (furtherText tapes).length ≤ fuel) (rest : List Char) :
    Takes (d.commaLabelSets fuel) (furtherText tapes ++ (">".toList ++ rest))
      (">".toList ++ rest) tapes := by
  cases tapes with
  | nil =>
    cases fuel with
    | zero => exact takes_pure
    | succ fuel =>
      unfold Descriptor.commaLabelSets
      have comma : ",".toList = [','] := by simp
      have closing : ">".toList = ['>'] := by simp
      have absent : ",".toList.isPrefixOf (">".toList ++ rest) = false := by
        rw [comma, closing]
        rfl
      exact (takes_take_absent (solid_append (by decide) rest) absent).bind takes_pure
  | cons tape tapes =>
    obtain ⟨first, others⟩ := described
    obtain ⟨_, _, _, _, long⟩ := exists_name first
    have sign : ",".toList.length = 1 := by simp
    rw [furtherText_cons] at enough ⊢
    simp only [List.length_append, List.length_cons] at enough
    obtain ⟨fuel, rfl⟩ : ∃ f, fuel = f + 3 := ⟨fuel - 3, by omega⟩
    unfold Descriptor.commaLabelSets
    simp only [List.append_assoc, List.cons_append]
    refine (takes_take (by decide)).bind ?_
    refine (takes_labelSet_blank (solid_text first _) (takes_text tape first _ (by omega) _
      (closes_furtherText tapes rest))).bind ?_
    exact (takes_furtherText tapes others _ (by omega) rest).bind takes_pure

end

/-! ### Weight sets -/

/-- What the signs between labels and weights start with. -/
theorem not_isPrefixOf_cons {sign : String} {c : Char} (other : c ∉ sign.toList.head?)
    (nonempty : sign.toList ≠ []) : sign.toList.isPrefixOf (c :: cs) = false := by
  cases signs : sign.toList with
  | nil => exact absurd signs nonempty
  | cons d ds =>
    rw [signs] at other
    have differ : d ≠ c := fun same => other (by simp [same])
    simp [List.isPrefixOf, differ]

theorem takes_separator : Takes d.separator (',' :: rest) rest () := by
  have solid : Solid (',' :: rest) := solid_append (t := [',']) (by decide) rest
  have comma : ",".toList = [','] := by simp
  have found : Takes (take ",") (',' :: rest) rest true := by
    have taken : Takes (take ",") (",".toList ++ rest) rest true := takes_take (by decide)
    rwa [comma] at taken
  have any : Takes (takeAny ["->", ",", "_"]) (',' :: rest) rest true :=
    (takes_take_absent solid (not_isPrefixOf_cons (by decide) (by decide))).bind
      (found.bind takes_pure)
  exact any.bind takes_pure

/-- A weight set with a name of its own, after a blank. -/
theorem takes_weightSet {n : String} {ws : WeightSet} (first : starts n.toList = true)
    (named : n.toList.all isNameChar = true) (known : WeightSet.ofName? n.toList = some ws)
    (single : n ≠ "expressionset" ∧ n ≠ "ratexpset" ∧ n ≠ "seriesset" ∧ n ≠ "RatE")
    (ends : EndsName rest) :
    Takes (d.weightSet (fuel + 1)) (' ' :: (n.toList ++ rest)) rest ws := by
  obtain ⟨first', second, third, fourth⟩ := single
  have blank : Takes skipBlanks (' ' :: (n.toList ++ rest)) (n.toList ++ rest) () :=
    fun pos => ⟨_, skipBlanks_blank (solid_append first rest) pos⟩
  unfold Descriptor.weightSet
  refine blank.bind (takes_get fun pos => (takes_name first named ends).bind ?_)
  dsimp only
  rw [String.ofList_toList, if_neg (by simp [first', second, third]), if_neg fourth, known]
  exact takes_pure

theorem takes_context {labels : LabelSet} {ws : WeightSet} {tail : List Char}
    (described : labels.Lists Letter.Named) (enough : labels.text.toList.length ≤ fuel)
    (weights : Takes (d.weightSet fuel) (' ' :: tail) rest ws) :
    Takes (d.context (fuel + 1)) (labels.text.toList ++ ',' :: ' ' :: tail) rest ⟨labels, ws⟩ := by
  have closes : Closes (',' :: ' ' :: tail) := by
    rintro _ ⟨⟩
    decide
  unfold Descriptor.context
  refine (takes_text labels described _ enough _ closes).bind (takes_separator.bind ?_)
  exact weights.bind takes_pure

end Context.Descriptor

namespace Context

open Descriptor Text Text.Reader

theorem toList_text (c : Context) :
    c.text.toList = c.labels.text.toList ++ ',' :: ' ' :: c.weights.text.toList := by
  have comma : ", ".toList = [',', ' '] := by simp
  change (c.labels.text ++ ", " ++ c.weights.text).toList = _
  simp only [String.toList_append, comma, List.append_assoc, List.cons_append, List.nil_append]

/-- A context that takes a text up to its end is what the text is read as. -/
theorem parse_of_takes {c : Context} {cs : List Char}
    (read : ∀ d : Descriptor, Takes (d.context (4 * (cs.length + 2))) cs [] c) :
    Context.parse cs = .ok c := by
  have nothing : Solid [] := fun c first => by cases first
  have whole : Cursor.ofText cs = ⟨0, cs⟩ := rfl
  obtain ⟨stop, done⟩ := read ⟨String.ofList cs⟩ 0
  unfold Context.parse Reader.parse
  dsimp only
  rw [whole, bind_ok done, skipBlanks_bind nothing]
  rfl

/-- The descriptor of a context is read as the context. -/
theorem parse_text {labels : LabelSet} (described : labels.Lists Letter.Named) {n : String}
    {ws : WeightSet} (first : starts n.toList = true) (named : n.toList.all isNameChar = true)
    (known : WeightSet.ofName? n.toList = some ws)
    (single : n ≠ "expressionset" ∧ n ≠ "ratexpset" ∧ n ≠ "seriesset" ∧ n ≠ "RatE") :
    Context.parse (labels.text ++ ", " ++ n).toList = .ok ⟨labels, ws⟩ := by
  have comma : ", ".toList = [',', ' '] := by simp
  have text : (labels.text ++ ", " ++ n).toList =
      labels.text.toList ++ ',' :: ' ' :: (n.toList ++ []) := by
    simp only [String.toList_append, comma, List.append_assoc, List.cons_append, List.nil_append,
      List.append_nil]
  apply parse_of_takes
  intro d
  rw [text]
  obtain ⟨fuel, same, enough⟩ : ∃ fuel, 4 * ((labels.text.toList ++
      ',' :: ' ' :: (n.toList ++ [])).length + 2) = fuel + 2 ∧
        labels.text.toList.length ≤ fuel + 1 := by
    rw [List.length_append]
    exact ⟨4 * (labels.text.toList.length + (',' :: ' ' :: (n.toList ++ [])).length + 2) - 2,
      by omega, by omega⟩
  rw [same]
  exact takes_context described enough (takes_weightSet first named known single nofun)

end Context

/-! ### Exact weight sets -/

/-- The weight sets with a name of their own and without rounding. -/
class inductive WeightSet.Exact : WeightSet → Prop
  | boolean : Exact .boolean
  | integer : Exact .integer
  | rational : Exact .rational
  | tropical (e : Extremum) : Exact (.tropical e)

namespace WeightSet

open Weights

instance : Exact .boolean := .boolean

instance : Exact .integer := .integer

instance : Exact .rational := .rational

instance (e : Extremum) : Exact (.tropical e) := .tropical e

variable {ws : WeightSet} [exact : ws.Exact]

instance : Weights.Lawful ws.Carrier := by
  cases exact with
  | boolean => exact inferInstanceAs (Weights.Lawful Bool)
  | integer => exact inferInstanceAs (Weights.Lawful Int)
  | rational => exact inferInstanceAs (Weights.Lawful Rat)
  | tropical e => exact inferInstanceAs (Weights.Lawful (Tropical e))

/-- Whether the weight is one of 64 bits, where the weight set has no others. -/
def Fits : (ws : WeightSet) → ws.Carrier → Prop
  | tropical _, .finite n => Fits64 n
  | _, _ => True

theorem tropical_writable {e : Extremum} {w : Tropical e} (fits : (tropical e).Fits w)
    (nonzero : w ≠ Weights.zero) : w.Writable e := by
  cases w with
  | infinite => exact absurd rfl nonzero
  | finite n => exact fits

/-- Whether the weight is the infinite element of the maximum. -/
def IsBottom (ws : WeightSet) (w : ws.Carrier) : Prop :=
  ws = .tropical .max ∧ w = Weights.zero

/-- The text of a weight is read back as the weight. The infinite element of the maximum is written
like the one of the minimum, and its text is refused. -/
theorem read_weight_text (style : Style) {w : ws.Carrier} (fits : ws.Fits w) :
    (¬ ws.IsBottom w → Weights.parse (Weights.format style w).toList = .ok w) ∧
    (ws.IsBottom w → (Weights.parse (Weights.format style w).toList : Result ws.Carrier) =
      .error (.badWeight "tropical" ['o', 'o'])) := by
  cases exact with
  | boolean =>
    exact ⟨fun _ => Legible.reads (K := Bool) style trivial, fun bottom => nomatch bottom.1⟩
  | integer =>
    exact ⟨fun _ => Legible.reads (K := Int) style trivial, fun bottom => nomatch bottom.1⟩
  | rational =>
    exact ⟨fun _ => Legible.reads (K := Rat) style trivial, fun bottom => nomatch bottom.1⟩
  | tropical e =>
    constructor
    · intro proper
      apply Tropical.parse_text
      cases w with
      | infinite =>
        cases e with
        | min => rfl
        | max => exact absurd ⟨rfl, rfl⟩ proper
      | finite n => exact fits
    · rintro ⟨same, rfl⟩
      obtain rfl : e = .max := WeightSet.tropical.inj same
      have text : Weights.format style (Weights.zero : (tropical .max).Carrier) =
          (Tropical.infinite (e := .max)).text := rfl
      rw [text]
      exact Tropical.parse_text_of_infinite

theorem read_weight_text_of_bounds :
    (tropical .max).Fits (Tropical.finite (-0x8000000000000000)) ∧
    Weights.parse (Weights.format .ascii (K := (tropical .max).Carrier)
      (Tropical.finite (-0x8000000000000000))).toList =
        .ok (Tropical.finite (e := .max) (-0x8000000000000000)) ∧
    Weights.parse (Weights.format .ascii (K := (tropical .min).Carrier)
      (Tropical.infinite (e := .min))).toList = .ok (Tropical.infinite (e := .min)) ∧
    Weights.parse (Weights.format .ascii (K := rational.Carrier) ((-2 : Rat) / 3)).toList =
      .ok ((-2 : Rat) / 3) := by
  have fits : (tropical .max).Fits (Tropical.finite (-0x8000000000000000)) := by
    unfold Fits Fits64
    decide
  have infinite : (tropical .min).Fits Tropical.infinite := trivial
  have fraction : rational.Fits ((-2 : Rat) / 3) := trivial
  refine ⟨fits, (read_weight_text .ascii fits).1 ?_, (read_weight_text .ascii infinite).1 ?_,
    (read_weight_text .ascii fraction).1 ?_⟩
  · exact fun bottom => nomatch bottom.2
  · exact fun bottom => nomatch bottom.1
  · exact fun bottom => nomatch bottom.1

/-- The maximum reads its infinite element from a text that it does not write. -/
theorem text_of_bottom_not_read :
    (Weights.parse "-oo".toList : Result (tropical .max).Carrier) = .ok Weights.zero ∧
    Weights.format .ascii (Weights.zero : (tropical .max).Carrier) = "oo" ∧
    (Weights.parse "oo".toList : Result (tropical .max).Carrier) ≠ .ok Weights.zero := by
  refine ⟨rfl, rfl, fun read => ?_⟩
  cases Tropical.parse_text_of_infinite.symm.trans read

/-- The zero of the maximum has no text of its own. -/
instance : Legible ws.Carrier where
  Writable w := ws.Fits w ∧ w ≠ Weights.zero
  not_bracket {w c} style writable member := by
    cases exact with
    | boolean => exact Legible.not_bracket (K := Bool) style trivial member
    | integer => exact Legible.not_bracket (K := Int) style trivial member
    | rational => exact Legible.not_bracket (K := Rat) style trivial member
    | tropical e =>
      exact Legible.not_bracket (K := Tropical e) style
        (tropical_writable writable.1 writable.2) member
  reads {w} style writable := by
    cases exact with
    | boolean => exact Legible.reads (K := Bool) style trivial
    | integer => exact Legible.reads (K := Int) style trivial
    | rational => exact Legible.reads (K := Rat) style trivial
    | tropical e =>
      exact Legible.reads (K := Tropical e) style (tropical_writable writable.1 writable.2)

end WeightSet

theorem Context.parse_text_of_exact (ws : WeightSet) [exact : ws.Exact] {labels : LabelSet}
    (described : labels.Lists Letter.Named) :
    Context.parse (labels.text ++ ", " ++ ws.text).toList = .ok ⟨labels, ws⟩ := by
  cases exact with
  | boolean => exact parse_text described (n := "b") (by decide) (by decide) (by decide) (by decide)
  | integer => exact parse_text described (n := "z") (by decide) (by decide) (by decide) (by decide)
  | rational => exact parse_text described (n := "q") (by decide) (by decide) (by decide) (by decide)
  | tropical e => cases e with
    | min =>
      exact parse_text described (n := "zmin") (by decide) (by decide) (by decide) (by decide)
    | max =>
      exact parse_text described (n := "zmax") (by decide) (by decide) (by decide) (by decide)

end WeightedAutomata
