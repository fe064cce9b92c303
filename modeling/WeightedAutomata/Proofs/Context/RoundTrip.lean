import WeightedAutomata.Proofs.Context.Descriptor

/-! What is left of a context in its descriptor: everything but the identities of expressions. The
descriptor is refused where it spells a reserved letter. -/

namespace WeightedAutomata

namespace WeightSet

/-- Whether all letters that are listed inside satisfy `P`, and no tuple is empty. -/
def Lists (P : Char → Prop) : WeightSet → Prop
  | .expressions s inner => s.labels.Lists P ∧ inner.Lists P
  | _ => True

/-- The weight set with the identities that expressions have where none are named. -/
def linear : WeightSet → WeightSet
  | .expressions s inner => .expressions ⟨s.labels, .linear⟩ inner.linear
  | ws => ws

theorem lists_of_ofName? {P : Char → Prop} {name : List Char} {ws : WeightSet}
    (known : ofName? name = some ws) : ws.Lists P := by
  obtain ⟨before, after, same, _⟩ := List.lookup_eq_some_iff.mp known
  have each : ∀ entry ∈ named, entry.2.Lists P := by simp [named, Lists]
  have member : (String.ofList ((Text.trim name).map Decimal.lower), ws) ∈ named := by
    rw [same]
    simp
  exact each _ member

theorem toList_expressions (s : ExpressionSet) (inner : WeightSet) :
    (expressions s inner).text.toList = "expressionset".toList ++ ("<".toList ++
      ((Context.mk s.labels inner).text.toList ++ ">".toList)) := by
  have opening : "expressionset<".toList = "expressionset".toList ++ "<".toList := by simp
  change ("expressionset<" ++ (Context.mk s.labels inner).text ++ ">").toList = _
  simp only [String.toList_append, opening, List.append_assoc]

end WeightSet

namespace LabelSet

variable {P : Char → Prop}

mutual

theorem Lists.withOne (ls : LabelSet) (lists : ls.Lists P) : ls.withOne.Lists P := by
  cases ls with
  | letters | nullable | words => exact lists
  | tuple tapes =>
    refine ⟨?_, ListsEach.withOnes tapes lists.2⟩
    cases tapes with
    | nil => exact absurd rfl lists.1
    | cons => exact List.cons_ne_nil _ _

theorem ListsEach.withOnes (tapes : List LabelSet) (lists : ListsEach P tapes) :
    ListsEach P (withOnes tapes) := by
  cases tapes with
  | nil => trivial
  | cons tape tapes => exact ⟨Lists.withOne tape lists.1, ListsEach.withOnes tapes lists.2⟩

end

theorem Lists.nullableOf {ls : LabelSet} (lists : ls.Lists P) :
    (Context.Descriptor.nullableOf ls).Lists P := by
  cases ls with
  | letters | nullable => exact lists
  | words | tuple => exact Lists.withOne _ lists

end LabelSet

namespace Context

def Lists (P : Char → Prop) (c : Context) : Prop := c.labels.Lists P ∧ c.weights.Lists P

def linear (c : Context) : Context := ⟨c.labels, c.weights.linear⟩

namespace Descriptor

open Text Text.Reader

variable {d : Descriptor} {cs mid rest : List Char} {fuel : Nat}

/-! ### Reading the descriptor -/

/-- Whether nothing after a weight set could belong to it. -/
def Ends (cs : List Char) : Prop := ∀ c ∈ cs.head?, c = '>'

theorem Ends.endsName (ends : Ends cs) : EndsName cs := by
  intro c first
  rw [ends c first]
  decide

theorem ends_closing (rest : List Char) : Ends (">".toList ++ rest) := by
  have sign : ">".toList = ['>'] := rfl
  rw [sign]
  rintro _ ⟨⟩
  rfl

theorem Ends.closes (ends : Ends cs) : Closes cs := by
  intro c first
  rw [ends c first]
  decide

theorem takes_identities_absent (ends : Ends rest) : Takes d.identities rest rest .linear := by
  have solid : Solid rest := by
    intro c first
    rw [ends c first]
    decide
  have absent : "(".toList.isPrefixOf rest = false := by
    cases rest with
    | nil => rfl
    | cons c rest =>
      rw [ends c rfl]
      exact not_isPrefixOf_cons (by decide) (by decide)
  exact (takes_take_absent solid absent).bind takes_pure

/-- Takes what follows the name of a set of expressions. -/
def expressionsNamed (d : Descriptor) (fuel : Nat) : Reader WeightSet := do
  d.require "<"
  let inner ← d.context fuel
  d.require ">"
  return .expressions ⟨inner.labels, ← d.identities⟩ inner.weights

/-- Takes what follows the name of a weight set, which was read from `start`. -/
def weightsNamed (d : Descriptor) (fuel : Nat) (start : Cursor) (name : List Char) :
    Reader WeightSet :=
  let known := String.ofList name
  if known = "expressionset" ∨ known = "ratexpset" ∨ known = "seriesset" then
    d.expressionsNamed fuel
  else if known = "RatE" then do
    d.require "["
    let inner ← d.context fuel
    d.require "]"
    return .expressions ⟨inner.labels, .linear⟩ inner.weights
  else
    match WeightSet.ofName? name with
    | some ws => return ws
    | none => do
      set start
      d.fail ("unknown weightset `" ++ known ++ "`")

theorem weightSet_eq (d : Descriptor) (fuel : Nat) : d.weightSet (fuel + 1) = (do
    skipBlanks
    let start ← get
    d.weightsNamed fuel start (← name)) := by
  rw [Descriptor.weightSet]
  rfl

theorem weightSet_of_expressions (d : Descriptor) (fuel : Nat) (ends : EndsName mid) (pos : Nat) :
    ∃ stop, d.weightSet (fuel + 1) ⟨pos, ' ' :: ("expressionset".toList ++ mid)⟩ =
      d.expressionsNamed fuel ⟨stop, mid⟩ := by
  have starts : starts "expressionset".toList = true := by decide
  obtain ⟨stop, taken⟩ := takes_name starts (by decide) ends (pos + 1)
  refine ⟨stop, ?_⟩
  rw [weightSet_eq, bind_ok (skipBlanks_blank (solid_append starts mid) pos)]
  change (name >>= d.weightsNamed fuel ⟨pos + 1, "expressionset".toList ++ mid⟩) ⟨pos + 1, _⟩ = _
  rw [bind_ok taken, weightsNamed, String.ofList_toList]
  exact congrFun (if_pos (.inl rfl)) _

theorem takes_expressionsNamed {c : Context} {tail : List Char} {ids : Identities}
    (inner : Takes (d.context fuel) cs (">".toList ++ tail) c)
    (identities : Takes d.identities tail rest ids) :
    Takes (d.expressionsNamed fuel) ("<".toList ++ cs) rest
      (.expressions ⟨c.labels, ids⟩ c.weights) := by
  refine (takes_require (by decide)).bind (inner.bind ?_)
  exact (takes_require (by decide)).bind (identities.bind takes_pure)

theorem takes_expressions {c : Context} {tail : List Char} {ids : Identities}
    (inner : Takes (d.context fuel) cs (">".toList ++ tail) c)
    (identities : Takes d.identities tail rest ids) :
    Takes (d.weightSet (fuel + 1)) (' ' :: ("expressionset".toList ++ ("<".toList ++ cs))) rest
      (.expressions ⟨c.labels, ids⟩ c.weights) := by
  intro pos
  obtain ⟨stop, goesOn⟩ := weightSet_of_expressions d fuel (endsName_opening cs) pos
  rw [goesOn]
  exact takes_expressionsNamed inner identities stop

/-- The text of a weight set is read as the weight set, its identities apart. -/
theorem takes_weights (ws : WeightSet) (described : ws.Lists Letter.Named) (fuel : Nat)
    (enough : ws.text.toList.length ≤ fuel) (rest : List Char) (ends : Ends rest) :
    Takes (d.weightSet fuel) (' ' :: (ws.text.toList ++ rest)) rest ws.linear := by
  have single {n : String} {ws : WeightSet} (first : starts n.toList = true)
      (named : n.toList.all isNameChar = true) (known : WeightSet.ofName? n.toList = some ws)
      (single : n ≠ "expressionset" ∧ n ≠ "ratexpset" ∧ n ≠ "seriesset" ∧ n ≠ "RatE")
      (enough : n.toList.length ≤ fuel) :
      Takes (d.weightSet fuel) (' ' :: (n.toList ++ rest)) rest ws := by
    obtain ⟨fuel, rfl⟩ : ∃ f, fuel = f + 1 := by
      cases letters : n.toList with
      | nil =>
        rw [letters] at first
        cases first
      | cons c cs =>
        rw [letters, List.length_cons] at enough
        exact ⟨fuel - 1, by omega⟩
    exact takes_weightSet first named known single ends.endsName
  cases ws with
  | boolean => exact single (n := "b") (by decide) (by decide) (by decide) (by decide) enough
  | integer => exact single (n := "z") (by decide) (by decide) (by decide) (by decide) enough
  | rational => exact single (n := "q") (by decide) (by decide) (by decide) (by decide) enough
  | real => exact single (n := "r") (by decide) (by decide) (by decide) (by decide) enough
  | tropical e => cases e with
    | min => exact single (n := "zmin") (by decide) (by decide) (by decide) (by decide) enough
    | max => exact single (n := "zmax") (by decide) (by decide) (by decide) (by decide) enough
  | expressions s inner =>
    have name : "expressionset".toList.length = 13 := by simp
    simp only [WeightSet.toList_expressions, toList_text, List.length_append, List.length_cons]
      at enough
    obtain ⟨fuel, rfl⟩ : ∃ f, fuel = f + 2 := ⟨fuel - 2, by omega⟩
    simp only [WeightSet.toList_expressions, toList_text, List.append_assoc, List.cons_append]
    have weights := takes_weights inner described.2 fuel (by omega) (">".toList ++ rest)
      (ends_closing rest)
    exact takes_expressions (takes_context described.1 (by omega) weights)
      (takes_identities_absent ends)

/-! ### Reserved letters in the descriptor -/

theorem refuses_alphabet {a : Alphabet} (unnamed : ¬ ∀ c ∈ a.letters, Letter.Named c) :
    Refuses (d.alphabet ')') (a.text.toList ++ ')' :: rest) := by
  intro pos
  obtain ⟨e, refused⟩ := Alphabet.read_text_of_unnamed unnamed
  have split : splitUnescaped ')' (a.text.toList ++ ')' :: rest) = some (a.text.toList, rest) :=
    Alphabet.splitUnescaped_text (by decide) (by decide) a rest
  have body : d.body ')' ⟨pos, a.text.toList ++ ')' :: rest⟩ =
      .ok a.text.toList ⟨pos + a.text.toList.length + 1, rest⟩ := by
    unfold Descriptor.body
    rw [split]
  change ∃ e stop, (do
    let body ← d.body ')'
    lift ((Alphabet.parse body).shift pos) : Reader Alphabet) ⟨pos, _⟩ = .error e stop
  rw [bind_ok body, refused]
  exact ⟨_, _, rfl⟩

theorem refuses_canonicalLetters {a : Alphabet} (unnamed : ¬ ∀ c ∈ a.letters, Letter.Named c) :
    Refuses d.canonicalLetters (lettersText a ++ rest) := by
  unfold lettersText
  simp only [List.append_assoc, List.cons_append]
  apply (takes_require (by decide)).refuses
  apply (takes_require (by decide)).refuses
  apply (takes_require (by decide)).refuses
  exact (refuses_alphabet unnamed).bind

theorem refuses_singleLabelSet {n : String} (first : starts n.toList = true)
    (named : n.toList.all isNameChar = true) (ends : EndsName mid)
    (next : ∀ start, Refuses (d.setNamed fuel start n) mid) :
    Refuses (d.singleLabelSet (fuel + 1)) (n.toList ++ mid) := by
  intro pos
  obtain ⟨start, stop, goesOn⟩ := singleLabelSet_of_name d fuel first named ends pos
  rw [goesOn]
  exact next start stop

theorem refuses_labelSet (single : Refuses (d.singleLabelSet fuel) cs) :
    Refuses (d.labelSet (fuel + 1)) cs := by
  unfold Descriptor.labelSet
  exact single.bind

theorem refuses_labelSet_blank (solid : Solid cs) (refuses : Refuses (d.labelSet (fuel + 2)) cs) :
    Refuses (d.labelSet (fuel + 2)) (' ' :: cs) := by
  intro pos
  rw [labelSet_blank solid]
  exact refuses (pos + 1)

mutual

/-- The text of a label set with a reserved letter is refused. -/
theorem refuses_text (ls : LabelSet) (filled : ls.Lists fun _ => True)
    (unnamed : ¬ ls.Lists Letter.Named) (fuel : Nat) (enough : ls.text.toList.length ≤ fuel)
    (rest : List Char) : Refuses (d.labelSet fuel) (ls.text.toList ++ rest) := by
  obtain ⟨_, _, _, _, long⟩ := exists_name filled
  obtain ⟨fuel, rfl⟩ : ∃ f, fuel = f + 4 := ⟨fuel - 4, by omega⟩
  apply refuses_labelSet
  cases ls with
  | letters a =>
    rw [toList_letters, List.append_assoc]
    exact refuses_singleLabelSet (by decide) (by decide) (endsName_lettersText a rest) fun _ =>
      (refuses_canonicalLetters unnamed).bind
  | words a =>
    rw [toList_words, List.append_assoc]
    exact refuses_singleLabelSet (by decide) (by decide) (endsName_lettersText a rest) fun _ =>
      (refuses_canonicalLetters unnamed).bind
  | nullable a =>
    simp only [toList_nullable, List.append_assoc]
    apply refuses_singleLabelSet (by decide) (by decide) (endsName_opening _)
    intro _
    apply (takes_require (by decide)).refuses
    apply (refuses_labelSet ?_).bind
    exact refuses_singleLabelSet (by decide) (by decide) (endsName_lettersText a _) fun _ =>
      (refuses_canonicalLetters unnamed).bind
  | tuple tapes =>
    cases tapes with
    | nil => exact absurd rfl filled.1
    | cons tape tapes =>
      obtain ⟨_, first, others⟩ := filled
      simp only [toList_tuple, List.length_append] at enough
      have name : "lat".toList.length = 3 := by simp
      simp only [toList_tuple, List.append_assoc]
      apply refuses_singleLabelSet (by decide) (by decide) (endsName_opening _)
      intro _
      apply (takes_require (by decide)).refuses
      by_cases named : tape.Lists Letter.Named
      · apply (takes_text tape named _ (by omega) _ (closes_furtherText tapes rest)).refuses
        apply Refuses.bind
        apply refuses_furtherText tapes others _ _ (by omega)
        exact fun rest => unnamed ⟨List.cons_ne_nil _ _, named, rest⟩
      · exact (refuses_text tape first named _ (by omega) _).bind

theorem refuses_furtherText (tapes : List LabelSet)
    (filled : LabelSet.ListsEach (fun _ => True) tapes)
    (unnamed : ¬ LabelSet.ListsEach Letter.Named tapes) (fuel : Nat)
    (enough : (furtherText tapes).length ≤ fuel) (rest : List Char) :
    Refuses (d.commaLabelSets fuel) (furtherText tapes ++ (">".toList ++ rest)) := by
  cases tapes with
  | nil => exact absurd trivial unnamed
  | cons tape tapes =>
    obtain ⟨first, others⟩ := filled
    obtain ⟨_, _, _, _, long⟩ := exists_name first
    have sign : ",".toList.length = 1 := by simp
    rw [furtherText_cons] at enough ⊢
    simp only [List.length_append, List.length_cons] at enough
    obtain ⟨fuel, rfl⟩ : ∃ f, fuel = f + 3 := ⟨fuel - 3, by omega⟩
    unfold Descriptor.commaLabelSets
    simp only [List.append_assoc, List.cons_append]
    apply (takes_take (by decide)).refuses
    by_cases named : tape.Lists Letter.Named
    · apply (takes_labelSet_blank (solid_text first _) (takes_text tape named _ (by omega) _
        (closes_furtherText tapes rest))).refuses
      apply Refuses.bind
      apply refuses_furtherText tapes others _ _ (by omega)
      exact fun rest => unnamed ⟨named, rest⟩
    · apply Refuses.bind
      apply refuses_labelSet_blank (solid_text first _)
      exact refuses_text tape first named _ (by omega) _

end

theorem refuses_context {labels : LabelSet} (filled : labels.Lists fun _ => True)
    (enough : labels.text.toList.length ≤ fuel)
    (refused : labels.Lists Letter.Named → Refuses (d.weightSet fuel) (' ' :: cs)) :
    Refuses (d.context (fuel + 1)) (labels.text.toList ++ ',' :: ' ' :: cs) := by
  unfold Descriptor.context
  by_cases named : labels.Lists Letter.Named
  · have closes : Closes (',' :: ' ' :: cs) := by
      rintro _ ⟨⟩
      decide
    apply (takes_text labels named _ enough _ closes).refuses
    apply takes_separator.refuses
    exact (refused named).bind
  · exact (refuses_text labels filled named _ enough _).bind

theorem refuses_expressions (inner : Refuses (d.context fuel) cs) :
    Refuses (d.weightSet (fuel + 1)) (' ' :: ("expressionset".toList ++ ("<".toList ++ cs))) := by
  intro pos
  obtain ⟨stop, goesOn⟩ := weightSet_of_expressions d fuel (endsName_opening cs) pos
  rw [goesOn]
  exact (takes_require (by decide)).refuses inner.bind stop

/-- The text of a weight set with a reserved letter is refused. -/
theorem refuses_weights (ws : WeightSet) (filled : ws.Lists fun _ => True)
    (unnamed : ¬ ws.Lists Letter.Named) (fuel : Nat) (enough : ws.text.toList.length ≤ fuel)
    (rest : List Char) : Refuses (d.weightSet fuel) (' ' :: (ws.text.toList ++ rest)) := by
  cases ws with
  | boolean | integer | rational | real | tropical => exact absurd trivial unnamed
  | expressions s inner =>
    have name : "expressionset".toList.length = 13 := by simp
    simp only [WeightSet.toList_expressions, toList_text, List.length_append, List.length_cons]
      at enough
    obtain ⟨fuel, rfl⟩ : ∃ f, fuel = f + 2 := ⟨fuel - 2, by omega⟩
    simp only [WeightSet.toList_expressions, toList_text, List.append_assoc, List.cons_append]
    apply refuses_expressions
    apply refuses_context filled.1 (by omega)
    intro named
    apply refuses_weights inner filled.2 _ fuel (by omega)
    exact fun rest => unnamed ⟨named, rest⟩

/-! ### What is read from any text -/

theorem yields_fail {α : Type} {P : α → Prop} (message : String) :
    Yields (d.fail message) P := ⟨nofun⟩

theorem yields_shortSuffix (a : Alphabet) : Yields (shortSuffix a) (·.Lists fun _ => True) := by
  have all : ∀ c ∈ a.letters, True := fun _ _ => trivial
  apply Yields.after
  intro nullable
  cases nullable
  · apply Yields.after
    intro words
    cases words
    · exact Yields.pure all
    · exact Yields.pure all
  · exact Yields.pure all

theorem yields_setNamed {fuel : Nat} (start : Cursor) (name : String)
    (first : Yields (d.labelSet fuel) (·.Lists fun _ => True))
    (others : Yields (d.commaLabelSets fuel) (LabelSet.ListsEach fun _ => True)) :
    Yields (d.setNamed fuel start name) (·.Lists fun _ => True) := by
  have all (a : Alphabet) : ∀ c ∈ a.letters, True := fun _ _ => trivial
  unfold setNamed
  split
  · exact Yields.after fun a => Yields.pure (all a)
  split
  · exact Yields.after fun a => Yields.pure (all a)
  split
  · exact Yields.after fun a => Yields.pure (all a)
  split
  · exact Yields.after fun a => Yields.pure (all a)
  split
  · exact Yields.after fun a => Yields.pure (all a)
  split
  · apply Yields.after
    intro _
    apply first.bind
    intro inner filled
    exact Yields.after fun _ => Yields.pure filled.nullableOf
  split
  · apply Yields.after
    intro _
    apply first.bind
    intro tape filled
    apply others.bind
    intro tapes filledEach
    exact Yields.after fun _ => Yields.pure ⟨List.cons_ne_nil _ _, filled, filledEach⟩
  · exact Yields.after fun _ => yields_fail _

/-- No empty tuple is read. The induction is on the fuel, which each reader hands on. -/
theorem yields_labelSets (fuel : Nat) :
    Yields (d.labelSet fuel) (·.Lists fun _ => True) ∧
      Yields (d.crossed fuel) (LabelSet.ListsEach fun _ => True) ∧
      Yields (d.singleLabelSet fuel) (·.Lists fun _ => True) ∧
      Yields (d.commaLabelSets fuel) (LabelSet.ListsEach fun _ => True) := by
  induction fuel with
  | zero =>
    unfold labelSet crossed singleLabelSet commaLabelSets
    exact ⟨yields_fail _, Yields.pure trivial, yields_fail _, Yields.pure trivial⟩
  | succ fuel ih =>
    obtain ⟨whole, crossing, single, further⟩ := ih
    refine ⟨?_, ?_, ?_, ?_⟩
    · unfold labelSet
      apply single.bind
      intro first filled
      apply crossing.bind
      intro others filledEach
      cases others with
      | nil => exact Yields.pure filled
      | cons next others => exact Yields.pure ⟨List.cons_ne_nil _ _, filled, filledEach⟩
    · unfold crossed
      apply Yields.after
      intro cross
      cases cross
      · exact Yields.pure trivial
      · apply single.bind
        intro next filled
        apply crossing.bind
        intro others filledEach
        exact Yields.pure ⟨filled, filledEach⟩
    · rw [singleLabelSet_eq]
      apply Yields.after
      intro short
      cases short
      · apply Yields.after
        intro start
        apply Yields.after
        intro name
        exact yields_setNamed start (String.ofList name) whole further
      · exact Yields.after yields_shortSuffix
    · unfold commaLabelSets
      apply Yields.after
      intro comma
      cases comma
      · exact Yields.pure trivial
      · apply whole.bind
        intro next filled
        apply further.bind
        intro others filledEach
        exact Yields.pure ⟨filled, filledEach⟩

theorem yields_contexts (fuel : Nat) :
    Yields (d.context fuel) (·.Lists fun _ => True) ∧
      Yields (d.weightSet fuel) (·.Lists fun _ => True) := by
  induction fuel with
  | zero =>
    unfold Descriptor.context Descriptor.weightSet
    exact ⟨yields_fail _, yields_fail _⟩
  | succ fuel ih =>
    obtain ⟨whole, weights⟩ := ih
    constructor
    · unfold Descriptor.context
      apply (yields_labelSets fuel).1.bind
      intro labels filled
      apply Yields.after
      intro _
      exact weights.bind fun ws filledWeights => Yields.pure ⟨filled, filledWeights⟩
    · rw [weightSet_eq]
      apply Yields.after
      intro _
      apply Yields.after
      intro start
      apply Yields.after
      intro name
      unfold weightsNamed expressionsNamed
      dsimp only
      split
      · apply Yields.after
        intro _
        apply whole.bind
        intro inner filled
        apply Yields.after
        intro _
        exact Yields.after fun ids => Yields.pure filled
      split
      · apply Yields.after
        intro _
        apply whole.bind
        intro inner filled
        exact Yields.after fun _ => Yields.pure filled
      split
      · rename_i known
        exact Yields.pure (WeightSet.lists_of_ofName? known)
      · exact Yields.after fun _ => yields_fail _

end Descriptor

open Descriptor Text Text.Reader

variable {c : Context} {cs : List Char}

/-- The descriptor of a context is read as the context, its identities apart. -/
theorem parse_text_linear (described : c.Lists Letter.Named) :
    Context.parse c.text.toList = .ok c.linear := by
  apply parse_of_takes
  intro d
  have text := toList_text c
  have length := congrArg List.length text
  rw [List.length_append, List.length_cons, List.length_cons] at length
  obtain ⟨fuel, same⟩ : ∃ fuel, 4 * (c.text.toList.length + 2) = fuel + 1 :=
    ⟨4 * (c.text.toList.length + 2) - 1, by omega⟩
  have weights := takes_weights (d := d) c.weights described.2 fuel (by omega) [] nofun
  rw [List.append_nil] at weights
  rw [same, text]
  exact takes_context described.1 (by omega) weights

/-- A context with a reserved letter has a descriptor that cannot be read. -/
theorem parse_text_of_unnamed (filled : c.Lists fun _ => True) (unnamed : ¬ c.Lists Letter.Named) :
    ∃ e, Context.parse c.text.toList = .error e := by
  have text := toList_text c
  have length := congrArg List.length text
  rw [List.length_append, List.length_cons, List.length_cons] at length
  obtain ⟨fuel, same⟩ : ∃ fuel, 4 * (c.text.toList.length + 2) = fuel + 1 :=
    ⟨4 * (c.text.toList.length + 2) - 1, by omega⟩
  have refuses (d : Descriptor) :
      Refuses (d.context (4 * (c.text.toList.length + 2))) c.text.toList := by
    rw [same, text]
    apply refuses_context filled.1 (by omega)
    intro named
    have weights := refuses_weights (d := d) c.weights filled.2 (fun rest => unnamed ⟨named, rest⟩)
      fuel (by omega) []
    rwa [List.append_nil] at weights
  obtain ⟨e, stop, refused⟩ := refuses ⟨String.ofList c.text.toList⟩ 0
  have whole : Cursor.ofText c.text.toList = ⟨0, c.text.toList⟩ := rfl
  refine ⟨e, ?_⟩
  unfold Context.parse Reader.parse
  dsimp only
  rw [whole, bind_error refused]

theorem filled_of_parse (parsed : Context.parse cs = .ok c) : c.Lists fun _ => True := by
  unfold Context.parse Reader.parse at parsed
  dsimp only at parsed
  split at parsed
  · rename_i read
    cases parsed
    refine Yields.value (P := fun c : Context => c.Lists fun _ => True) ?_ read
    apply (yields_contexts _).1.bind
    intro c filled
    apply Yields.after
    intro _
    apply Yields.after
    intro last
    cases last with
    | none => exact Yields.pure filled
    | some _ => exact yields_fail _
  · cases parsed

/-- A context that was read is read again from its descriptor, unless it lists a reserved letter:
then the descriptor is refused. Identities other than the linear ones are lost. -/
theorem parse_text_of_parse (parsed : Context.parse cs = .ok c) :
    (Context.parse c.text.toList = .ok c ↔ c.Lists Letter.Named ∧ c.linear = c) ∧
      (c.Lists Letter.Named → Context.parse c.text.toList = .ok c.linear) := by
  refine ⟨?_, parse_text_linear⟩
  by_cases named : c.Lists Letter.Named
  · rw [parse_text_linear named, and_iff_right named]
    exact (Except.ok.injEq _ _).to_iff
  · obtain ⟨e, refused⟩ := parse_text_of_unnamed (filled_of_parse parsed) named
    rw [refused]
    exact iff_of_false nofun fun both => named both.1

/-- The letters `ab` with weights that are expressions over the letters `xy`. -/
def overExpressions (ids : Identities) : Context :=
  ⟨.letters (.ofLetters false ['a', 'b']),
    .expressions ⟨.letters (.ofLetters false ['x', 'y']), ids⟩ .boolean⟩

theorem named_overExpressions (ids : Identities) : (overExpressions ids).Lists Letter.Named := by
  simp [overExpressions, Context.Lists, WeightSet.Lists, LabelSet.Lists, Letter.Named,
    Alphabet.mem_ofLetters]

theorem parse_overExpressions : Context.parse
    "letterset<char_letters(ab)>, expressionset<letterset<char_letters(xy)>, b>(trivial)".toList =
      .ok (overExpressions .trivial) := by
  decide +kernel

/-- Identities are read and compared, but not written. -/
theorem parse_text_of_trivial_identities :
    let cs :=
      "letterset<char_letters(ab)>, expressionset<letterset<char_letters(xy)>, b>(trivial)".toList
    Context.parse cs = .ok (overExpressions .trivial) ∧
      ¬ ∀ c, Context.parse cs = .ok c → Context.parse c.text.toList = .ok c := by
  refine ⟨parse_overExpressions, fun claim => ?_⟩
  have again := claim _ parse_overExpressions
  rw [parse_text_linear (named_overExpressions .trivial)] at again
  exact absurd (Except.ok.inj again) (by decide)

/-- What is read from the descriptor has the linear identities. -/
theorem parse_text_of_parse_trivial :
    Context.parse (overExpressions .trivial).text.toList = .ok (overExpressions .linear) ∧
      Context.parse (overExpressions .trivial).text.toList ≠ .ok (overExpressions .trivial) := by
  obtain ⟨same, read⟩ := parse_text_of_parse parse_overExpressions
  refine ⟨read (named_overExpressions .trivial), fun again => ?_⟩
  exact absurd (same.mp again).2 (by decide)

end Context

end WeightedAutomata
