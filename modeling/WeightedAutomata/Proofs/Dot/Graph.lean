import WeightedAutomata.Dot.Graph

/-! What is read from the tokens of a graph description. -/

namespace WeightedAutomata.Dot

/-- What a statement says, wherever it stands. -/
inductive Saying where
  | setting (name value : List Char)
  | chain (names : List (List Char)) (label : Option (List Char))

def Statement.saying : Statement → Saying
  | .attribute name value _ => .setting name value
  | .chain first rest label => .chain (first.name :: rest.map (·.name)) label

/-- Whether what follows goes on with no statement and no attribute list. -/
def Fresh (ts : List Token) : Prop :=
  ∀ t ∈ ts.head?, t ≠ .arrow ∧ t ≠ .sign '=' ∧ t ≠ .sign '['

variable {ls : List Lexeme} {ts us : List Token} {t : Token} {name key value : List Char} {c : Char}
variable {depth : Nat}

/-! ### Names, chains and attributes -/

theorem isSign_eq (same : ls.map (·.token) = t :: ts) (c : Char) :
    isSign c ls = (t == .sign c) := by
  obtain ⟨l, rest, rfl, rfl, _⟩ := List.map_eq_cons_iff.mp same
  rfl

theorem isSign_of_fresh (same : ls.map (·.token) = ts) (fresh : Fresh ts) :
    isSign '=' ls = false ∧ isSign '[' ls = false := by
  cases ls with
  | nil => exact ⟨rfl, rfl⟩
  | cons l ls =>
    subst same
    obtain ⟨_, equals, bracket⟩ := fresh l.token rfl
    exact ⟨beq_eq_false_iff_ne.mpr equals, beq_eq_false_iff_ne.mpr bracket⟩

theorem takeName_cons (stop : Nat) (same : ls.map (·.token) = t :: ts) (named : t.name? = some name) :
    ∃ span rest, takeName stop ls = .ok (⟨name, span⟩, rest) ∧ rest.map (·.token) = ts := by
  obtain ⟨l, rest, rfl, rfl, others⟩ := List.map_eq_cons_iff.mp same
  refine ⟨l.span, rest, ?_, others⟩
  unfold takeName
  dsimp only
  rw [named]

theorem takeChain_of_fresh (stop : Nat) (same : ls.map (·.token) = ts) (fresh : Fresh ts) :
    takeChain stop ls = .ok ([], ls) := by
  cases ls with
  | nil => rw [takeChain]
  | cons l ls =>
    subst same
    obtain ⟨arrow, _⟩ := fresh l.token rfl
    rw [takeChain]
    rintro span rfl
    exact arrow rfl

theorem takeChain_arrow (stop : Nat) (same : ls.map (·.token) = .arrow :: .identifier name :: ts)
    (next : ∀ t ∈ ts.head?, t ≠ .arrow) : ∃ span rest,
      takeChain stop ls = .ok ([⟨name, span⟩], rest) ∧ rest.map (·.token) = ts := by
  obtain ⟨⟨_, span⟩, ls, rfl, rfl, others⟩ := List.map_eq_cons_iff.mp same
  obtain ⟨l, rest, rfl, token, rfl⟩ := List.map_eq_cons_iff.mp others
  have ends : takeChain stop rest = .ok ([], rest) := by
    cases rest with
    | nil => rw [takeChain]
    | cons l rest =>
      rw [takeChain]
      rintro span rfl
      exact next .arrow rfl rfl
  refine ⟨l.span, rest, ?_, rfl⟩
  rw [takeChain, token]
  dsimp only [Token.name?]
  rw [ends]
  rfl

theorem takeAttributes_of_fresh (stop : Nat) (same : ls.map (·.token) = ts) (fresh : Fresh ts) :
    takeAttributes stop ls = .ok ([], ls) := by
  cases ls with
  | nil => rw [takeAttributes]
  | cons l ls =>
    subst same
    obtain ⟨_, _, bracket⟩ := fresh l.token rfl
    rw [takeAttributes, if_neg bracket]

/-- An entry of an attribute list, with an identifier as its value. -/
def entryTokens (key : List Char) (value : Token) : List Token :=
  [.identifier key, .sign '=', value]

/-- The rest of an attribute list. -/
def closingTokens : List (List Char × Token) → List Token
  | [] => [.sign ']']
  | (key, value) :: entries => .sign ',' :: (entryTokens key value ++ closingTokens entries)

theorem takeEntries_entry (stop : Nat) (separable : Bool)
    (same : ls.map (·.token) = entryTokens key t ++ ts)
    (named : t.name? = some value)
    (others : ∀ rest : List Lexeme, rest.map (·.token) = ts → ∃ found after,
      takeEntries stop true rest = .ok (found, after) ∧ after.map (·.token) = us) :
    ∃ found after, takeEntries stop separable ls = .ok ((key, value) :: found, after) ∧
      after.map (·.token) = us := by
  obtain ⟨l, ls, rfl, token, equals⟩ := List.map_eq_cons_iff.mp same
  have tail : ls.tail.map (·.token) = t :: ts := by
    rw [List.map_tail, equals]
    rfl
  obtain ⟨span, rest, taken, tokens⟩ := takeName_cons stop tail named
  obtain ⟨found, after, done, left⟩ := others rest tokens
  have valued : takeValue stop ls = .ok (value, rest) := by
    unfold takeValue
    rw [isSign_eq equals, if_pos (by decide), taken]
    rfl
  refine ⟨found, after, ?_, left⟩
  rw [takeEntries, token, if_neg (by simp), if_neg (by simp)]
  dsimp only [Token.name?]
  split
  · rename_i failed
    rw [valued] at failed
    cases failed
  · rename_i found
    rw [valued] at found
    cases found
    rw [done]
    rfl

/-- The rest of an attribute list ends it, and no other follows. -/
theorem takeEntries_closing (stop : Nat) {tail : List (List Char × Token)} (fresh : Fresh ts)
    (named : ∀ e ∈ tail, e.2.name?.isSome = true)
    (same : ls.map (·.token) = closingTokens tail ++ ts) : ∃ found after,
      takeEntries stop true ls = .ok (found, after) ∧ after.map (·.token) = ts := by
  induction tail generalizing ls with
  | nil =>
    obtain ⟨l, rest, rfl, token, rest'⟩ := List.map_eq_cons_iff.mp same
    refine ⟨[], rest, ?_, rest'⟩
    rw [takeEntries, token, if_pos rfl, takeAttributes_of_fresh stop rest' fresh]
  | cons e tail ih =>
    obtain ⟨l, rest, rfl, comma, rest'⟩ := List.map_eq_cons_iff.mp same
    obtain ⟨first, others⟩ := List.forall_mem_cons.mp named
    obtain ⟨value, valued⟩ := Option.isSome_iff_exists.mp first
    obtain ⟨found, after, done, left⟩ := takeEntries_entry stop false
      (rest'.trans (List.append_assoc (entryTokens e.1 e.2) _ ts)) valued fun _ same => ih others same
    refine ⟨(e.1, value) :: found, after, ?_, left⟩
    rw [takeEntries, comma, if_neg (by simp), if_pos ⟨rfl, .inl rfl⟩, done]

/-- An attribute list with one entry or more. -/
theorem takeAttributes_list (stop : Nat) {tail : List (List Char × Token)} (fresh : Fresh ts)
    (valued : t.name? = some value) (named : ∀ e ∈ tail, e.2.name?.isSome = true)
    (same : ls.map (·.token) = .sign '[' :: (entryTokens key t ++ (closingTokens tail ++ ts))) :
    ∃ found after, takeAttributes stop ls = .ok ((key, value) :: found, after) ∧
      after.map (·.token) = ts := by
  obtain ⟨l, rest, rfl, bracket, rest'⟩ := List.map_eq_cons_iff.mp same
  rw [takeAttributes, if_pos bracket]
  exact takeEntries_entry stop false rest' valued fun _ same =>
    takeEntries_closing stop fresh named same

/-! ### Statements -/

/-- The tokens are statements that say `sayings`, up to the end of a graph, where `depth` braces
more are open. -/
structure Yields (ts : List Token) (depth : Nat) (sayings : List Saying) : Prop where
  fresh : Fresh ts
  read (stop : Nat) {ls : List Lexeme} : ls.map (·.token) = ts → ∃ sts,
    statements stop depth ls = ⟨sts, none⟩ ∧ sts.map Statement.saying = sayings

theorem fresh_identifier (name : List Char) (ts : List Token) :
    Fresh (.identifier name :: ts) := by
  rintro _ ⟨⟩
  simp

theorem yields_end : Yields [.sign '\x7d'] 0 [] where
  fresh := by
    rintro _ ⟨⟩
    decide
  read stop ls same := by
    obtain ⟨l, rest, rfl, token, rest'⟩ := List.map_eq_cons_iff.mp same
    obtain rfl := List.map_eq_nil_iff.mp rest'
    refine ⟨[], ?_, rfl⟩
    rw [statements.eq_def]
    dsimp only
    rw [token, if_pos rfl]

/-- Tokens that begin with a name and make an item. -/
theorem statements_item {stop : Nat} {item : Item} {after : List Lexeme}
    (same : ls.map (·.token) = .identifier name :: ts)
    (taken : takeItem stop ls = .ok (item, after)) : statements stop depth ls =
      match item with
      | .defaults => statements stop depth after
      | .opening => statements stop (depth + 1) after
      | .statement s =>
        let outline := statements stop depth after
        { outline with statements := s :: outline.statements } := by
  obtain ⟨l, rest, rfl, token, _⟩ := List.map_eq_cons_iff.mp same
  rw [statements.eq_def]
  dsimp only
  rw [token, if_neg (by simp), if_neg (by simp), if_neg (by simp)]
  split
  · rename_i failed
    rw [taken] at failed
    cases failed
  all_goals
    rename_i found
    rw [taken] at found
    cases found
    rfl

namespace Yields

variable {sayings : List Saying}

/-- A sign that only changes the depth. -/
theorem sign {inner : Nat} (yields : Yields ts inner sayings) (other : c ≠ '=' ∧ c ≠ '[')
    (passes : ∀ stop (l : Lexeme) rest, l.token = .sign c →
      statements stop depth (l :: rest) = statements stop inner rest) :
    Yields (.sign c :: ts) depth sayings where
  fresh := by
    rintro _ ⟨⟩
    simpa using other
  read stop ls same := by
    obtain ⟨l, rest, rfl, token, rest'⟩ := List.map_eq_cons_iff.mp same
    rw [passes stop l rest token]
    exact yields.read stop rest'

theorem closing (yields : Yields ts depth sayings) :
    Yields (.sign '\x7d' :: ts) (depth + 1) sayings := by
  refine yields.sign (by decide) fun stop l rest token => ?_
  rw [statements.eq_def]
  dsimp only
  rw [token, if_pos rfl]

theorem opening (yields : Yields ts (depth + 1) sayings) :
    Yields (.sign '\x7b' :: ts) depth sayings := by
  refine yields.sign (by decide) fun stop l rest token => ?_
  rw [statements.eq_def]
  dsimp only
  rw [token, if_neg (by decide), if_neg (by decide), if_pos rfl]

/-- A statement in front of others. -/
theorem statement {us : List Token} {saying : Saying} (yields : Yields us depth sayings)
    (taken : ∀ stop (ls : List Lexeme), ls.map (·.token) = .identifier name :: ts → ∃ s after,
      takeItem stop ls = .ok (.statement s, after) ∧ s.saying = saying ∧
        after.map (·.token) = us) :
    Yields (.identifier name :: ts) depth (saying :: sayings) where
  fresh := fresh_identifier name ts
  read stop ls same := by
    obtain ⟨s, after, item, rfl, left⟩ := taken stop ls same
    obtain ⟨sts, done, rfl⟩ := yields.read stop left
    refine ⟨s :: sts, ?_, rfl⟩
    rw [statements_item same item]
    dsimp only
    rw [done]

theorem setting (yields : Yields ts depth sayings) (named : t.name? = some value)
    (other : name ≠ "subgraph".toList) :
    Yields (.identifier name :: .sign '=' :: t :: ts) depth (.setting name value :: sayings) := by
  refine yields.statement fun stop ls same => ?_
  obtain ⟨span, rest, first, equals⟩ := takeName_cons stop same rfl
  have tail : rest.tail.map (·.token) = t :: ts := by
    rw [List.map_tail, equals]
    rfl
  obtain ⟨span', after, second, left⟩ := takeName_cons stop tail named
  refine ⟨.attribute name value span', after, ?_, rfl, left⟩
  unfold takeItem
  rw [first]
  change (if _ then _ else _) = _
  rw [isSign_eq equals, if_neg (by simp), if_neg other, isSign_eq equals, if_pos (by decide), second]
  rfl

theorem defaults {tail : List (List Char × Token)} (yields : Yields ts depth sayings)
    (member : name ∈ ["graph".toList, "node".toList, "edge".toList])
    (valued : t.name? = some value) (named : ∀ e ∈ tail, e.2.name?.isSome = true) :
    Yields (.identifier name :: .sign '[' :: (entryTokens key t ++ (closingTokens tail ++ ts))) depth
      sayings where
  fresh := fresh_identifier name _
  read stop ls same := by
    obtain ⟨span, rest, first, bracket⟩ := takeName_cons stop same rfl
    obtain ⟨found, after, list, left⟩ :=
      takeAttributes_list stop yields.fresh valued named bracket
    have item : takeItem stop ls = .ok (.defaults, after) := by
      unfold takeItem
      rw [first]
      change (if _ then _ else _) = _
      rw [isSign_eq bracket, if_pos ⟨List.contains_iff_mem.mpr member, by decide⟩, list]
      rfl
    obtain ⟨sts, done, said⟩ := yields.read stop left
    refine ⟨sts, ?_, said⟩
    rw [statements_item same item]
    exact done

theorem node (yields : Yields ts depth sayings) (other : name ≠ "subgraph".toList) :
    Yields (.identifier name :: ts) depth (.chain [name] none :: sayings) := by
  refine yields.statement fun stop ls same => ?_
  obtain ⟨span, rest, first, left⟩ := takeName_cons stop same rfl
  obtain ⟨equals, bracket⟩ := isSign_of_fresh left yields.fresh
  refine ⟨.chain ⟨name, span⟩ [] none, rest, ?_, rfl, left⟩
  unfold takeItem
  rw [first]
  change (if _ then _ else _) = _
  rw [bracket, if_neg (by simp), if_neg other, equals, if_neg Bool.false_ne_true,
    takeChain_of_fresh stop left yields.fresh]
  dsimp only [bind, Except.bind]
  rw [takeAttributes_of_fresh stop left yields.fresh]
  rfl

/-- What stands between two nodes, the second of which the tokens `us` follow. -/
theorem takeItem_edge (stop : Nat) {source target : List Char} (other : source ≠ "subgraph".toList)
    (same : ls.map (·.token) = .identifier source :: .arrow :: .identifier target :: us)
    (next : ∀ t ∈ us.head?, t ≠ .arrow) : ∃ first last rest,
      takeItem stop ls = (do
        let (attributes, ls) ← takeAttributes stop rest
        return (Item.statement (.chain ⟨source, first⟩ [⟨target, last⟩]
          (attributes.lookup "label".toList)), ls)) ∧ rest.map (·.token) = us := by
  obtain ⟨first, rest, taken, arrow⟩ := takeName_cons stop same rfl
  obtain ⟨last, rest', chain, left⟩ := takeChain_arrow stop arrow next
  refine ⟨first, last, rest', ?_, left⟩
  unfold takeItem
  rw [taken]
  change (if _ then _ else _) = _
  rw [isSign_eq arrow, if_neg (by simp), if_neg other, isSign_eq arrow, if_neg (by decide), chain]
  rfl

theorem edge {source target : List Char} (yields : Yields ts depth sayings)
    (other : source ≠ "subgraph".toList) :
    Yields (.identifier source :: .arrow :: .identifier target :: ts) depth
      (.chain [source, target] none :: sayings) := by
  refine yields.statement fun stop ls same => ?_
  obtain ⟨first, last, rest, item, left⟩ :=
    takeItem_edge stop other same fun t next => (yields.fresh t next).1
  refine ⟨.chain ⟨source, first⟩ [⟨target, last⟩] none, rest, ?_, rfl, left⟩
  rw [item, takeAttributes_of_fresh stop left yields.fresh]
  rfl

theorem labelledEdge {source target : List Char} (yields : Yields ts depth sayings)
    (other : source ≠ "subgraph".toList) (label : List Char) :
    Yields (.identifier source :: .arrow :: .identifier target :: .sign '[' ::
      (entryTokens "label".toList (.quoted label) ++ (closingTokens [] ++ ts))) depth
      (.chain [source, target] (some label) :: sayings) := by
  refine yields.statement fun stop ls same => ?_
  obtain ⟨first, last, rest, item, left⟩ := takeItem_edge stop other same (by simp)
  obtain ⟨found, after, list, left⟩ := takeAttributes_list stop yields.fresh
    (t := .quoted label) rfl (List.forall_mem_nil _) left
  refine ⟨.chain ⟨source, first⟩ [⟨target, last⟩] (some label), after, ?_, rfl, left⟩
  rw [item, list]
  have head : ((("label".toList, label) :: found).lookup "label".toList) = some label :=
    List.lookup_cons_self
  change Except.ok (Item.statement (.chain _ _ (List.lookup _ _)), after) = _
  rw [head]

end Yields

end WeightedAutomata.Dot
