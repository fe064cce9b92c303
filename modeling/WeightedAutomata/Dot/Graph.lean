import WeightedAutomata.Dot.Token

/-!
What graph descriptions say: attributes of the graph and chains of edges, in order. Subgraphs and
groups make no difference, and neither do the attributes of nodes.
-/

namespace WeightedAutomata.Dot

/-- A node where it is named. -/
structure Node where
  name : List Char
  span : Span
  deriving DecidableEq, Repr

inductive Statement where
  /-- An attribute of the graph, with the place of its value. -/
  | attribute (name value : List Char) (span : Span)
  /-- Nodes, each but the last with an edge to the next, and the label of all these edges. -/
  | chain (first : Node) (rest : List Node) (label : Option (List Char))
  deriving DecidableEq, Repr

/-- The statements up to the first place where the grammar is broken, if there is one. -/
structure Outline where
  statements : List Statement
  fault : Option Error
  deriving DecidableEq, Repr

/-- The place of the next token; `stop` is the end of the text. -/
def placeOf (stop : Nat) : List Lexeme → Span
  | [] => ⟨stop, stop⟩
  | l :: _ => l.span

/-- The error for a missing part. -/
def expected {α : Type} (stop : Nat) (what : String) (ls : List Lexeme) : Result α :=
  .error (.malformed (placeOf stop ls) ("expected " ++ what))

def isSign (c : Char) : List Lexeme → Bool
  | [] => false
  | l :: _ => l.token == .sign c

/-- Takes a name. -/
def takeName (stop : Nat) : List Lexeme → Result (Node × List Lexeme)
  | [] => expected stop "an identifier" []
  | l :: ls =>
    match l.token.name? with
    | some name => .ok (⟨name, l.span⟩, ls)
    | none => expected stop "an identifier" (l :: ls)

/-- Takes an opening brace; a name may stand before it. -/
def takeOpening (stop : Nat) (ls : List Lexeme) : Result (List Lexeme) :=
  let ls := match takeName stop ls with
    | .ok (_, rest) => rest
    | .error _ => ls
  if isSign '\x7b' ls then .ok ls.tail else expected stop "`\x7b`" ls

/-- Takes the rest of a chain of edges. -/
def takeChain (stop : Nat) : List Lexeme → Result (List Node × List Lexeme)
  | [] => .ok ([], [])
  | ⟨.arrow, _⟩ :: ls =>
    match ls with
    | [] => expected stop "an identifier" []
    | l :: ls =>
      match l.token.name? with
      | none => expected stop "an identifier" (l :: ls)
      | some name => do
        let (nodes, ls) ← takeChain stop ls
        return (⟨name, l.span⟩ :: nodes, ls)
  | l :: ls => .ok ([], l :: ls)

theorem length_of_takeName {stop : Nat} {ls rest : List Lexeme} {node : Node}
    (taken : takeName stop ls = .ok (node, rest)) : rest.length < ls.length := by
  unfold takeName at taken
  split at taken
  · cases taken
  · split at taken
    · cases taken
      simp
    · cases taken

abbrev Attributes := List (List Char × List Char)

/-- Takes the value of an attribute, which is true where none is written. -/
def takeValue (stop : Nat) (ls : List Lexeme) : Result (List Char × List Lexeme) :=
  if isSign '=' ls then (takeName stop ls.tail).map fun (value, ls) => (value.name, ls)
  else .ok ("true".toList, ls)

theorem length_of_takeValue {stop : Nat} {ls rest : List Lexeme} {value : List Char}
    (taken : takeValue stop ls = .ok (value, rest)) : rest.length ≤ ls.length := by
  unfold takeValue at taken
  split at taken
  · cases name : takeName stop ls.tail with
    | error e => simp [name, Except.map] at taken
    | ok found =>
      obtain ⟨node, after⟩ := found
      have := length_of_takeName name
      simp only [name, Except.map, Except.ok.injEq, Prod.mk.injEq] at taken
      obtain ⟨-, rfl⟩ := taken
      simp only [List.length_tail] at this
      omega
  · cases taken
    exact Nat.le_refl _

mutual

/-- Takes attribute lists, as many as there are. -/
def takeAttributes (stop : Nat) (ls : List Lexeme) : Result (Attributes × List Lexeme) :=
  match ls with
  | [] => .ok ([], [])
  | l :: rest =>
    if l.token = .sign '[' then takeEntries stop false rest else .ok ([], l :: rest)
termination_by ls.length

/-- Takes the rest of an attribute list and the lists that follow. After an entry a comma or a
semicolon may stand. -/
def takeEntries (stop : Nat) (separable : Bool) (ls : List Lexeme) :
    Result (Attributes × List Lexeme) :=
  match ls with
  | [] => expected stop "an identifier" []
  | l :: rest =>
    if l.token = .sign ']' then takeAttributes stop rest
    else if separable ∧ (l.token = .sign ',' ∨ l.token = .sign ';') then
      takeEntries stop false rest
    else
      match l.token.name? with
      | none => expected stop "an identifier" (l :: rest)
      | some key =>
        match _taken : takeValue stop rest with
        | .error e => .error e
        | .ok (value, after) =>
          (takeEntries stop true after).map fun (entries, after) => ((key, value) :: entries, after)
termination_by ls.length
decreasing_by
  · simp
  · simp
  · have := length_of_takeValue _taken
    simp only [List.length_cons]
    omega

end

/-- What a statement starts with, besides a brace or a semicolon. -/
inductive Item where
  | statement (s : Statement)
  /-- Default attributes, which say nothing about the automaton. -/
  | defaults
  /-- The opening brace of a subgraph. -/
  | opening
  deriving DecidableEq, Repr

/-- Takes a statement, or the beginning of a subgraph. -/
def takeItem (stop : Nat) (ls : List Lexeme) : Result (Item × List Lexeme) := do
  let (first, ls) ← takeName stop ls
  if ["graph".toList, "node".toList, "edge".toList].contains first.name ∧ isSign '[' ls then
    let (_, ls) ← takeAttributes stop ls
    return (.defaults, ls)
  else if first.name = "subgraph".toList then
    return (.opening, ← takeOpening stop ls)
  else if isSign '=' ls then
    let (value, ls) ← takeName stop ls.tail
    return (.statement (.attribute first.name value.name value.span), ls)
  else
    let (rest, ls) ← takeChain stop ls
    let (attributes, ls) ← takeAttributes stop ls
    return (.statement (.chain first rest (attributes.lookup "label".toList)), ls)

theorem length_of_takeOpening {stop : Nat} {ls rest : List Lexeme}
    (taken : takeOpening stop ls = .ok rest) : rest.length ≤ ls.length := by
  unfold takeOpening at taken
  cases name : takeName stop ls with
  | error e =>
    simp only [name] at taken
    split at taken
    · cases taken
      simp
    · cases taken
  | ok found =>
    obtain ⟨node, after⟩ := found
    have := length_of_takeName name
    simp only [name] at taken
    split at taken
    · cases taken
      simp
      omega
    · cases taken

theorem length_of_takeChain {stop : Nat} {ls rest : List Lexeme} {nodes : List Node}
    (taken : takeChain stop ls = .ok (nodes, rest)) : rest.length ≤ ls.length := by
  fun_induction takeChain stop ls generalizing nodes with
  | case1 => cases taken; simp
  | case2 => cases taken
  | case3 => cases taken
  | case4 span l ls name found ih =>
    cases inner : takeChain stop ls with
    | error e => simp [inner, bind, Except.bind] at taken
    | ok value =>
      simp only [inner, bind, Except.bind, pure, Except.pure, Except.ok.injEq, Prod.mk.injEq]
        at taken
      obtain ⟨-, rfl⟩ := taken
      have := ih inner
      simp only [List.length_cons]
      omega
  | case5 => cases taken; simp

theorem length_of_attributes (stop : Nat) (ls : List Lexeme) :
    (∀ found rest, takeAttributes stop ls = .ok (found, rest) → rest.length ≤ ls.length) ∧
      ∀ separable found rest, takeEntries stop separable ls = .ok (found, rest) →
        rest.length ≤ ls.length := by
  induction size : ls.length using Nat.strongRecOn generalizing ls with
  | ind n ih =>
    subst size
    cases ls with
    | nil =>
      constructor
      · intro found rest taken
        unfold takeAttributes at taken
        cases taken
        exact Nat.le_refl _
      · intro separable found rest taken
        unfold takeEntries at taken
        cases taken
    | cons l after =>
      have next := ih after.length (by simp) after rfl
      constructor
      · intro found rest taken
        unfold takeAttributes at taken
        split at taken
        · exact Nat.le_succ_of_le (next.2 _ _ _ taken)
        · cases taken
          exact Nat.le_refl _
      · intro separable found rest taken
        unfold takeEntries at taken
        split at taken
        · exact Nat.le_succ_of_le (next.1 _ _ taken)
        · split at taken
          · exact Nat.le_succ_of_le (next.2 _ _ _ taken)
          · split at taken
            · cases taken
            · split at taken
              · cases taken
              · next value following valued =>
                have shorter := length_of_takeValue valued
                cases inner : takeEntries stop true following with
                | error e => simp [inner, Except.map] at taken
                | ok result =>
                  have bound := (ih following.length (by simp; omega) following rfl).2
                    true result.1 result.2 inner
                  simp only [inner, Except.map, Except.ok.injEq, Prod.mk.injEq] at taken
                  obtain ⟨-, rfl⟩ := taken
                  simp only [List.length_cons]
                  omega

theorem length_of_takeAttributes {stop : Nat} {ls rest : List Lexeme} {found : Attributes}
    (taken : takeAttributes stop ls = .ok (found, rest)) : rest.length ≤ ls.length :=
  (length_of_attributes stop ls).1 found rest taken

theorem length_of_takeItem {stop : Nat} {ls rest : List Lexeme} {item : Item}
    (taken : takeItem stop ls = .ok (item, rest)) : rest.length < ls.length := by
  obtain ⟨⟨first, after⟩, named, taken⟩ := Result.bind_eq_ok.mp taken
  have shorter := length_of_takeName named
  dsimp only at taken
  split at taken
  · obtain ⟨⟨_, left⟩, inner, taken⟩ := Result.bind_eq_ok.mp taken
    cases taken
    have := length_of_takeAttributes inner
    dsimp only
    omega
  · split at taken
    · obtain ⟨left, inner, taken⟩ := Result.bind_eq_ok.mp taken
      cases taken
      have := length_of_takeOpening inner
      omega
    · split at taken
      · obtain ⟨⟨_, left⟩, inner, taken⟩ := Result.bind_eq_ok.mp taken
        cases taken
        have := length_of_takeName inner
        dsimp only
        simp only [List.length_tail] at this
        omega
      · obtain ⟨⟨_, middle⟩, chained, taken⟩ := Result.bind_eq_ok.mp taken
        dsimp only at taken
        obtain ⟨⟨_, left⟩, inner, taken⟩ := Result.bind_eq_ok.mp taken
        cases taken
        have := length_of_takeChain chained
        have := length_of_takeAttributes inner
        dsimp only
        omega

/-- Takes statements up to the closing brace of the graph; `depth` braces more are open. -/
def statements (stop : Nat) (depth : Nat) (ls : List Lexeme) : Outline :=
  match ls with
  | [] => ⟨[], some (.malformed ⟨stop, stop⟩ "expected `\x7d`")⟩
  | l :: rest =>
    if l.token = .sign '\x7d' then
      match depth, rest with
      | 0, [] => ⟨[], none⟩
      | 0, l :: _ => ⟨[], some (.malformed l.span "trailing input after the graph")⟩
      | depth + 1, rest => statements stop depth rest
    else if l.token = .sign ';' then statements stop depth rest
    else if l.token = .sign '\x7b' then statements stop (depth + 1) rest
    else
      match _taken : takeItem stop (l :: rest) with
      | .error e => ⟨[], some e⟩
      | .ok (.defaults, after) => statements stop depth after
      | .ok (.opening, after) => statements stop (depth + 1) after
      | .ok (.statement s, after) =>
        let outline := statements stop depth after
        { outline with statements := s :: outline.statements }
termination_by ls.length
decreasing_by
  · simp
  · simp
  · simp
  · exact length_of_takeItem _taken
  · exact length_of_takeItem _taken
  · exact length_of_takeItem _taken

/-- Takes what stands before the statements of a graph. -/
def takeHeader (stop : Nat) (ls : List Lexeme) : Result (List Lexeme) := do
  let ls := match ls with
    | ⟨.identifier name, _⟩ :: rest => if name = "strict".toList then rest else ls
    | _ => ls
  let (kind, rest) ← takeName stop ls
  if kind.name = "digraph".toList then takeOpening stop rest
  else expected stop "`digraph`" ls

/-- What the description says. -/
def outline (cs : List Char) : Result Outline := do
  let stop := byteCount cs
  let ls ← takeHeader stop (← tokenize cs)
  return statements stop 0 ls

end WeightedAutomata.Dot
