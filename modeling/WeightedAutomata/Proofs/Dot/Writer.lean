import WeightedAutomata.Proofs.Dot.Graph
import WeightedAutomata.Proofs.Dot.Token
import WeightedAutomata.Proofs.Weights.Spelling

/-! What the description of an automaton yields, line by line. -/

namespace WeightedAutomata

namespace Dot

variable {cs : List Char} {ts : List Token} {depth depth' depth'' : Nat}
variable {lines lines' : List String} {sayings sayings' : List Saying} {line : String}

/-! ### Lines -/

/-- The text yields `sayings`, up to the end of a graph, where `depth` braces more are open. -/
def Tells (cs : List Char) (depth : Nat) (sayings : List Saying) : Prop :=
  ∃ ts, Renders cs ts ∧ Yields ts depth sayings

/-- Lines as they follow each other. -/
def unlines (lines : List String) : List Char := lines.flatMap fun line => line.toList ++ ['\n']

/-- The lines say `sayings`; `depth` braces are open before them, and `depth'` after them. -/
def Lines (lines : List String) (depth depth' : Nat) (sayings : List Saying) : Prop :=
  ∀ cs others, Tells cs depth' others → Tells (unlines lines ++ cs) depth (sayings ++ others)

theorem lines_nil : Lines [] depth depth [] := fun _ _ tells => tells

theorem Lines.append (first : Lines lines depth depth' sayings)
    (second : Lines lines' depth' depth'' sayings') :
    Lines (lines ++ lines') depth depth'' (sayings ++ sayings') := by
  intro cs others tells
  rw [unlines, List.flatMap_append, List.append_assoc, List.append_assoc]
  exact first _ _ (second _ _ tells)

theorem lines_flatMap {α : Type} {xs : List α} {f : α → List String} {g : α → List Saying}
    (each : ∀ x ∈ xs, Lines (f x) depth depth (g x)) :
    Lines (xs.flatMap f) depth depth (xs.flatMap g) := by
  induction xs with
  | nil => exact lines_nil
  | cons x xs ih =>
    obtain ⟨first, others⟩ := List.forall_mem_cons.mp each
    exact first.append (ih others)

theorem lines_map {α : Type} {xs : List α} {f : α → String} {g : α → Saying}
    (each : ∀ x ∈ xs, Lines [f x] depth depth [g x]) :
    Lines (xs.map f) depth depth (xs.map g) := by
  rw [← List.flatMap_singleton' (xs.map f), ← List.flatMap_singleton' (xs.map g), List.flatMap_map,
    List.flatMap_map]
  exact lines_flatMap each

/-- One line, from its tokens. -/
theorem lines_single (text : line.toList = cs) (renders : Renders cs ts)
    (yields : ∀ us others, Yields us depth' others → Yields (ts ++ us) depth (sayings ++ others)) :
    Lines [line] depth depth' sayings := by
  rintro after others ⟨us, rest, said⟩
  have front : unlines [line] ++ after = cs ++ '\n' :: after := by
    simp [unlines, text]
  rw [front]
  exact ⟨ts ++ us, renders.append rest, yields us others said⟩

/-- One line of names, signs and gaps. -/
theorem lines_plain
    (plain : (line.toList.all fun c => isNameChar c || isGap c || signs.contains c) = true)
    (yields : ∀ us others, Yields us depth' others →
      Yields (plainTokens line.toList ++ us) depth (sayings ++ others)) :
    Lines [line] depth depth' sayings :=
  lines_single rfl (renders_plainTokens plain) yields

theorem lines_opening : Lines ["  \x7b"] depth (depth + 1) [] :=
  lines_plain (by decide +kernel) fun _ _ yields => yields.opening

theorem lines_closing : Lines ["  \x7d"] (depth + 1) depth [] :=
  lines_plain (by decide +kernel) fun _ _ yields => yields.closing

/-- A line of default attributes, one or more. -/
theorem lines_defaults (name : String) (first : String × String) (others : List (String × String))
    (plain : (line.toList.all fun c => isNameChar c || isGap c || signs.contains c) = true)
    (member : name.toList ∈ ["graph".toList, "node".toList, "edge".toList])
    (tokens : plainTokens line.toList = .identifier name.toList :: .sign '[' ::
      (entryTokens first.1.toList (.identifier first.2.toList) ++
        closingTokens (others.map fun e => (e.1.toList, .identifier e.2.toList)))) :
    Lines [line] depth depth [] := by
  refine lines_plain plain fun us _ yields => ?_
  rw [tokens, List.cons_append, List.cons_append, List.append_assoc]
  refine yields.defaults member rfl fun e listed => ?_
  obtain ⟨_, _, rfl⟩ := List.mem_map.mp listed
  rfl

/-! ### Names and strings -/

/-- Whether the text can be a name of a node. -/
def IsName (n : String) : Prop :=
  n.toList ≠ [] ∧ n.toList.all isNameChar = true ∧ n.toList ≠ "subgraph".toList

theorem Renders.name {n : String} (renders : Renders cs ts) (named : IsName n)
    (ends : EndsName cs) : Renders (n.toList ++ cs) (.identifier n.toList :: ts) :=
  renders.identifier named.1 named.2.1 ends

theorem Renders.quote (renders : Renders cs ts) (text : String) :
    Renders ((quote text).toList ++ cs) (.quoted text.toList :: ts) := by
  have string : (Dot.quote text).toList ++ cs =
      '"' :: (text.toList.flatMap quotedChar ++ '"' :: cs) := by
    rw [Dot.quote, String.toList_ofList, List.cons_append, List.cons_append, List.append_assoc]
    rfl
  rw [string]
  exact renders.quoted text.toList

theorem Renders.blank (renders : Renders cs ts) : Renders (' ' :: cs) ts := renders.gap rfl

theorem endsName_blank : EndsName (' ' :: cs) := by
  rintro _ ⟨⟩
  rfl

/-- The line that sets a graph attribute to a text. -/
theorem lines_setting {n : String} (named : IsName n) (text : String) :
    Lines ["  " ++ n ++ " = " ++ quote text] depth depth [.setting n.toList text.toList] := by
  have line : ("  " ++ n ++ " = " ++ quote text).toList =
      ' ' :: ' ' :: (n.toList ++ ' ' :: '=' :: ' ' :: ((quote text).toList ++ [])) := by
    simp
  have value : Renders ((quote text).toList ++ []) [.quoted text.toList] := .quote .nil text
  have renders : Renders _ [.identifier n.toList, .sign '=', .quoted text.toList] :=
    .blank (.blank (.name (.blank (.sign (by decide) (.blank value))) named
      endsName_blank))
  exact lines_single line renders fun _ _ yields => yields.setting rfl named.2.2

/-- The line that names a node. -/
theorem lines_node {n : String} (named : IsName n)
    (text : line.toList = ' ' :: ' ' :: ' ' :: ' ' :: n.toList) :
    Lines [line] depth depth [.chain [n.toList] none] := by
  have name : Renders (n.toList ++ []) [.identifier n.toList] := .name .nil named nofun
  rw [List.append_nil] at name
  exact lines_single text name.blank.blank.blank.blank fun _ _ yields => yields.node named.2.2

section

variable {source target : String} (fromName : IsName source) (toName : IsName target)

include fromName toName

/-- The beginning of an edge. -/
theorem renders_arrow (renders : Renders cs ts) (ends : EndsName cs) :
    Renders (' ' :: ' ' :: (source.toList ++ ' ' :: '-' :: '>' :: ' ' :: (target.toList ++ cs)))
      (.identifier source.toList :: .arrow :: .identifier target.toList :: ts) :=
  .blank (.blank (.name (.blank (.arrow (.blank (.name renders toName ends)))) fromName
    endsName_blank))

theorem lines_edge (label : String) : Lines [edge source target label] depth depth
    [.chain [source.toList, target.toList] (some label.toList)] := by
  have line : (edge source target label).toList = ' ' :: ' ' :: (source.toList ++ ' ' :: '-' ::
      '>' :: ' ' :: (target.toList ++ ' ' :: '[' :: ("label".toList ++ ' ' :: '=' :: ' ' ::
        ((quote label).toList ++ [']'])))) := by
    simp [edge]
  have labelName : IsName "label" := by
    refine ⟨?_, ?_, ?_⟩ <;> decide +kernel
  have value : Renders ((quote label).toList ++ [']']) [.quoted label.toList, .sign ']'] :=
    .quote (.sign (by decide) .nil) label
  have list : Renders _ (.sign '[' :: (entryTokens "label".toList (.quoted label.toList) ++
      closingTokens [])) :=
    .sign (by decide) (.name (.blank (.sign (by decide) (.blank value))) labelName
      endsName_blank)
  exact lines_single line (renders_arrow fromName toName (.blank list) endsName_blank)
    fun _ _ yields => yields.labelledEdge fromName.2.2 label.toList

/-- What an edge from or to an invisible node says. -/
def outerSaying (source target weight : String) : Saying :=
  .chain [source.toList, target.toList] (if weight.isEmpty then none else some weight.toList)

theorem lines_outerEdge (weight : String) :
    Lines [outerEdge source target weight] depth depth [outerSaying source target weight] := by
  unfold outerEdge outerSaying
  split
  · have line : ("  " ++ source ++ " -> " ++ target).toList = ' ' :: ' ' :: (source.toList ++
        ' ' :: '-' :: '>' :: ' ' :: (target.toList ++ [])) := by
      simp
    exact lines_single line (renders_arrow fromName toName .nil nofun)
      fun _ _ yields => yields.edge fromName.2.2
  · exact lines_edge fromName toName weight

end

end Dot

open Dot

/-! ### Names of states -/

theorem State.isName_text (s : State) : IsName s.text := by
  unfold State.text
  split
  · refine ⟨?_, ?_, ?_⟩ <;> decide +kernel
  · split
    · refine ⟨?_, ?_, ?_⟩ <;> decide +kernel
    · have digits : (toString s.number).toList = Nat.toDigits 10 s.number := Nat.toList_repr
      have named : ∀ c ∈ Nat.toDigits 10 s.number, isNameChar c = true := by
        intro c member
        have digit := Nat.isDigit_of_mem_toDigits (by decide) (by decide) member
        simp [isNameChar, Char.isAlphanum, digit]
      unfold IsName
      rw [digits]
      refine ⟨Nat.toDigits_ne_nil, List.all_eq_true.mpr named, fun same => ?_⟩
      have letter : 's' ∈ Nat.toDigits 10 s.number := by
        rw [same]
        decide
      exact absurd (Text.isDigit_of_mem_toDigits letter) (by decide)

/-- The name of an invisible node. -/
theorem Dot.IsName.invisible {n m : String} {c : Char} (named : IsName n)
    (text : m.toList = c :: n.toList) (capital : c = 'I' ∨ c = 'F') : IsName m := by
  obtain ⟨_, all, _⟩ := named
  have first : isNameChar c = true ∧ c ≠ 's' := by
    rcases capital with rfl | rfl <;> decide
  unfold IsName
  rw [text]
  refine ⟨List.cons_ne_nil c _, ?_, fun same => ?_⟩
  · rw [List.all_cons, first.1, all]
    rfl
  · have letters : "subgraph".toList = 's' :: "ubgraph".toList := by simp
    rw [letters] at same
    exact first.2 (List.cons.inj same).1

theorem State.isName_initial (s : State) : IsName ("I" ++ s.text) :=
  s.isName_text.invisible (c := 'I') (by simp) (.inl rfl)

theorem State.isName_final (s : State) : IsName ("F" ++ s.text) :=
  s.isName_text.invisible (c := 'F') (by simp) (.inr rfl)

namespace Automaton

variable {K : Type} [Weights K] (a : Automaton K) (s : State)

/-- The states that follow a state. -/
def ends : List State :=
  (a.successors s).foldl (fun ends tr => State.insert tr.target ends) []

/-- What the edges that leave a state say. -/
def departures : List Saying :=
  (if a.isFinal s then [outerSaying s.text ("F" ++ s.text) (coefficient .ascii (a.finalWeight s))]
    else []) ++
  (a.ends s).map fun d => .chain [s.text.toList, d.text.toList]
    (some (edgeLabel .ascii ((a.successors s).filter (·.target == d))).toList)

/-- What the description of an automaton says. -/
def dotSayings : List Saying :=
  [.setting "vcsn_context".toList a.contextText.toList, .setting "rankdir".toList "LR".toList] ++
  (a.initialStates.map (fun s => .chain [("I" ++ s.text).toList] none) ++
  (a.finalStates.map (fun s => .chain [("F" ++ s.text).toList] none) ++
  (a.stateList.map (fun s => .chain [s.text.toList] none) ++
  (a.initialStates.map (fun s =>
    outerSaying ("I" ++ s.text) s.text (coefficient .ascii (a.initialWeight s))) ++
  a.stateList.flatMap a.departures))))

/-- The lines between the outer braces. -/
def innerLines : List String :=
  ["  vcsn_context = " ++ quote a.contextText, "  rankdir = " ++ "LR",
    "  edge [" ++ "arrowhead = vee, arrowsize = .6" ++ "]", "  \x7b",
    "    node [shape = point, width = 0]"] ++
  (a.initialStates.map (fun s => "    I" ++ s.text) ++
  (a.finalStates.map (fun s => "    F" ++ s.text) ++
  (["  \x7d", "  \x7b",
    "    node [shape = " ++ "circle" ++ ", style = " ++ "rounded" ++ ", width = 0.5]"] ++
  (a.stateList.map (fun s => "    " ++ s.text) ++
  (["  \x7d"] ++
  (a.initialStates.map (fun s =>
    outerEdge ("I" ++ s.text) s.text (coefficient .ascii (a.initialWeight s))) ++
  a.stateList.flatMap (a.edgesFrom {})))))))

theorem dotLines_eq : a.dotLines {} = ["digraph", "\x7b"] ++ (a.innerLines ++ ["\x7d"]) := by
  simp [dotLines, innerLines]

theorem lines_edgesFrom : Lines (a.edgesFrom {} s) depth depth (a.departures s) := by
  have final : Lines (if a.isFinal s then
      [outerEdge s.text ("F" ++ s.text) (coefficient .ascii (a.finalWeight s))] else []) depth depth
      (if a.isFinal s then
        [outerSaying s.text ("F" ++ s.text) (coefficient .ascii (a.finalWeight s))] else []) := by
    split
    · exact lines_outerEdge s.isName_text s.isName_final _
    · exact lines_nil
  exact final.append (lines_map fun d _ => lines_edge s.isName_text d.isName_text _)

theorem lines_innerLines : Lines a.innerLines 0 0 a.dotSayings := by
  have context : Lines ["  vcsn_context = " ++ quote a.contextText] 0 0
      [.setting "vcsn_context".toList a.contextText.toList] := by
    have named : IsName "vcsn_context" := by
      refine ⟨?_, ?_, ?_⟩ <;> decide +kernel
    exact lines_setting named a.contextText
  have direction : Lines ["  rankdir = " ++ "LR"] 0 0
      [.setting "rankdir".toList "LR".toList] :=
    lines_plain (by decide +kernel) fun _ _ yields =>
      yields.setting (t := .identifier "LR".toList) rfl (by decide)
  have edges : Lines ["  edge [" ++ "arrowhead = vee, arrowsize = .6" ++ "]"] 0 0 [] :=
    lines_defaults "edge" ("arrowhead", "vee") [("arrowsize", ".6")] (by decide +kernel) (by simp)
      (by decide +kernel)
  have points : Lines ["    node [shape = point, width = 0]"] 1 1 [] :=
    lines_defaults "node" ("shape", "point") [("width", "0")] (by decide +kernel) (by simp)
      (by decide +kernel)
  have circles : Lines ["    node [shape = " ++ "circle" ++ ", style = " ++ "rounded" ++
      ", width = 0.5]"] 1 1 [] :=
    lines_defaults "node" ("shape", "circle") [("style", "rounded"), ("width", "0.5")]
      (by decide +kernel) (by simp) (by decide +kernel)
  have initials : Lines (a.initialStates.map fun s => "    I" ++ s.text) 1 1
      (a.initialStates.map fun s => .chain [("I" ++ s.text).toList] none) :=
    lines_map fun s _ => lines_node s.isName_initial (by simp)
  have finals : Lines (a.finalStates.map fun s => "    F" ++ s.text) 1 1
      (a.finalStates.map fun s => .chain [("F" ++ s.text).toList] none) :=
    lines_map fun s _ => lines_node s.isName_final (by simp)
  have states : Lines (a.stateList.map fun s => "    " ++ s.text) 1 1
      (a.stateList.map fun s => .chain [s.text.toList] none) :=
    lines_map fun s _ => lines_node s.isName_text (by simp)
  have header := context.append (direction.append (edges.append (lines_opening.append points)))
  have between := lines_closing.append (lines_opening.append circles)
  have arrows : Lines (a.initialStates.map fun s =>
      outerEdge ("I" ++ s.text) s.text (coefficient .ascii (a.initialWeight s))) 0 0
      (a.initialStates.map fun s =>
        outerSaying ("I" ++ s.text) s.text (coefficient .ascii (a.initialWeight s))) :=
    lines_map fun s _ => lines_outerEdge s.isName_initial s.isName_text _
  have leaving : Lines (a.stateList.flatMap (a.edgesFrom {})) 0 0
      (a.stateList.flatMap a.departures) :=
    lines_flatMap fun s _ => a.lines_edgesFrom s
  exact header.append (initials.append (finals.append (between.append (states.append
    (lines_closing.append (arrows.append leaving))))))

/-- The description of an automaton is read without a fault. -/
theorem outline_dot : ∃ sts, Dot.outline (a.dot {}).toList = .ok ⟨sts, none⟩ ∧
    sts.map Statement.saying = a.dotSayings := by
  have last : Tells ['\x7d', '\n'] 0 [] :=
    ⟨_, .sign (by decide) (.gap rfl .nil), yields_end⟩
  obtain ⟨ts, inner, yields⟩ := a.lines_innerLines _ _ last
  have text : (a.dot {}).toList =
      "digraph".toList ++ '\n' :: '\x7b' :: '\n' :: (unlines a.innerLines ++ ['\x7d', '\n']) := by
    unfold dot unlines
    rw [String.toList_join, dotLines_eq]
    simp [List.flatMap_map]
  have named : IsName "digraph" := by
    refine ⟨?_, ?_, ?_⟩ <;> decide +kernel
  have ends : EndsName ('\n' :: '\x7b' :: '\n' :: (unlines a.innerLines ++ ['\x7d', '\n'])) := by
    rintro _ ⟨⟩
    rfl
  have whole : Renders (a.dot {}).toList
      (.identifier "digraph".toList :: .sign '\x7b' :: ts) := by
    rw [text]
    exact .name (.gap rfl (.sign (by decide) (inner.gap rfl))) named ends
  obtain ⟨ls, cut, tokens⟩ := whole.tokenizeRest (byteCount (a.dot {}).toList)
  obtain ⟨⟨_, span⟩, ls, rfl, rfl, others⟩ := List.map_eq_cons_iff.mp tokens
  obtain ⟨⟨_, span'⟩, ls, rfl, rfl, same⟩ := List.map_eq_cons_iff.mp others
  obtain ⟨sts, done, said⟩ := yields.read (byteCount (a.dot {}).toList) same
  have header (stop : Nat) : takeHeader stop
      (⟨.identifier "digraph".toList, span⟩ :: ⟨.sign '\x7b', span'⟩ :: ls) = .ok ls := rfl
  refine ⟨sts, ?_, said.trans (List.append_nil _)⟩
  unfold Dot.outline tokenize
  rw [cut]
  dsimp only [bind, Except.bind]
  rw [header]
  exact congrArg Except.ok done

end Automaton

end WeightedAutomata
