import WeightedAutomata.Automaton.Reach

/-!
Automata as graph descriptions that layout programs draw. The context is an attribute of the graph,
initial and final weights are edges from and to nodes that stay invisible, and all transitions from
one state to another share an edge.
-/

namespace WeightedAutomata

namespace Dot

/-- How a drawing looks: the direction of reading, the nodes, the edges, and the signs in weights. -/
structure Layout where
  direction : String := "LR"
  shape : String := "circle"
  style : String := "rounded"
  edges : String := "arrowhead = vee, arrowsize = .6"
  weights : Style := .ascii
  deriving Repr

/-- The character inside a quoted string. -/
def quotedChar (c : Char) : List Char := if c = '"' ∨ c = '\\' then ['\\', c] else [c]

/-- A text as a string: quotes and backslashes follow a backslash. -/
def quote (text : String) : String :=
  String.ofList ('"' :: text.toList.flatMap quotedChar ++ ['"'])

/-- An edge with a label. -/
def edge (source target label : String) : String :=
  "  " ++ source ++ " -> " ++ target ++ " [label = " ++ quote label ++ "]"

/-- An edge from or to an invisible node. Without a weight it has no label. -/
def outerEdge (source target weight : String) : String :=
  if weight.isEmpty then "  " ++ source ++ " -> " ++ target else edge source target weight

end Dot

namespace Automaton

variable {K : Type} [Weights K]

/-- The descriptor of the context of the automaton. -/
def contextText (a : Automaton K) : String := a.labels.text ++ ", " ++ Weights.name K

/-- A weight in front of a label; one is left out. -/
def coefficient (style : Style) (w : K) : String :=
  if Weights.isOne w then "" else "<" ++ Weights.format style w ++ ">"

/-- The label of the edge that the transitions share. -/
def edgeLabel (style : Style) (trs : List (Transition K)) : String :=
  let sorted := trs.mergeSort fun t u => (t.order u).isLE
  ", ".intercalate (sorted.map fun tr => coefficient style tr.weight ++ tr.label.text)

/-- The edges that leave a state: to its final node, then to each state that follows. -/
def edgesFrom (layout : Dot.Layout) (a : Automaton K) (s : State) : List String :=
  let final :=
    if a.isFinal s then
      [Dot.outerEdge s.text ("F" ++ s.text) (coefficient layout.weights (a.finalWeight s))]
    else []
  let followers := a.successors s
  let ends := followers.foldl (fun ends tr => State.insert tr.target ends) []
  final ++ ends.map fun d =>
    Dot.edge s.text d.text (edgeLabel layout.weights (followers.filter (·.target == d)))

/-- The description, line by line. -/
def dotLines (layout : Dot.Layout) (a : Automaton K) : List String :=
  ["digraph", "\x7b", "  vcsn_context = " ++ Dot.quote a.contextText,
    "  rankdir = " ++ layout.direction, "  edge [" ++ layout.edges ++ "]",
    "  \x7b", "    node [shape = point, width = 0]"]
  ++ a.initialStates.map (fun s => "    I" ++ s.text)
  ++ a.finalStates.map (fun s => "    F" ++ s.text)
  ++ ["  \x7d", "  \x7b",
    "    node [shape = " ++ layout.shape ++ ", style = " ++ layout.style ++ ", width = 0.5]"]
  ++ a.stateList.map (fun s => "    " ++ s.text)
  ++ ["  \x7d"]
  ++ a.initialStates.map (fun s =>
    Dot.outerEdge ("I" ++ s.text) s.text (coefficient layout.weights (a.initialWeight s)))
  ++ a.stateList.flatMap (edgesFrom layout a)
  ++ ["\x7d"]

/-- The automaton as a graph description. -/
def dot (layout : Dot.Layout) (a : Automaton K) : String :=
  String.join ((a.dotLines layout).map (· ++ "\n"))

end Automaton

end WeightedAutomata
