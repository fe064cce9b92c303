import WeightedAutomata.Automaton.Copy

/-!
Single tapes of automata with several.
-/

namespace WeightedAutomata

/-- The label on one tape; special labels stay. -/
def Label.onTape (i : Nat) (l : Label) : Result Label :=
  match l with
  | .special => .ok .special
  | .tuple tapes =>
    match tapes[i]? with
    | some label => .ok label
    | none => .error (.badLabel l.text "missing tape")
  | _ => .error (.badLabel l.text "not a tuple")

/-- The automaton that reads one tape only. Transitions that agree on that tape are merged. -/
def Automaton.project {K : Type} [Weights K] (i : Nat) (a : Automaton K) : Result (Automaton K) :=
  match a.labels with
  | .tuple tapes =>
    match tapes[i]? with
    | some labels => a.copyInto labels (fun _ => true) fun l w => return (← l.onTape i, w)
    | none =>
      .error (.precondition "blind"
        ("tape " ++ toString i ++ " out of range for " ++ a.labels.text))
  | labels => .error (.precondition "blind" (labels.text ++ " is not a tuple labelset"))

end WeightedAutomata
