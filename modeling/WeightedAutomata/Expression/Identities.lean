import WeightedAutomata.Error
import WeightedAutomata.Text.Blank

/-!
How much expressions are simplified while they are built.
-/

namespace WeightedAutomata

inductive Identities where
  /-- Nodes stay as they are written. -/
  | none
  /-- Units, absorbing elements and weights of weights are simplified. -/
  | trivial
  /-- Also, nested sums, products, conjunctions and shuffles are flattened. -/
  | associative
  /-- Also, sums are sorted, like terms are merged and weights are lifted out of products. -/
  | linear
  /-- Also, products are distributed over sums. -/
  | distributive
  deriving DecidableEq, Repr, Inhabited

namespace Identities

def level : Identities → Nat
  | none => 0
  | trivial => 1
  | associative => 2
  | linear => 3
  | distributive => 4

/-- Whether the rules of `lower` apply. -/
def includes (ids lower : Identities) : Bool := lower.level ≤ ids.level

def text : Identities → String
  | none => "none"
  | trivial => "trivial"
  | associative => "associative"
  | linear => "linear"
  | distributive => "distributive"

/-- The level that a name stands for. -/
def ofName? (name : String) : Option Identities :=
  if name = "none" then some none
  else if name = "trivial" then some trivial
  else if name = "associative" then some associative
  else if name = "linear" ∨ name = "series" then some linear
  else if name = "distributive" then some distributive
  else .none

def parse (cs : List Char) : Result Identities :=
  let body := String.ofList (Text.trim cs)
  match ofName? body with
  | some ids => .ok ids
  | .none =>
    let span : Span := ⟨0, max 1 (String.ofList cs).utf8ByteSize⟩
    .error (.malformed span ("invalid identities: " ++ body))

end Identities

end WeightedAutomata
