/-!
Finite sums: lists of keys with coefficients, in increasing order of the keys.
-/

namespace WeightedAutomata

abbrev Terms (α β : Type) := List (α × β)

namespace Terms

variable {α β : Type} [Ord α]

/-- The coefficient of a key. -/
def get? (key : α) (terms : Terms α β) : Option β :=
  (terms.find? fun (k, _) => compare key k == .eq).map (·.2)

/-- Changes the coefficient of a key; without coefficient there is no term. Of two keys at the same
place in the order, the term has the new one. -/
def update (key : α) (change : Option β → Option β) : Terms α β → Terms α β
  | [] => (change none).toList.map (key, ·)
  | (k, b) :: rest =>
    match compare key k with
    | .lt => (change none).toList.map (key, ·) ++ (k, b) :: rest
    | .eq => (change (some b)).toList.map (key, ·) ++ rest
    | .gt => (k, b) :: update key change rest

/-- Removes the term of a key. -/
def erase (key : α) (terms : Terms α β) : Terms α β := update key (fun _ => none) terms

end Terms

end WeightedAutomata
