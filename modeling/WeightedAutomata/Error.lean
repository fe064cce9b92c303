/-!
The ways in which reading a text or an operation can fail, and what is said about each.
-/

namespace WeightedAutomata

/-- A stretch of a text: the places from `start` up to `stop`, which is left out. -/
structure Span where
  start : Nat
  stop : Nat
  deriving DecidableEq, Repr, Inhabited

/-- The same stretch, `offset` places further on. -/
def Span.shift (span : Span) (offset : Nat) : Span := ⟨span.start + offset, span.stop + offset⟩

/-- Line and column, as editors show them: `1.3`, or `1.3-5` for more than one place. -/
def Span.text (span : Span) : String :=
  if span.stop ≤ span.start + 1 then "1." ++ toString (span.start + 1)
  else "1." ++ toString (span.start + 1) ++ "-" ++ toString span.stop

inductive Error where
  /-- A text that does not follow its grammar. -/
  | malformed (span : Span) (message : String)
  /-- An operator that the input syntax reserves but does not offer. -/
  | unsupportedOperator (span : Span) (operator : String)
  /-- A label outside its label set, or an escape that stands for no letter. -/
  | badLabel (label reason : String)
  /-- Values of contexts that do not fit together. -/
  | incompatible (expected found : String)
  /-- An operation that the weights do not have. -/
  | unsupportedWeights (operation weights : String)
  /-- An argument outside the domain of the operation. -/
  | precondition (operation requirement : String)
  /-- A cycle of spontaneous transitions whose weight has no star. -/
  | spontaneousCycle (state : Nat) (weight : String)
  /-- A polynomial division without quotient. -/
  | notDivisible (reason : String)
  /-- An ambiguous word was asked of an automaton that has none. -/
  | unambiguous
  /-- A weight without star. -/
  | notStarable (weight : String)
  deriving DecidableEq, Repr, Inhabited

namespace Error

def message : Error → String
  | malformed span message => span.text ++ ": syntax error: " ++ message
  | unsupportedOperator span operator => span.text ++ ": unsupported operator: " ++ operator
  | badLabel label reason => "invalid label: " ++ label ++ ": " ++ reason
  | incompatible expected found =>
    "incompatible contexts: expected " ++ expected ++ ", got " ++ found
  | unsupportedWeights operation weights => operation ++ ": unsupported weightset: " ++ weights
  | precondition operation requirement => operation ++ ": " ++ requirement
  | spontaneousCycle state weight =>
    "proper: invalid spontaneous cycle on state " ++ toString state ++ " (weight " ++ weight ++ ")"
  | notDivisible reason => "ldiv: not divisible: " ++ reason
  | unambiguous => "automaton is unambiguous"
  | notStarable weight => "star: invalid value: " ++ weight

/-- The error of a part, told in places of the whole text. -/
def shift (offset : Nat) : Error → Error
  | malformed span message => malformed (span.shift offset) message
  | unsupportedOperator span operator => unsupportedOperator (span.shift offset) operator
  | other => other

/-- The first place that the error points at; errors that point nowhere count as `0`. -/
def start : Error → Nat
  | malformed span _ => span.start
  | unsupportedOperator span _ => span.start
  | _ => 0

end Error

/-- A value, or why there is none. -/
abbrev Result (α : Type) := Except Error α

/-- Tells the error of a part in places of the whole text. -/
def Result.shift {α : Type} (offset : Nat) : Result α → Result α
  | .ok value => .ok value
  | .error e => .error (e.shift offset)

/-- Whether there is a value. -/
def Result.succeeded {α : Type} : Result α → Bool
  | .ok _ => true
  | .error _ => false

theorem Result.succeeded_iff {α : Type} {x : Result α} :
    x.succeeded = true ↔ ∃ value, x = .ok value := by
  cases x with
  | ok value => exact iff_of_true rfl ⟨value, rfl⟩
  | error e => exact iff_of_false Bool.false_ne_true (fun found => nomatch found)

theorem Result.bind_eq_ok {α β : Type} {x : Result α} {f : α → Result β} {b : β} :
    (x >>= f) = .ok b ↔ ∃ a, x = .ok a ∧ f a = .ok b := by
  cases x with
  | error e => simp [bind, Except.bind]
  | ok a => simp [bind, Except.bind]

theorem Result.bind_eq_error {α β : Type} {x : Result α} {f : α → Result β} {e : Error} :
    (x >>= f) = .error e ↔ x = .error e ∨ ∃ a, x = .ok a ∧ f a = .error e := by
  cases x with
  | error e => simp [bind, Except.bind]
  | ok a => simp [bind, Except.bind]

/-- What each step keeps that succeeds, they keep one after the other. -/
theorem Result.foldlM_induction {α β : Type} {step : β → α → Result β} {P : β → Prop} {xs : List α}
    {b r : β} (steps : ∀ x ∈ xs, ∀ b next, P b → step b x = .ok next → P next) (start : P b)
    (done : xs.foldlM step b = .ok r) : P r := by
  induction xs generalizing b with
  | nil =>
    cases done
    exact start
  | cons x xs ih =>
    obtain ⟨first, others⟩ := List.forall_mem_cons.mp steps
    rw [List.foldlM_cons] at done
    obtain ⟨next, stepped, done⟩ := Result.bind_eq_ok.mp done
    exact ih others (first b next start stepped) done

end WeightedAutomata
