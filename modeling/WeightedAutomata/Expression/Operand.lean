import WeightedAutomata.Expression.Build
import WeightedAutomata.Text.Cursor

/-!
Parts of expressions that all input dialects read alike: single letters, letter classes and the
bounds of repetitions.
-/

namespace WeightedAutomata.ExpressionSet

open Text Text.Reader

variable {K : Type} [Weights K]

/-- The atom of a letter that was read from `start` on. -/
def letterAtom (s : ExpressionSet) (c : Char) (start : Nat) : Reader (Exp K) := do
  if s.labels.isTuple then failSince start "expected a tuple, as in `a|x`"
  else
    let l := s.labels.letter c
    lift (s.labels.check l)
    return s.atom l

/-- Takes one letter of a class, escaped or not. -/
def classLetter : Reader Char := do
  match (← get).rest with
  | '\\' :: _ => escapedLetter
  | c :: _ => do
    advance 1
    return c
  | [] => failHere "unexpected end of input"

/-- Takes the letters and intervals of a class, up to its closing bracket. -/
def classLetters (start : Nat) : Nat → Reader (List Char)
  | 0 => failSince start "missing `]`"
  | fuel + 1 => do
    match (← get).rest with
    | [] => failSince start "missing `]`"
    | ']' :: _ =>
      advance 1
      return []
    | _ =>
      let first ← classLetter
      match (← get).rest with
      | '-' :: d :: _ =>
        if d = ']' then return first :: (← classLetters start fuel)
        else
          advance 1
          let last ← classLetter
          if last < first then
            failSince start ("invalid letter interval: " ++ String.ofList [first] ++ "-" ++
              String.ofList [last])
          else return Letter.interval first last ++ (← classLetters start fuel)
      | _ => return first :: (← classLetters start fuel)

/-- The alphabet of a label set of one tape. -/
def alphabet? (s : ExpressionSet) : Option Alphabet :=
  match s.labels with
  | .letters a | .nullable a | .words a => some a
  | .tuple _ => none

/-- The sum of the atoms of letters. -/
def letterSum (s : ExpressionSet) : List Char → Exp K → Result (Exp K)
  | [], acc => .ok acc
  | c :: cs, acc => do
    s.labels.check (s.labels.letter c)
    letterSum s cs (s.add acc (s.atom (s.labels.letter c)))

/-- Takes a letter class, the cursor being after its opening bracket. -/
def letterClass (s : ExpressionSet) (start : Nat) : Reader (Exp K) := do
  let negated := (← peek) == some '^'
  if negated then advance 1
  let letters ← classLetters start (← get).rest.length.succ
  match s.alphabet? with
  | none => failSince start "letter class in a multi-tape context"
  | some alphabet =>
    if negated && alphabet.isOpen then failSince start "negated class over an open alphabet"
    else
      let chosen := if negated then alphabet.letters.filter (!letters.contains ·) else letters
      let e ← lift (s.letterSum chosen .zero)
      if e.isZero then failSince start "invalid empty letter class" else return e

/-- Reads the bounds of a repetition: `n`, `m,n`, `m,` or `,n`. -/
def bounds (body : List Char) (span : Span) : Result (Nat × Option Nat) := do
  let shown := "\x7b" ++ String.ofList body ++ "\x7d"
  let number (cs : List Char) : Result Nat :=
    match count64? (trim cs) with
    | some n => .ok n
    | none => .error (.malformed span ("invalid repetition: " ++ shown))
  match splitOnce ',' body with
  | none =>
    let n ← number body
    return (n, some n)
  | some (low, high) =>
    let min ← if (trim low).isEmpty then pure 0 else number low
    let max ← if (trim high).isEmpty ∨ trim high = ['-', '1'] then pure none
      else some <$> number high
    if max.any (· < min) then
      .error (.malformed span ("invalid repetition bounds: " ++ shown))
    else return (min, max)

end WeightedAutomata.ExpressionSet
