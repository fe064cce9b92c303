import WeightedAutomata.Expression.Operand

/-!
Reading expressions in the POSIX dialects of regular expressions. In the basic dialect the operators
`|`, `(`, `)` and the braces stand after a backslash, and `+` and `?` are letters.
-/

namespace WeightedAutomata

/-- The two POSIX dialects. -/
inductive Posix where
  | extended
  | basic
  deriving DecidableEq, Repr

namespace ExpressionSet

open Text Text.Reader

variable {K : Type} [Weights K]

/-- The number of characters of the operator `op`, if it stands here. -/
def operatorLength? (dialect : Posix) (op : Char) (rest : List Char) : Option Nat :=
  match dialect, rest with
  | .basic, '\\' :: c :: _ => if c = op then some 2 else none
  | .extended, c :: _ => if c = op then some 1 else none
  | _, _ => none

/-- Splits at `\}`. -/
def splitInterval : List Char → Option (List Char × List Char)
  | [] => none
  | '\\' :: '\x7d' :: rest => some ([], rest)
  | c :: rest => (splitInterval rest).map fun (body, rest) => (c :: body, rest)

/-- Takes the body of an interval of the basic dialect that starts at `start`. -/
def basicInterval (start : Nat) : Reader (List Char) := fun c =>
  match splitInterval c.rest with
  | some (body, rest) => .ok body ⟨c.pos + body.length + 2, rest⟩
  | none => .error (.malformed ⟨start, c.total⟩ "missing `\\\x7d`") (c.advance c.rest.length)

/-- Applies the bounds of an interval. -/
def repeated (s : ExpressionSet) (start : Nat) (body : List Char) (e : Exp K) :
    Reader (Exp K) := do
  let (min, max) ← lift (bounds body ((← get).since start))
  lift (s.power e min max)

/-- Takes the repetitions of an operand. -/
def repetitions (s : ExpressionSet) (dialect : Posix) : Nat → Exp K → Reader (Exp K)
  | 0, e => return e
  | fuel + 1, e => do
    let start ← position
    match dialect, (← get).rest with
    | _, '*' :: _ =>
      advance 1
      repetitions s dialect fuel (s.star e)
    | .extended, '+' :: _ =>
      advance 1
      repetitions s dialect fuel (← lift (s.power e 1 none))
    | .extended, '?' :: _ =>
      advance 1
      repetitions s dialect fuel (← lift (s.power e 0 (some 1)))
    | .extended, '\x7b' :: _ =>
      advance 1
      let body ← delimited '\x7b' '\x7d'
      repetitions s dialect fuel (← s.repeated start body e)
    | .basic, '\\' :: '\x7b' :: _ =>
      advance 2
      let body ← basicInterval start
      repetitions s dialect fuel (← s.repeated start body e)
    | _, _ => return e

/-- The sum of all labels. -/
def anyLabel (s : ExpressionSet) (start : Nat) : Result (Exp K) :=
  match s.labels.generators? with
  | some labels => .ok (s.sum (labels.map s.atom))
  | none => .error (.malformed ⟨start, start + 1⟩ "`.` needs a closed alphabet")

/-- The characters that no escape makes a letter. -/
def unsupportedEscapes : List Char := ['b', 'B', '<', '>', '`', '\'']

mutual

/-- Takes alternatives with `|` between them. -/
def readAlternatives (dialect : Posix) (s : ExpressionSet) : Nat → Reader (Exp K)
  | 0 => failHere "expression too deep"
  | fuel + 1 => do
    readMoreAlternatives dialect s fuel (← readConcatenation dialect s fuel .one)

/-- Takes the alternatives that follow `acc`. -/
def readMoreAlternatives (dialect : Posix) (s : ExpressionSet) : Nat → Exp K → Reader (Exp K)
  | 0, _ => failHere "expression too deep"
  | fuel + 1, acc => do
    match operatorLength? dialect '|' (← get).rest with
    | some n =>
      advance n
      let e ← readConcatenation dialect s fuel .one
      readMoreAlternatives dialect s fuel (s.add acc e)
    | none => return acc

/-- Takes the factors that follow `acc`. -/
def readConcatenation (dialect : Posix) (s : ExpressionSet) : Nat → Exp K → Reader (Exp K)
  | 0, _ => failHere "expression too deep"
  | fuel + 1, acc => do
    let rest := (← get).rest
    if rest.isEmpty || (operatorLength? dialect '|' rest).isSome ||
        (operatorLength? dialect ')' rest).isSome then
      return acc
    else
      let e ← readUnit dialect s fuel
      let e ← repetitions s dialect (← get).rest.length e
      readConcatenation dialect s fuel (s.mul acc e)

/-- Takes a letter, a class or a group. -/
def readUnit (dialect : Posix) (s : ExpressionSet) : Nat → Reader (Exp K)
  | 0 => failHere "expression too deep"
  | fuel + 1 => do
    let start ← position
    match operatorLength? dialect '(' (← get).rest with
    | some n =>
      advance n
      let e ← readAlternatives dialect s fuel
      match operatorLength? dialect ')' (← get).rest with
      | some n =>
        advance n
        return e
      | none =>
        let stop ← position
        throw (.malformed ⟨stop, stop + n⟩ "expected closing group")
    | none =>
      match (← get).rest with
      | [] => failHere "unexpected end of input"
      | '[' :: _ =>
        advance 1
        s.letterClass start
      | '.' :: _ =>
        advance 1
        lift (s.anyLabel start)
      | '\\' :: c :: _ =>
        if unsupportedEscapes.contains c then
          throw (.unsupportedOperator ⟨start, start + 2⟩ (String.ofList ['\\', c]))
        else if dialect = .basic ∧ c = '\x7b' then
          throw (.malformed ⟨start, start + 2⟩ "unexpected `\\\x7b`")
        else
          let c ← escapedLetter
          s.letterAtom c start
      | '\\' :: [] =>
        let c ← escapedLetter
        s.letterAtom c start
      | c :: _ =>
        if c = '^' ∨ c = '$' then
          throw (.unsupportedOperator ⟨start, start + 1⟩ (String.ofList [c]))
        else if c = '*' ∨ (dialect = .extended ∧ ['+', '?', '\x7b'].contains c) then
          failHere (unexpectedText c)
        else
          advance 1
          s.letterAtom c start

end

/-- Reads an expression in a POSIX dialect. -/
def parsePosix (dialect : Posix) (s : ExpressionSet) (cs : List Char) : Result (Exp K) :=
  Reader.parse (do
    let e ← readAlternatives dialect s (4 * (cs.length + 2))
    match ← peek with
    | none => return e
    | some c => failHere (unexpectedText c)) cs

end ExpressionSet

end WeightedAutomata
