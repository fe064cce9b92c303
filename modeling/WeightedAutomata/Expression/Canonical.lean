import WeightedAutomata.Expression.Operand

/-!
Reading expressions in the canonical dialect, the one that they are printed in. The operators,
loosest first: `+`; `|` between tapes; `&` and `%`; `:`; products, with `.` or without; weights
`<w>E` and `E<w>`; then the suffixes `*`, `?`, repetitions, complement and transposition.

Reading takes one unit of fuel for each operator level and each operand, so that a fixed multiple of
the length is enough.
-/

namespace WeightedAutomata.ExpressionSet

open Text Text.Reader

variable {K : Type} [Weights K]

/-- The characters that no operand starts with. -/
def nonOperands : List Char :=
  ['+', '|', '&', '%', ':', ')', '*', '?', '\x7b', '>', '⟩', 'ᶜ', 'ᵗ']

/-- Whether an operand starts here. -/
def startsOperand (rest : List Char) : Bool := rest.head?.any (!nonOperands.contains ·)

/-- The closing sign of a weight that opens here. -/
def weightClosing? : List Char → Option (Char × Char)
  | '<' :: _ => some ('<', '>')
  | '⟨' :: _ => some ('⟨', '⟩')
  | _ => none

/-- Takes a weight with its brackets. -/
def bracketedWeight (opening closing : Char) : Reader K := do
  advance 1
  let start ← position
  let body ← delimited opening closing
  lift ((Weights.parse body).shift start)

/-- Takes the weights in front of an operand. -/
def leftWeights : Nat → Reader (List K)
  | 0 => return []
  | fuel + 1 => do
    match weightClosing? (← get).rest with
    | some (opening, closing) =>
      let w ← bracketedWeight opening closing
      skipBlanks
      return w :: (← leftWeights fuel)
    | none => return []

/-- Takes the weights behind an operand. -/
def rightWeights (s : ExpressionSet) : Nat → Exp K → Reader (Exp K)
  | 0, e => return e
  | fuel + 1, e => do
    match weightClosing? (← get).rest with
    | some (opening, closing) =>
      let w ← bracketedWeight opening closing
      rightWeights s fuel (s.rweight e w)
    | none => return e

/-- Takes the suffixes of an operand. -/
def suffixes (s : ExpressionSet) : Nat → Exp K → Reader (Exp K)
  | 0, e => return e
  | fuel + 1, e => do
    let start ← position
    match ← peek with
    | some '*' =>
      advance 1
      suffixes s fuel (s.star e)
    | some '?' =>
      advance 1
      suffixes s fuel (← lift (s.power e 0 (some 1)))
    | some 'ᶜ' =>
      advance 1
      suffixes s fuel (← lift (s.complement e))
    | some 'ᵗ' =>
      advance 1
      suffixes s fuel (s.transposition e)
    | some '\x7b' =>
      advance 1
      let body ← delimited '\x7b' '\x7d'
      if body = ['c'] then suffixes s fuel (← lift (s.complement e))
      else if body = ['T'] then suffixes s fuel (s.transposition e)
      else
        let (min, max) ← lift (bounds body ((← get).since start))
        suffixes s fuel (← lift (s.power e min max))
    | _ => return e

/-- What a reader that ran out of fuel says. -/
def exhausted {α : Type} : Reader α := failHere "expression too deep"

mutual

/-- Takes terms with `+` between them. -/
def readSum : Nat → ExpressionSet → Reader (Exp K)
  | 0, _ => exhausted
  | fuel + 1, s => do readTerms fuel s (← readTuple fuel s)

/-- Takes the terms that follow `acc`. -/
def readTerms : Nat → ExpressionSet → Exp K → Reader (Exp K)
  | 0, _, _ => exhausted
  | fuel + 1, s, acc => do
    skipBlanks
    match ← peek with
    | some '+' =>
      advance 1
      let e ← readTuple fuel s
      readTerms fuel s (s.add acc e)
    | _ => return acc

/-- Takes one expression for each tape, or an operation on tuples in parentheses. If neither can be
read, the error is the one that lies further on. -/
def readTuple : Nat → ExpressionSet → Reader (Exp K)
  | 0, _ => exhausted
  | fuel + 1, s =>
    match s.labels.tapes? with
    | none => readConjunction fuel s
    | some tapes => fun c =>
      match (do lift (s.tuple (← readTapes fuel s 0 tapes.length)) : Reader (Exp K)) c with
      | .ok e c' => .ok e c'
      | .error byTapes stop =>
        match readConjunction fuel s c with
        | .ok e c' => .ok e c'
        | .error whole c' =>
          .error (if whole.start > max byTapes.start stop.pos then whole else byTapes) c'

/-- Takes the expressions of `count` tapes from `i` on. -/
def readTapes : Nat → ExpressionSet → Nat → Nat → Reader (List (Exp K))
  | 0, _, _, _ => exhausted
  | _ + 1, _, _, 0 => return []
  | fuel + 1, s, i, count + 1 => do
    if i > 0 then expect '|'
    match s.tape? i with
    | none => failHere "invalid tape"
    | some tape =>
      let e ← readConjunction fuel tape
      return e :: (← readTapes fuel s (i + 1) count)

/-- Takes operands with `&` or `%` between them. -/
def readConjunction : Nat → ExpressionSet → Reader (Exp K)
  | 0, _ => exhausted
  | fuel + 1, s => do readConjuncts fuel s (← readShuffle fuel s)

/-- Takes the operands that follow `acc`. -/
def readConjuncts : Nat → ExpressionSet → Exp K → Reader (Exp K)
  | 0, _, _ => exhausted
  | fuel + 1, s, acc => do
    skipBlanks
    match ← peek with
    | some '&' =>
      advance 1
      let e ← readShuffle fuel s
      readConjuncts fuel s (s.conjunction acc e)
    | some '%' =>
      advance 1
      let e ← readShuffle fuel s
      readConjuncts fuel s (← lift (s.difference acc e))
    | _ => return acc

/-- Takes operands with `:` between them. -/
def readShuffle : Nat → ExpressionSet → Reader (Exp K)
  | 0, _ => exhausted
  | fuel + 1, s => do readShuffled fuel s (← readProduct fuel s)

/-- Takes the operands that follow `acc`. -/
def readShuffled : Nat → ExpressionSet → Exp K → Reader (Exp K)
  | 0, _, _ => exhausted
  | fuel + 1, s, acc => do
    skipBlanks
    match ← peek with
    | some ':' =>
      advance 1
      let e ← readProduct fuel s
      readShuffled fuel s (s.shuffle acc e)
    | _ => return acc

/-- Takes factors, with `.` between them or nothing. -/
def readProduct : Nat → ExpressionSet → Reader (Exp K)
  | 0, _ => exhausted
  | fuel + 1, s => do
    skipBlanks
    if startsOperand (← get).rest then readFactors fuel s (← readWeighted fuel s)
    else
      match ← peek with
      | some c => failHere (unexpectedText c)
      | none => failHere "unexpected end of input"

/-- Takes the factors that follow `acc`. -/
def readFactors : Nat → ExpressionSet → Exp K → Reader (Exp K)
  | 0, _, _ => exhausted
  | fuel + 1, s, acc => do
    skipBlanks
    let dotted := (← peek) == some '.'
    if dotted then
      advance 1
      skipBlanks
    if dotted || startsOperand (← get).rest then
      let e ← readWeighted fuel s
      readFactors fuel s (s.mul acc e)
    else return acc

/-- Takes an operand with its weights and suffixes. -/
def readWeighted : Nat → ExpressionSet → Reader (Exp K)
  | 0, _ => exhausted
  | fuel + 1, s => do
    skipBlanks
    let lefts : List K ← leftWeights (← get).rest.length
    let e ← readPrimary fuel s
    let e ← suffixes s (← get).rest.length e
    let e ← rightWeights s (← get).rest.length e
    return lefts.foldr s.lweight e

/-- Takes a letter, a constant, a class, a quoted label or an expression in parentheses. -/
def readPrimary : Nat → ExpressionSet → Reader (Exp K)
  | 0, _ => exhausted
  | fuel + 1, s => do
    let start ← position
    match (← get).rest with
    | [] => failHere "unexpected end of input"
    | '(' :: _ =>
      advance 1
      let e ← readSum fuel s
      expect ')'
      return e
    | '∅' :: _ =>
      advance 1
      return .zero
    | 'ε' :: _ =>
      advance 1
      return .one
    | '[' :: _ =>
      advance 1
      s.letterClass start
    | '\'' :: _ =>
      advance 1
      let body ← delimited '\x00' '\''
      let l ← lift ((s.labels.parseLabel body).shift (start + 1))
      return s.atom l
    | '\\' :: 'z' :: _ =>
      advance 2
      return .zero
    | '\\' :: 'e' :: _ =>
      advance 2
      return .one
    | '\\' :: _ =>
      let c ← escapedLetter
      s.letterAtom c start
    | c :: _ =>
      advance 1
      s.letterAtom c start

end

/-- Takes nothing: refuses what is left of the text. -/
def expectEnd : Reader Unit := do
  match ← peek with
  | none => return ()
  | some c => failHere (unexpectedText c)

/-- Fuel for a text of this length. -/
def readingFuel (length : Nat) : Nat := 16 * (length + 2)

/-- Reads an expression in the canonical dialect. -/
def parse (s : ExpressionSet) (cs : List Char) : Result (Exp K) :=
  Reader.parse (do
    let e ← readSum (readingFuel cs.length) s
    skipBlanks
    expectEnd
    return e) cs

end WeightedAutomata.ExpressionSet
