import WeightedAutomata.Polynomial.Basic
import WeightedAutomata.Text.Blank

/-!
Reading polynomials: monomials `<w>l` with `+` between them.
-/

namespace WeightedAutomata.Polynomial

variable {K : Type} [Weights K]

/-- Puts a character in front of the first part. -/
def consFirst (c : Char) : List (List Char) → List (List Char)
  | [] => [[c]]
  | part :: parts => (c :: part) :: parts

/-- Splits at each `+` that stands outside of weights and after no backslash. -/
def splitMonomials : List Char → Nat → List (List Char)
  | [], _ => [[]]
  | '\\' :: c :: rest, depth => consFirst '\\' (consFirst c (splitMonomials rest depth))
  | c :: rest, depth =>
    if c = '<' ∨ c = '⟨' then consFirst c (splitMonomials rest (depth + 1))
    else if c = '>' ∨ c = '⟩' then consFirst c (splitMonomials rest (depth - 1))
    else if c = '+' ∧ depth = 0 then [] :: splitMonomials rest 0
    else consFirst c (splitMonomials rest depth)

/-- Splits at the closing sign that matches an opening one already taken. -/
def splitWeight (opening closing : Char) : List Char → Nat → Option (List Char × List Char)
  | [], _ => none
  | c :: rest, depth =>
    if c = closing ∧ depth = 0 then some ([], rest)
    else
      let depth := if c = opening then depth + 1 else if c = closing then depth - 1 else depth
      (splitWeight opening closing rest depth).map fun (body, rest) => (c :: body, rest)

/-- Reads a weight in brackets and a label, which may be left out for the empty word. -/
def parseWeighted (ls : LabelSet) (opening closing : Char) (offset : Nat) (rest : List Char) :
    Result (Label × K) := do
  match splitWeight opening closing rest 0 with
  | none =>
    let message := "missing `" ++ String.ofList [closing] ++ "`"
    .error (.malformed ⟨offset, offset + 1⟩ message)
  | some (body, rest) =>
    let w ← (Weights.parse body).shift (offset + 1)
    let label := Text.trim rest
    let l ← if label.isEmpty then ls.word [] else ls.parseLabel label
    return (l, w)

/-- Reads a monomial. -/
def parseMonomial (ls : LabelSet) (cs : List Char) : Result (Label × K) :=
  let body := Text.skipBlanks cs
  let offset := cs.length - body.length
  match body with
  | '<' :: rest => parseWeighted ls '<' '>' offset rest
  | '⟨' :: rest => parseWeighted ls '⟨' '⟩' offset rest
  | _ => return (← ls.parseLabel body, Weights.one)

/-- Adds the monomials of the parts, the first of which starts at `start`. -/
def parseParts (ls : LabelSet) : List (List Char) → Nat → Polynomial K → Result (Polynomial K)
  | [], _, p => .ok p
  | part :: parts, start, p => do
    let (l, w) ← (parseMonomial ls part).shift start
    parseParts ls parts (start + part.length + 1) (p.addTerm l w)

def parse (ls : LabelSet) (cs : List Char) : Result (Polynomial K) :=
  let body := Text.trim cs
  if body = ['\\', 'z'] ∨ body = ['∅'] then .ok zero
  else parseParts ls (splitMonomials cs 0) 0 zero

end WeightedAutomata.Polynomial
