import WeightedAutomata.Context.Basic

/-!
Reading contexts. Besides the form in which contexts are printed there are names for lists of
letters, as in `lal_char(abc), b`, and a short form, as in `[ab]? x [xy] -> z`.
-/

namespace WeightedAutomata.Context

open Text Text.Reader

/-- What is read: the whole text stands in every error. -/
structure Descriptor where
  whole : String

namespace Descriptor

variable (d : Descriptor)

def fail {α : Type} (message : String) : Reader α := failHere (message ++ ": " ++ d.whole)

/-- Takes `sign`, which stands here without blanks before it, if it does. -/
def takeHere (sign : String) : Reader Bool := do
  if sign.toList.isPrefixOf (← get).rest then
    advance sign.length
    return true
  else return false

/-- Skips blanks and takes `sign`, if it follows. -/
def take (sign : String) : Reader Bool := do
  skipBlanks
  takeHere sign

/-- Skips blanks and takes the first of the signs that follows. -/
def takeAny : List String → Reader Bool
  | [] => return false
  | sign :: signs => do
    if ← take sign then return true
    takeAny signs

def require (sign : String) : Reader Unit := do
  if !(← take sign) then d.fail ("expected `" ++ sign ++ "`")

/-- Whether the character can stand in a name. -/
def isNameChar (c : Char) : Bool :=
  isDigit c || ('a' ≤ c && c ≤ 'z') || ('A' ≤ c && c ≤ 'Z') || c == '_'

/-- Skips blanks and takes a name, which may be empty. -/
def name : Reader (List Char) := do
  skipBlanks
  let name := (← get).rest.takeWhile isNameChar
  advance name.length
  return name

/-- Takes the text up to the sign `closing`, and that sign. -/
def body (closing : Char) : Reader (List Char) := fun c =>
  match splitUnescaped closing c.rest with
  | some (body, rest) => .ok body ⟨c.pos + body.length + 1, rest⟩
  | none => d.fail ("missing `" ++ String.ofList [closing] ++ "`") c

/-- Takes a list of letters and the sign `closing`. -/
def alphabet (closing : Char) : Reader Alphabet := do
  let start ← position
  let body ← d.body closing
  lift ((Alphabet.parse body).shift start)

/-- Takes what makes a short label set: nothing, `?` or `*`. -/
def shortSuffix (a : Alphabet) : Reader LabelSet := do
  if ← takeHere "?" then return .nullable a
  else if ← takeHere "*" then return .words a
  else return .letters a

/-- Takes a list of letters in `<char_letters( )>`. -/
def canonicalLetters : Reader Alphabet := do
  d.require "<"
  d.require "char_letters"
  d.require "("
  let a ← d.alphabet ')'
  d.require ">"
  return a

/-- Takes a list of letters in parentheses. -/
def namedLetters : Reader Alphabet := do
  d.require "("
  d.alphabet ')'

/-- The label set with the empty word, of letters or tuples. -/
def nullableOf : LabelSet → LabelSet
  | .letters a | .nullable a => .nullable a
  | ls => ls.withOne

/-- Skips a sign `x` between short label sets, if one with another short label set follows. -/
def takeCross : Reader Bool := fun c =>
  let blanks (cs : List Char) := (cs.takeWhile isBlank).length
  let c' := c.advance (blanks c.rest)
  match c'.rest with
  | 'x' :: next :: rest =>
    let after := c'.advance (1 + blanks (next :: rest))
    if isBlank next && after.rest.head? == some '[' then .ok true after else .ok false c
  | _ => .ok false c

mutual

/-- Takes a label set; short ones may be joined to tuples by `x`. -/
def labelSet : Nat → Reader LabelSet
  | 0 => d.fail "descriptor too deep"
  | fuel + 1 => do
    let first ← singleLabelSet fuel
    match ← crossed fuel with
    | [] => return first
    | others => return .tuple (first :: others)

/-- Takes the short label sets that follow after `x`. -/
def crossed : Nat → Reader (List LabelSet)
  | 0 => return []
  | fuel + 1 => do
    if ← takeCross then
      let next ← singleLabelSet fuel
      return next :: (← crossed fuel)
    else return []

/-- Takes a label set other than a tuple in the short form. -/
def singleLabelSet : Nat → Reader LabelSet
  | 0 => d.fail "descriptor too deep"
  | fuel + 1 => do
    if ← take "[" then shortSuffix (← d.alphabet ']')
    else
      let start ← get
      let name := String.ofList (← name)
      if name = "lal_char" then return .letters (← d.namedLetters)
      else if name = "lan_char" then return .nullable (← d.namedLetters)
      else if name = "law_char" then return .words (← d.namedLetters)
      else if name = "letterset" then return .letters (← d.canonicalLetters)
      else if name = "wordset" then return .words (← d.canonicalLetters)
      else if name = "nullableset" then
        d.require "<"
        let inner ← labelSet fuel
        d.require ">"
        return nullableOf inner
      else if name = "lat" then
        d.require "<"
        let first ← labelSet fuel
        let others ← commaLabelSets fuel
        d.require ">"
        return .tuple (first :: others)
      else
        set start
        d.fail ("unknown labelset `" ++ name ++ "`")

/-- Takes the label sets that follow after commas. -/
def commaLabelSets : Nat → Reader (List LabelSet)
  | 0 => return []
  | fuel + 1 => do
    if ← take "," then
      let next ← labelSet fuel
      return next :: (← commaLabelSets fuel)
    else return []

end

/-- Takes the level of identities in parentheses, if it is there. -/
def identities : Reader Identities := do
  if ← take "(" then
    let start ← position
    let body ← d.body ')'
    lift ((Identities.parse body).shift start)
  else return .linear

/-- Takes the sign between labels and weights. -/
def separator : Reader Unit := do
  if !(← takeAny ["->", ",", "_"]) then d.fail "expected `,` or `->`"

mutual

/-- Takes a label set and a weight set. -/
def context : Nat → Reader Context
  | 0 => d.fail "descriptor too deep"
  | fuel + 1 => do
    let labels ← d.labelSet fuel
    d.separator
    return ⟨labels, ← weightSet fuel⟩

/-- Takes a weight set. -/
def weightSet : Nat → Reader WeightSet
  | 0 => d.fail "descriptor too deep"
  | fuel + 1 => do
    skipBlanks
    let start ← get
    let name ← name
    let known := String.ofList name
    if known = "expressionset" ∨ known = "ratexpset" ∨ known = "seriesset" then
      d.require "<"
      let inner ← context fuel
      d.require ">"
      return .expressions ⟨inner.labels, ← d.identities⟩ inner.weights
    else if known = "RatE" then
      d.require "["
      let inner ← context fuel
      d.require "]"
      return .expressions ⟨inner.labels, .linear⟩ inner.weights
    else
      match WeightSet.ofName? name with
      | some ws => return ws
      | none =>
        set start
        d.fail ("unknown weightset `" ++ known ++ "`")

end

end Descriptor

/-- Reads a context in any of its forms. -/
def parse (cs : List Char) : Result Context :=
  let d : Descriptor := ⟨String.ofList cs⟩
  Reader.parse (do
    let c ← d.context (4 * (cs.length + 2))
    skipBlanks
    match ← peek with
    | none => return c
    | some _ => d.fail "unexpected trailing characters") cs

end WeightedAutomata.Context
