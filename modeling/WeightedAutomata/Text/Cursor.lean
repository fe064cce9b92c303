import WeightedAutomata.Error
import WeightedAutomata.Letter.Escape
import WeightedAutomata.Text.Blank

/-!
Readers: functions that take characters off the front of a text and know their place in it. An error
leaves the cursor where the reader stopped.
-/

namespace WeightedAutomata.Text

/-- What is left of a text, and the number of characters before it. -/
structure Cursor where
  pos : Nat
  rest : List Char
  deriving DecidableEq, Repr

abbrev Reader := EStateM Error Cursor

namespace Cursor

def ofText (cs : List Char) : Cursor := ⟨0, cs⟩

/-- The cursor `n` characters further on. -/
def advance (c : Cursor) (n : Nat) : Cursor := ⟨c.pos + n, c.rest.drop n⟩

/-- The stretch from `start` to the cursor. -/
def since (c : Cursor) (start : Nat) : Span := ⟨start, c.pos⟩

/-- The place of the next character. -/
def here (c : Cursor) : Span := ⟨c.pos, c.pos + 1⟩

/-- The length of the whole text. -/
def total (c : Cursor) : Nat := c.pos + c.rest.length

end Cursor

namespace Reader

/-- The next character. -/
def peek : Reader (Option Char) := return (← get).rest.head?

def advance (n : Nat) : Reader Unit := modify (·.advance n)

def position : Reader Nat := return (← get).pos

/-- Takes the outcome of a computation that reads nothing. -/
def lift {α : Type} : Result α → Reader α
  | .ok a => pure a
  | .error e => throw e

/-- Fails at the next character. -/
def failHere {α : Type} (message : String) : Reader α := do
  throw (.malformed (← get).here message)

/-- Fails with the stretch from `start` to the cursor. -/
def failSince {α : Type} (start : Nat) (message : String) : Reader α := do
  throw (.malformed ((← get).since start) message)

/-- The message for a character that cannot stand here. -/
def unexpectedText (c : Char) : String := "unexpected `" ++ String.ofList [c] ++ "`"

def skipBlanks : Reader Unit := modify fun c => c.advance (c.rest.takeWhile isBlank).length

/-- Skips blanks and takes the character `c`. -/
def expect (c : Char) : Reader Unit := do
  skipBlanks
  match ← peek with
  | some d =>
    if d = c then advance 1
    else failHere ("expected `" ++ String.ofList [c] ++ "`, got `" ++ String.ofList [d] ++ "`")
  | none => failHere ("expected `" ++ String.ofList [c] ++ "`")

/-- Splits at the closing sign that matches an opening one already taken; signs after a backslash
do not count. -/
def splitDelimited (opening closing : Char) : List Char → Nat → Option (List Char × List Char)
  | [], _ => none
  | '\\' :: c :: rest, depth =>
    (splitDelimited opening closing rest depth).map fun (body, rest) => ('\\' :: c :: body, rest)
  | c :: rest, depth =>
    if c = opening then
      (splitDelimited opening closing rest (depth + 1)).map fun (body, rest) => (c :: body, rest)
    else if c = closing then
      match depth with
      | 0 => some ([], rest)
      | depth + 1 =>
        (splitDelimited opening closing rest depth).map fun (body, rest) => (c :: body, rest)
    else (splitDelimited opening closing rest depth).map fun (body, rest) => (c :: body, rest)

/-- Splits at the first closing sign that no backslash precedes. -/
def splitUnescaped (closing : Char) : List Char → Option (List Char × List Char)
  | [] => none
  | '\\' :: c :: rest =>
    (splitUnescaped closing rest).map fun (body, rest) => ('\\' :: c :: body, rest)
  | c :: rest =>
    if c = closing then some ([], rest)
    else (splitUnescaped closing rest).map fun (body, rest) => (c :: body, rest)

/-- Takes the text up to the closing sign, and that sign. -/
def delimited (opening closing : Char) : Reader (List Char) := fun c =>
  match splitDelimited opening closing c.rest 0 with
  | some (body, rest) => .ok body ⟨c.pos + body.length + 1, rest⟩
  | none =>
    let message := "missing `" ++ String.ofList [closing] ++ "`"
    .error (.malformed ⟨c.pos - 1, c.total⟩ message) (c.advance c.rest.length)

/-- Takes an escaped letter, the cursor being on its backslash. -/
def escapedLetter : Reader Char := fun c =>
  match c.rest.drop 1 with
  | [] => .error (.malformed c.here "trailing backslash") (c.advance 1)
  | 'x' :: rest =>
    let code := rest.take 2
    let after := c.advance (2 + code.length)
    match Letter.ofCode code (String.ofList ('\\' :: 'x' :: code)) with
    | .ok letter => .ok letter after
    | .error e => .error e after
  | letter :: _ => .ok letter (c.advance 2)

/-- Runs a reader over a whole text. -/
def parse {α : Type} (reader : Reader α) (cs : List Char) : Result α :=
  match reader (Cursor.ofText cs) with
  | .ok a _ => .ok a
  | .error e _ => .error e

end Reader

end WeightedAutomata.Text
