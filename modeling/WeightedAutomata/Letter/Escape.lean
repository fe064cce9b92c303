import WeightedAutomata.Error
import WeightedAutomata.Text.Numeral

/-!
Letters in text. A letter that is an operator of some syntax is written after a backslash, and one
of the two Latin-1 control blocks as `\x` with two hexadecimal digits.
-/

namespace WeightedAutomata.Letter

open Text

/-- The characters that mean something in some syntax. -/
def operators : List Char := "\\()[]\x7b\x7d<>+*?&:%|.,'!^$# \"".toList

/-- Whether the letter is written by its code: below U+0020, or from U+007F to U+00FF. -/
def needsCode (c : Char) : Bool :=
  c.toNat < 0x20 || (0x7f ≤ c.toNat && c.toNat ≤ 0xff)

/-- The code of a letter, after `\x`. -/
def coded (c : Char) : List Char := '\\' :: 'x' :: hexDigits c.toNat

/-- The text of one letter. -/
def escape (c : Char) : List Char :=
  if operators.contains c then ['\\', c]
  else if needsCode c then coded c
  else [c]

/-- The letter named by what follows `\x`. The codes `00` and `ff` are reserved. -/
def ofCode (digits : List Char) (label : String) : Result Char :=
  if digits.length ≠ 2 then .error (.badLabel label "invalid escape")
  else
    match hexByte? digits with
    | none => .error (.badLabel label "invalid escape")
    | some code =>
      if code = 0 ∨ code = 0xff then
        .error (.badLabel label ("reserved letter \\x" ++ String.ofList (hexDigits code)))
      else .ok (Char.ofNat code)

/-- Reads letters, each with a flag that tells whether it was escaped; `whole` is the text that
errors show. -/
def readMarked (whole : String) : List Char → Result (List (Char × Bool))
  | [] => .ok []
  | '\\' :: [] => .error (.badLabel whole "trailing backslash")
  | '\\' :: 'x' :: a :: b :: rest => do
    let c ← ofCode [a, b] whole
    return (c, true) :: (← readMarked whole rest)
  | '\\' :: 'x' :: rest => do
    let c ← ofCode rest whole
    return [(c, true)]
  | '\\' :: c :: rest => return (c, true) :: (← readMarked whole rest)
  | c :: rest => return (c, false) :: (← readMarked whole rest)

/-- Reads letters, with their escapes resolved. -/
def unescape (cs : List Char) : Result (List Char) :=
  return (← readMarked (String.ofList cs) cs).map (·.1)

end WeightedAutomata.Letter
