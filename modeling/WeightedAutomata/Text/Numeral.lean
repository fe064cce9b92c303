/-!
Whole numbers in decimal text: unbounded ones, which allow `_` between digits, and ones of 64 bits.
-/

namespace WeightedAutomata.Text

/-- Whether `c` is one of the ten ASCII digits. -/
def isDigit (c : Char) : Bool := 48 ≤ c.toNat && c.toNat ≤ 57

/-- The value of a digit. -/
def digitValue (c : Char) : Nat := c.toNat - 48

/-- The number that the digits of `cs` write, characters that are no digits left out. -/
def decimalValue (cs : List Char) : Nat :=
  (cs.filter isDigit).foldl (fun value c => 10 * value + digitValue c) 0

/-- Takes one sign off the front; `true` stands for a minus. -/
def splitSign : List Char → Bool × List Char
  | '-' :: rest => (true, rest)
  | '+' :: rest => (false, rest)
  | cs => (false, cs)

/-- The integer with this sign and size. -/
def signed (negative : Bool) (size : Nat) : Int :=
  if negative then -(size : Int) else size

/-- Reads an unbounded integer: a sign if any, then digits, with `_` allowed after the first. -/
def integer? (cs : List Char) : Option Int :=
  let (negative, digits) := splitSign cs
  if digits.isEmpty || digits.head? == some '_' then none
  else if digits.all fun c => isDigit c || c == '_' then some (signed negative (decimalValue digits))
  else none

/-- Reads the digits of a number, at least one and nothing else. -/
def digits? (cs : List Char) : Option Nat :=
  if cs.isEmpty then none
  else if cs.all isDigit then some (decimalValue cs)
  else none

/-- Reads an integer of 64 bits. -/
def integer64? (cs : List Char) : Option Int := do
  let (negative, digits) := splitSign cs
  let value := signed negative (← digits? digits)
  if -0x8000000000000000 ≤ value && value < 0x8000000000000000 then some value else none

/-- Reads a count of 64 bits, which has no minus sign. -/
def count64? (cs : List Char) : Option Nat := do
  let value ← digits? (match cs with | '+' :: rest => rest | _ => cs)
  if value < 0x10000000000000000 then some value else none

/-- Reads at most two hexadecimal digits, or a plus sign and one. -/
def hexByte? (cs : List Char) : Option Nat := do
  let digits := match cs with | '+' :: rest => rest | _ => cs
  if digits.isEmpty then none
  else digits.foldlM (fun value c => (hexDigit? c).map (16 * value + ·)) 0
where
  /-- The value of a hexadecimal digit in either case. -/
  hexDigit? (c : Char) : Option Nat :=
    if isDigit c then some (digitValue c)
    else if 'a' ≤ c && c ≤ 'f' then some (c.toNat - 87)
    else if 'A' ≤ c && c ≤ 'F' then some (c.toNat - 55)
    else none

/-- The two lowercase hexadecimal digits of a byte. -/
def hexDigits (code : Nat) : List Char :=
  [Nat.digitChar (code / 16), Nat.digitChar (code % 16)]

end WeightedAutomata.Text
