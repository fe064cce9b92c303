import WeightedAutomata.Expression.Basic

/-!
The text of expressions. Parentheses stand only where the text would read as another tree.
-/

namespace WeightedAutomata.Exp

variable {K : Type}

/-- How tightly the parts of a text hold together, loosest first. -/
inductive Strength where
  | sum | tuple | conjunction | shuffle | product | weight | suffix | leaf
  deriving DecidableEq, Repr

namespace Strength

def level : Strength → Nat
  | sum => 0
  | tuple => 1
  | conjunction => 2
  | shuffle => 3
  | product => 4
  | weight => 5
  | suffix => 6
  | leaf => 7

end Strength

def strength : Exp K → Strength
  | sum _ => .sum
  | tuple _ => .tuple
  | conjunction _ => .conjunction
  | shuffle _ => .shuffle
  | prod _ => .product
  | lweight _ _ | rweight _ _ => .weight
  | star _ | complement _ | transposition _ => .suffix
  | atom (.tuple _) => .tuple
  | atom (.word u) => if u.length > 1 then .product else .leaf
  | zero | one | atom _ => .leaf

mutual

/-- The text of the label of an atom. -/
def labelText (style : Style) : Label → String
  | .one => match style with | .ascii => "\\e" | .symbols => "ε"
  | .tuple tapes => tapeTexts style tapes
  | l => l.text

/-- The texts of the tapes, between bars. -/
def tapeTexts (style : Style) : List Label → String
  | [] => ""
  | [l] => labelText style l
  | l :: m :: rest => labelText style l ++ "|" ++ tapeTexts style (m :: rest)

end

/-- The text of a weight in its brackets. -/
def inBrackets (style : Style) (weight : String) : String :=
  match style with
  | .ascii => "<" ++ weight ++ ">"
  | .symbols => "⟨" ++ weight ++ "⟩"

/-- The text in parentheses, if it holds together less than it has to. -/
def guarded (e : Exp K) (least : Strength) (body : String) : String :=
  if e.strength.level < least.level then "(" ++ body ++ ")" else body

/-- The strength that a factor needs. A left weight stands without parentheses only in front, and a
right weight only at the end. -/
def factorStrength (isFirst isLast : Bool) : Exp K → Strength
  | lweight _ _ => if isFirst then .product else .leaf
  | rweight _ _ => if isLast then .product else .leaf
  | prod _ => .leaf
  | _ => .product

/-- The strength that the operands of a variadic node need: more than the node has. -/
def operandStrength : Kind → Strength
  | .sum => .tuple
  | .tuple => .conjunction
  | .conjunction => .shuffle
  | _ => .product

/-- The sign between the operands of a variadic node. -/
def separator : Kind → String
  | .sum => "+"
  | .tuple => "|"
  | .conjunction => "&"
  | _ => ":"

mutual

/-- The text of an expression, with `weight` for the texts of its weights. -/
def formatWith (weight : K → String) (style : Style) : Exp K → String
  | zero => match style with | .ascii => "\\z" | .symbols => "∅"
  | one => match style with | .ascii => "\\e" | .symbols => "ε"
  | atom l => labelText style l
  | sum es => formatOperands weight style .sum es
  | tuple es => formatOperands weight style .tuple es
  | conjunction es => formatOperands weight style .conjunction es
  | shuffle es => formatOperands weight style .shuffle es
  | prod es => formatFactors weight style true es
  | lweight w e =>
    inBrackets style (weight w) ++ guarded e .weight (formatWith weight style e)
  | rweight e w =>
    let least := match e with | lweight _ _ => Strength.suffix | _ => .weight
    guarded e least (formatWith weight style e) ++ inBrackets style (weight w)
  | star e => guarded e .suffix (formatWith weight style e) ++ "*"
  | complement e =>
    guarded e .suffix (formatWith weight style e) ++
      match style with | .ascii => "\x7bc\x7d" | .symbols => "ᶜ"
  | transposition e =>
    guarded e .suffix (formatWith weight style e) ++
      match style with | .ascii => "\x7bT\x7d" | .symbols => "ᵗ"

/-- The texts of the operands of a variadic node, with its sign between them. -/
def formatOperands (weight : K → String) (style : Style) (kind : Kind) : List (Exp K) → String
  | [] => ""
  | [e] => guarded e (operandStrength kind) (formatWith weight style e)
  | e :: f :: rest =>
    guarded e (operandStrength kind) (formatWith weight style e) ++ separator kind ++
      formatOperands weight style kind (f :: rest)

/-- The texts of the factors of a product. -/
def formatFactors (weight : K → String) (style : Style) (isFirst : Bool) : List (Exp K) → String
  | [] => ""
  | e :: rest =>
    guarded e (factorStrength isFirst rest.isEmpty e) (formatWith weight style e) ++
      formatFactors weight style false rest

end

variable [Weights K]

/-- A weight in its brackets. -/
def weightText (style : Style) (w : K) : String := inBrackets style (Weights.format style w)

/-- The text of an expression. -/
def format (style : Style) : Exp K → String := formatWith (Weights.format style) style

/-- The text in ASCII signs. -/
def text (e : Exp K) : String := e.format .ascii

end WeightedAutomata.Exp
