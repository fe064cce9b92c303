import WeightedAutomata.Letter.Escape

/-!
Labels: the empty word, a letter, a longer word, or one label for each tape. The special label marks
the transitions that make a state initial or final.
-/

namespace WeightedAutomata

inductive Label where
  | one
  | letter (c : Char)
  | word (letters : List Char)
  | tuple (tapes : List Label)
  | special
  deriving Repr, Inhabited

namespace Label

mutual

/-- Decides whether two labels are the same. -/
def decEq : (a b : Label) → Decidable (a = b)
  | one, one => isTrue rfl
  | letter c, letter d =>
    if same : c = d then isTrue (congrArg letter same) else isFalse fun eq => same (letter.inj eq)
  | word u, word v =>
    if same : u = v then isTrue (congrArg word same) else isFalse fun eq => same (word.inj eq)
  | tuple as, tuple bs =>
    match decEqList as bs with
    | isTrue same => isTrue (congrArg tuple same)
    | isFalse differ => isFalse fun eq => differ (tuple.inj eq)
  | special, special => isTrue rfl
  | one, letter _ | one, word _ | one, tuple _ | one, special => isFalse nofun
  | letter _, one | letter _, word _ | letter _, tuple _ | letter _, special => isFalse nofun
  | word _, one | word _, letter _ | word _, tuple _ | word _, special => isFalse nofun
  | tuple _, one | tuple _, letter _ | tuple _, word _ | tuple _, special => isFalse nofun
  | special, one | special, letter _ | special, word _ | special, tuple _ => isFalse nofun

/-- Decides whether two lists of labels are the same. -/
def decEqList : (as bs : List Label) → Decidable (as = bs)
  | [], [] => isTrue rfl
  | [], _ :: _ | _ :: _, [] => isFalse nofun
  | a :: as, b :: bs =>
    match decEq a b, decEqList as bs with
    | isTrue head, isTrue tail => isTrue (by rw [head, tail])
    | isFalse differ, _ => isFalse fun eq => differ (List.cons.inj eq).1
    | _, isFalse differ => isFalse fun eq => differ (List.cons.inj eq).2

end

instance : DecidableEq Label := decEq

/-- The place of each kind of label in the order. -/
def rank : Label → Nat
  | one => 0
  | letter _ => 1
  | word _ => 2
  | tuple _ => 3
  | special => 4

/-- Compares letters place by place; a proper beginning comes first. -/
def compareLetters : List Char → List Char → Ordering
  | [], [] => .eq
  | [], _ :: _ => .lt
  | _ :: _, [] => .gt
  | c :: u, d :: v => (compare c.toNat d.toNat).then (compareLetters u v)

mutual

/-- The order of labels: by kind, words by length before their letters. -/
def order : Label → Label → Ordering
  | letter c, letter d => compare c.toNat d.toNat
  | word u, word v => (compare u.length v.length).then (compareLetters u v)
  | tuple as, tuple bs => orderList as bs
  | a, b => compare a.rank b.rank

/-- The order of lists of labels: place by place, a proper beginning first. -/
def orderList : List Label → List Label → Ordering
  | [], [] => .eq
  | [], _ :: _ => .lt
  | _ :: _, [] => .gt
  | a :: as, b :: bs => (order a b).then (orderList as bs)

end

instance : Ord Label := ⟨order⟩

mutual

/-- Whether the label is the empty word, on every tape. -/
def isOne : Label → Bool
  | one => true
  | tuple tapes => allOne tapes
  | _ => false

/-- Whether every label of the list is the empty word. -/
def allOne : List Label → Bool
  | [] => true
  | a :: as => a.isOne && allOne as

end

def isSpecial : Label → Bool
  | special => true
  | _ => false

mutual

/-- The number of letters, on the longest tape of a tuple. -/
def length : Label → Nat
  | one | special => 0
  | letter _ => 1
  | word u => u.length
  | tuple tapes => maxLength tapes

/-- The greatest length in a list of labels. -/
def maxLength : List Label → Nat
  | [] => 0
  | a :: as => max a.length (maxLength as)

end

/-- The letters of a label of one tape. -/
def letters : Label → List Char
  | letter c => [c]
  | word u => u
  | _ => []

mutual

/-- The mirror image, tape by tape. -/
def mirror : Label → Label
  | word u => word u.reverse
  | tuple tapes => tuple (mirrorList tapes)
  | other => other

def mirrorList : List Label → List Label
  | [] => []
  | a :: as => a.mirror :: mirrorList as

end

mutual

/-- The text of a label: letters with their escapes, `\e` for the empty word, tapes between bars. -/
def text : Label → String
  | one => "\\e"
  | letter c => String.ofList (Letter.escape c)
  | word u => String.ofList (u.flatMap Letter.escape)
  | tuple tapes => tapesText tapes
  | special => "$"

/-- The texts of the tapes, between bars. -/
def tapesText : List Label → String
  | [] => ""
  | [a] => a.text
  | a :: b :: rest => a.text ++ "|" ++ tapesText (b :: rest)

end

end Label

end WeightedAutomata
