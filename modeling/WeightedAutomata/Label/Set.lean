import WeightedAutomata.Label.Basic
import WeightedAutomata.Letter.Alphabet
import WeightedAutomata.Text.Blank

/-!
Label sets: the letters of an alphabet, with the empty word or not, all words over an alphabet, or
the tuples that take one label from each of several sets.
-/

namespace WeightedAutomata

inductive LabelSet where
  | letters (alphabet : Alphabet)
  | nullable (alphabet : Alphabet)
  | words (alphabet : Alphabet)
  | tuple (tapes : List LabelSet)
  deriving Repr

namespace LabelSet

mutual

/-- Decides whether two label sets are the same. -/
def decEq : (a b : LabelSet) → Decidable (a = b)
  | letters a, letters b =>
    if same : a = b then isTrue (congrArg letters same) else isFalse fun eq => same (letters.inj eq)
  | nullable a, nullable b =>
    if same : a = b then isTrue (congrArg nullable same)
    else isFalse fun eq => same (nullable.inj eq)
  | words a, words b =>
    if same : a = b then isTrue (congrArg words same) else isFalse fun eq => same (words.inj eq)
  | tuple as, tuple bs =>
    match decEqList as bs with
    | isTrue same => isTrue (congrArg tuple same)
    | isFalse differ => isFalse fun eq => differ (tuple.inj eq)
  | letters _, nullable _ | letters _, words _ | letters _, tuple _ => isFalse nofun
  | nullable _, letters _ | nullable _, words _ | nullable _, tuple _ => isFalse nofun
  | words _, letters _ | words _, nullable _ | words _, tuple _ => isFalse nofun
  | tuple _, letters _ | tuple _, nullable _ | tuple _, words _ => isFalse nofun

/-- Decides whether two lists of label sets are the same. -/
def decEqList : (as bs : List LabelSet) → Decidable (as = bs)
  | [], [] => isTrue rfl
  | [], _ :: _ | _ :: _, [] => isFalse nofun
  | a :: as, b :: bs =>
    match decEq a b, decEqList as bs with
    | isTrue head, isTrue tail => isTrue (by rw [head, tail])
    | isFalse differ, _ => isFalse fun eq => differ (List.cons.inj eq).1
    | _, isFalse differ => isFalse fun eq => differ (List.cons.inj eq).2

end

instance : DecidableEq LabelSet := decEq

mutual

/-- The descriptor of the set. -/
def text : LabelSet → String
  | letters a => "letterset<char_letters(" ++ a.text ++ ")>"
  | nullable a => "nullableset<letterset<char_letters(" ++ a.text ++ ")>>"
  | words a => "wordset<char_letters(" ++ a.text ++ ")>"
  | tuple tapes => "lat<" ++ tapesText tapes ++ ">"

/-- The descriptors of the tapes, with commas between. -/
def tapesText : List LabelSet → String
  | [] => ""
  | [a] => a.text
  | a :: b :: rest => a.text ++ ", " ++ tapesText (b :: rest)

end

/-- The sets of the tapes of a tuple set. -/
def tapes? : LabelSet → Option (List LabelSet)
  | tuple tapes => some tapes
  | _ => none

/-- The set of one tape of a tuple set. -/
def tape? (ls : LabelSet) (i : Nat) : Option LabelSet := ls.tapes?.bind (·[i]?)

/-- The number of tapes: one, unless the set is of tuples. -/
def tapeCount (ls : LabelSet) : Nat := (ls.tapes?.map List.length).getD 1

def isTuple (ls : LabelSet) : Bool := ls.tapes?.isSome

def isWords : LabelSet → Bool
  | words _ => true
  | _ => false

def isLetters : LabelSet → Bool
  | letters _ => true
  | _ => false

/-- Whether labels are exactly letters, on every tape. -/
def isFree : LabelSet → Bool
  | letters _ => true
  | tuple tapes => tapes.all isLetters
  | _ => false

mutual

/-- Whether the empty word is a label. -/
def hasOne : LabelSet → Bool
  | letters _ => false
  | nullable _ | words _ => true
  | tuple tapes => allHaveOne tapes

def allHaveOne : List LabelSet → Bool
  | [] => true
  | a :: as => a.hasOne && allHaveOne as

end

mutual

/-- Whether labels have at most one letter, on every tape. -/
def isLetterized : LabelSet → Bool
  | letters _ | nullable _ => true
  | words _ => false
  | tuple tapes => allLetterized tapes

def allLetterized : List LabelSet → Bool
  | [] => true
  | a :: as => a.isLetterized && allLetterized as

end

mutual

/-- The empty word, on every tape. -/
def one : LabelSet → Label
  | tuple tapes => .tuple (ones tapes)
  | _ => .one

def ones : List LabelSet → List Label
  | [] => []
  | a :: as => a.one :: ones as

end

/-- The label of one letter, which is a word in a set of words. -/
def letter (ls : LabelSet) (c : Char) : Label :=
  match ls with
  | words _ => .word [c]
  | _ => .letter c

/-- The label that spells these letters. -/
def word (ls : LabelSet) (cs : List Char) : Result Label :=
  match ls, cs with
  | tuple _, _ => .error (.badLabel (String.ofList cs) "not a tuple")
  | _, [] =>
    if ls.hasOne then .ok .one else .error (.badLabel "\\e" (ls.text ++ " has no empty word"))
  | words _, _ => .ok (.word cs)
  | _, [c] => .ok (.letter c)
  | _, _ => .error (.badLabel (String.ofList cs) "labelset does not support words")

mutual

/-- Whether the label is in the set. -/
def contains : LabelSet → Label → Bool
  | letters a, .letter c => a.accepts c
  | nullable a, .letter c => a.accepts c
  | nullable _, .one => true
  | words _, .one => true
  | words a, .word u => !u.isEmpty && u.all a.accepts
  | tuple tapes, .tuple labels => containsEach tapes labels
  | _, _ => false

/-- Whether there is one label for each set, in the set. -/
def containsEach : List LabelSet → List Label → Bool
  | [], [] => true
  | a :: as, l :: ls => a.contains l && containsEach as ls
  | _, _ => false

end

/-- Refuses a label that is not in the set. -/
def check (ls : LabelSet) (l : Label) : Result Unit :=
  if ls.contains l then .ok () else .error (.badLabel l.text ("not a label of " ++ ls.text))

/-- The letters of a closed set of letters, as labels. -/
def closedLetters? : LabelSet → Option (List Label)
  | letters a => if a.isOpen then none else some (a.letters.map .letter)
  | _ => none

/-- All ways to take one element of each list, the first list varying slowest. -/
def choices : List (List Label) → List (List Label)
  | [] => [[]]
  | first :: rest => first.flatMap fun l => (choices rest).map (l :: ·)

/-- The labels of a free set over closed alphabets. -/
def generators? : LabelSet → Option (List Label)
  | tuple tapes => (tapes.mapM closedLetters?).map fun sets => (choices sets).map .tuple
  | ls => ls.closedLetters?

/-- Concatenates two labels of one tape. -/
def concatLetters (ls : LabelSet) (l r : Label) : Result Label :=
  match l, r with
  | .one, r => .ok r
  | l, .one => .ok l
  | l, r =>
    if ls.isWords then .ok (.word (l.letters ++ r.letters))
    else .error (.incompatible "a labelset with words"
      (ls.text ++ " (cannot concatenate " ++ l.text ++ " and " ++ r.text ++ ")"))

mutual

/-- Concatenates two labels, tape by tape. -/
def concat : LabelSet → Label → Label → Result Label
  | tuple tapes, .tuple ls, .tuple rs => return .tuple (← concatEach tapes ls rs)
  | ls, l, r => ls.concatLetters l r

def concatEach : List LabelSet → List Label → List Label → Result (List Label)
  | a :: as, l :: ls, r :: rs => return (← a.concat l r) :: (← concatEach as ls rs)
  | _, _, _ => .ok []

end

mutual

/-- The same set without the empty word; tuples stay as they are. -/
def proper : LabelSet → LabelSet
  | nullable a => letters a
  | ls => ls

/-- The same set with the empty word, on every tape. -/
def withOne : LabelSet → LabelSet
  | letters a => nullable a
  | tuple tapes => tuple (withOnes tapes)
  | ls => ls

def withOnes : List LabelSet → List LabelSet
  | [] => []
  | a :: as => a.withOne :: withOnes as

end

mutual

/-- All words over the same letters, on every tape. -/
def allWords : LabelSet → LabelSet
  | letters a | nullable a => words a
  | tuple tapes => tuple (allWordsEach tapes)
  | ls => ls

def allWordsEach : List LabelSet → List LabelSet
  | [] => []
  | a :: as => a.allWords :: allWordsEach as

end

mutual

/-- Whether every label of the first set is one of the second, letters counting as words. -/
def embedsInto : LabelSet → LabelSet → Bool
  | letters a, letters b | letters a, nullable b | letters a, words b => a.isSubset b
  | nullable a, nullable b | nullable a, words b => a.isSubset b
  | words a, words b => a.isSubset b
  | tuple as, tuple bs => embedsEach as bs
  | _, _ => false

def embedsEach : List LabelSet → List LabelSet → Bool
  | [], [] => true
  | a :: as, b :: bs => a.embedsInto b && embedsEach as bs
  | _, _ => false

end

mutual

/-- The label of `target` that spells what `l`, a label of `source`, spells. -/
def convert (target source : LabelSet) (l : Label) : Result Label :=
  match target, source, l with
  | tuple targets, tuple sources, .tuple ls => do
    let res := Label.tuple (← convertEach targets sources ls)
    (tuple targets).check res
    return res
  | _, _, .special => .ok .special
  | target, source, .tuple _ => .error (.incompatible target.text source.text)
  | target, _, l => do
    let res ← target.word l.letters
    target.check res
    return res

def convertEach : List LabelSet → List LabelSet → List Label → Result (List Label)
  | target :: targets, source :: sources, l :: ls =>
    return (← target.convert source l) :: (← convertEach targets sources ls)
  | _, _, _ => .ok []

end

/-- Splits at the bars that no backslash precedes. -/
def splitTapes : List Char → List (List Char)
  | [] => [[]]
  | '\\' :: c :: rest =>
    match splitTapes rest with
    | first :: others => ('\\' :: c :: first) :: others
    | [] => []
  | '|' :: rest => [] :: splitTapes rest
  | c :: rest =>
    match splitTapes rest with
    | first :: others => (c :: first) :: others
    | [] => []

/-- Reads a label of one tape: the empty word, a letter or a word. -/
def parseLetters (ls : LabelSet) (cs : List Char) : Result Label := do
  let body := Text.trim cs
  let res ←
    if body = ['\\', 'e'] ∨ body = ['ε'] then ls.word []
    else do
      let letters ← Letter.unescape body
      if letters.isEmpty then .error (.badLabel (String.ofList body) "empty label")
      else match ls.word letters with
        | .ok l => .ok l
        | .error _ => .error (.badLabel (String.ofList body) ("not a label of " ++ ls.text))
  ls.check res
  return res

mutual

/-- Reads a label, with bars between the tapes of a tuple. -/
def parseLabel : LabelSet → List Char → Result Label
  | tuple tapes, cs => do
    let body := Text.trim cs
    let parts := splitTapes body
    if parts.length ≠ tapes.length then
      .error (.badLabel (String.ofList body)
        ("expected " ++ toString tapes.length ++ " tapes, got " ++ toString parts.length))
    else
      let res := Label.tuple (← parseEach tapes parts)
      (tuple tapes).check res
      return res
  | ls, cs => ls.parseLetters cs

def parseEach : List LabelSet → List (List Char) → Result (List Label)
  | a :: as, part :: parts => return (← a.parseLabel part) :: (← parseEach as parts)
  | _, _ => .ok []

end

end LabelSet

end WeightedAutomata
