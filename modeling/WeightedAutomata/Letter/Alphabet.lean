import WeightedAutomata.Letter.Escape

/-!
Alphabets: finite sets of letters, listed in increasing order. An open alphabet takes every letter
and lists the ones it knows.
-/

namespace WeightedAutomata

namespace Letter

/-- Puts a letter in its place, unless it is there. -/
def insert (c : Char) : List Char → List Char
  | [] => [c]
  | d :: rest => if c < d then c :: d :: rest else if c = d then d :: rest else d :: insert c rest

theorem mem_insert {c x : Char} {cs : List Char} : x ∈ insert c cs ↔ x = c ∨ x ∈ cs := by
  induction cs with
  | nil => simp [insert]
  | cons d rest ih =>
    unfold insert
    split
    · simp
    · split
      · rename_i same
        simp [same]
      · simp only [List.mem_cons, ih]
        grind

theorem insert_sorted (c : Char) {cs : List Char} (sorted : cs.Pairwise (· < ·)) :
    (insert c cs).Pairwise (· < ·) := by
  induction cs with
  | nil => simp [insert]
  | cons d rest ih =>
    obtain ⟨least, tail⟩ := List.pairwise_cons.mp sorted
    unfold insert
    split
    · rename_i below
      refine List.pairwise_cons.mpr ⟨fun x member => ?_, sorted⟩
      cases List.mem_cons.mp member with
      | inl same => exact same ▸ below
      | inr later => exact Char.lt_trans below (least x later)
    · split
      · exact sorted
      · rename_i notBelow notSame
        refine List.pairwise_cons.mpr ⟨fun x member => ?_, ih tail⟩
        cases mem_insert.mp member with
        | inl same =>
          subst same
          exact Char.not_le.mp fun le => notSame (Char.le_antisymm le (Char.not_lt.mp notBelow))
        | inr later => exact least x later

/-- The letters from `first` to `last`. -/
def interval (first last : Char) : List Char :=
  (List.range' first.toNat (last.toNat + 1 - first.toNat)).filterMap fun code =>
    if code.isValidChar then some (Char.ofNat code) else none

end Letter

structure Alphabet where
  letters : List Char
  isOpen : Bool
  sorted : letters.Pairwise (· < ·)
  deriving DecidableEq, Repr

namespace Alphabet

open Letter

/-- The alphabet that lists these letters. -/
def ofLetters (isOpen : Bool) : List Char → Alphabet
  | [] => ⟨[], isOpen, .nil⟩
  | c :: cs =>
    let rest := ofLetters isOpen cs
    ⟨Letter.insert c rest.letters, isOpen, insert_sorted c rest.sorted⟩

theorem mem_ofLetters {isOpen : Bool} {cs : List Char} {x : Char} :
    x ∈ (ofLetters isOpen cs).letters ↔ x ∈ cs := by
  induction cs with
  | nil => simp [ofLetters]
  | cons c cs ih => simp [ofLetters, mem_insert, ih]

/-- Whether words may use the letter. -/
def accepts (a : Alphabet) (c : Char) : Bool := a.isOpen || a.letters.contains c

/-- Whether `b` accepts every letter that `a` accepts. -/
def isSubset (a b : Alphabet) : Bool :=
  b.isOpen || (!a.isOpen && a.letters.all b.letters.contains)

/-- The letters that marked letters list: an unescaped `-` between two of them is a range. -/
def expandRanges (size : Nat) : List (Char × Bool) → Result (List Char)
  | (first, _) :: ('-', false) :: (last, _) :: rest =>
    if last < first then
      .error (.malformed ⟨0, size⟩
        ("invalid letter range: " ++ String.ofList [first] ++ "-" ++ String.ofList [last]))
    else return interval first last ++ (← expandRanges size rest)
  | (c, _) :: rest => return c :: (← expandRanges size rest)
  | [] => .ok []

/-- Takes a trailing `...` off. -/
def splitEllipsis (cs : List Char) : List Char × Bool :=
  match cs.reverse with
  | '.' :: '.' :: '.' :: rest => (rest.reverse, true)
  | _ => (cs, false)

/-- Reads letters, ranges such as `a-z` and escapes, with `...` at the end of an open alphabet. -/
def parse (cs : List Char) : Result Alphabet := do
  let (body, isOpen) := splitEllipsis cs
  let marked ← readMarked (String.ofList body) body
  return ofLetters isOpen (← expandRanges (String.ofList cs).utf8ByteSize marked)

/-- The characters that mean something inside a list of letters or around one. -/
def separators : List Char := "()-,\\[]<>.".toList

/-- One letter of a list of letters. -/
def letterText (c : Char) : List Char :=
  if separators.contains c then ['\\', c] else if needsCode c then coded c else [c]

/-- The letters in order, and `...` if there are others. -/
def text (a : Alphabet) : String :=
  String.ofList (a.letters.flatMap letterText) ++ (if a.isOpen then "..." else "")

end Alphabet

end WeightedAutomata
