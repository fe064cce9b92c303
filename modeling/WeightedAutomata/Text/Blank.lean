/-!
White space, and texts without it at their ends.
-/

namespace WeightedAutomata.Text

/-- The characters with the Unicode property White_Space. -/
def isBlank (c : Char) : Bool :=
  let code := c.toNat
  (9 ≤ code && code ≤ 13) || code == 0x20 || code == 0x85 || code == 0xa0 || code == 0x1680 ||
    (0x2000 ≤ code && code ≤ 0x200a) || code == 0x2028 || code == 0x2029 || code == 0x202f ||
    code == 0x205f || code == 0x3000

/-- Removes the blanks in front. -/
def skipBlanks (cs : List Char) : List Char := cs.dropWhile isBlank

/-- Removes the blanks at both ends. -/
def trim (cs : List Char) : List Char := (skipBlanks (skipBlanks cs).reverse).reverse

theorem skipBlanks_cons_of_not_blank {c : Char} (cs : List Char) (solid : isBlank c = false) :
    skipBlanks (c :: cs) = c :: cs := by
  simp [skipBlanks, solid]

theorem trim_of_solid_ends {cs : List Char} (first : ∀ c ∈ cs.head?, isBlank c = false)
    (last : ∀ c ∈ cs.getLast?, isBlank c = false) : trim cs = cs := by
  cases cs with
  | nil => rfl
  | cons c rest =>
    have front : skipBlanks (c :: rest) = c :: rest :=
      skipBlanks_cons_of_not_blank rest (first c (by simp))
    unfold trim
    rw [front]
    cases back : (c :: rest).reverse with
    | nil => simp at back
    | cons d before =>
      have ends : (c :: rest).getLast? = some d := by
        rw [← List.head?_reverse, back]
        rfl
      rw [skipBlanks_cons_of_not_blank before (last d (by simp [ends])), ← back, List.reverse_reverse]

/-- Splits at the first `mark`, which neither part keeps. -/
def splitOnce (mark : Char) : List Char → Option (List Char × List Char)
  | [] => none
  | c :: rest =>
    if c == mark then some ([], rest)
    else (splitOnce mark rest).map fun (front, back) => (c :: front, back)

theorem splitOnce_eq_some {mark : Char} {cs front back : List Char}
    (found : splitOnce mark cs = some (front, back)) : cs = front ++ mark :: back := by
  induction cs generalizing front with
  | nil => simp [splitOnce] at found
  | cons c rest ih =>
    by_cases same : c == mark
    · simp only [splitOnce, same, if_true, Option.some.injEq, Prod.mk.injEq] at found
      obtain ⟨rfl, rfl⟩ := found
      simp [beq_iff_eq.mp same]
    · simp only [splitOnce, same, Bool.false_eq_true, if_false, Option.map_eq_some_iff] at found
      obtain ⟨⟨front, back⟩, tail, ends⟩ := found
      simp only [Prod.mk.injEq] at ends
      obtain ⟨rfl, rfl⟩ := ends
      simp [ih tail]

end WeightedAutomata.Text
