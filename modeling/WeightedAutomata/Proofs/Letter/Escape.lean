import WeightedAutomata.Proofs.Text.Reading

/-! The escaped text of a letter below U+00FF is read back as the letter. -/

namespace WeightedAutomata.Letter

open Text

/-- Whether the letter is one below U+00FF, except for the reserved U+0000. -/
def Writable (c : Char) : Prop := 1 ≤ c.toNat ∧ c.toNat ≤ 0xfe

variable {c : Char}

theorem hexByte?_hexDigits : ∀ code < 256, hexByte? (hexDigits code) = some code := by
  decide +kernel

/-- The signs of the code of a byte are digits, where the first may be a plus sign. -/
theorem digit_of_hexByte? {cs : List Char} {code : Nat} (read : hexByte? cs = some code) :
    ∀ d ∈ cs, d = '+' ∨ (hexByte?.hexDigit? d).isSome := by
  have digits {ds : List Char} {start value : Nat}
      (read : ds.foldlM (fun value d => (hexByte?.hexDigit? d).map (16 * value + ·)) start =
        some value) : ∀ d ∈ ds, (hexByte?.hexDigit? d).isSome := by
    induction ds generalizing start with
    | nil => exact fun d member => absurd member List.not_mem_nil
    | cons e ds ih =>
      rw [List.foldlM_cons] at read
      obtain ⟨next, first, others⟩ := Option.bind_eq_some_iff.mp read
      obtain ⟨digit, known, _⟩ := Option.map_eq_some_iff.mp first
      exact List.forall_mem_cons.mpr ⟨Option.isSome_of_eq_some known, ih others⟩
  unfold hexByte? at read
  split at read
  · dsimp only at read
    split at read
    · cases read
    · exact List.forall_mem_cons.mpr ⟨.inl rfl, fun d member => .inr (digits read d member)⟩
  · dsimp only at read
    split at read
    · cases read
    · exact fun d member => .inr (digits read d member)

theorem ofCode_hexDigits (writable : Writable c) (label : String) :
    ofCode (hexDigits c.toNat) label = .ok c := by
  obtain ⟨low, high⟩ := writable
  have two : ¬ (hexDigits c.toNat).length ≠ 2 := fun differ => differ rfl
  have allowed : ¬ (c.toNat = 0 ∨ c.toNat = 0xff) := by omega
  unfold ofCode
  rw [if_neg two, hexByte?_hexDigits _ (by omega)]
  dsimp only
  rw [if_neg allowed, Char.ofNat_toNat]

/-- The ways to write a letter where the signs have a meaning: after a backslash, by its code, or as
it is. -/
inductive Writing (signs : List Char) (c : Char) : List Char → Prop
  | escaped (sign : c ∈ signs) : Writing signs c ['\\', c]
  | coded (needed : needsCode c = true) : Writing signs c (coded c)
  | plain (other : c ∉ signs) (raw : needsCode c = false) : Writing signs c [c]

theorem writing (signs : List Char) (c : Char) : Writing signs c
    (if signs.contains c then ['\\', c] else if needsCode c then coded c else [c]) := by
  by_cases sign : signs.contains c = true
  · rw [if_pos sign]
    exact .escaped (List.contains_iff_mem.mp sign)
  · rw [if_neg sign]
    by_cases needed : needsCode c = true
    · rw [if_pos needed]
      exact .coded needed
    · rw [if_neg needed]
      exact .plain (fun member => sign (List.contains_iff_mem.mpr member))
        (Bool.eq_false_iff.mpr needed)

theorem writing_escape (c : Char) : Writing operators c (escape c) := writing operators c

theorem needsCode_iff : needsCode c = true ↔ c.toNat < 0x20 ∨ 0x7f ≤ c.toNat ∧ c.toNat ≤ 0xff := by
  simp only [needsCode, Bool.or_eq_true, Bool.and_eq_true, decide_eq_true_eq]

theorem not_needsCode_iff : needsCode c = false ↔
    0x20 ≤ c.toNat ∧ (c.toNat < 0x7f ∨ 0xff < c.toNat) := by
  rw [Bool.eq_false_iff, ne_eq, needsCode_iff]
  omega

theorem escapedLetter_escaped (differ : c ≠ 'x') (pos : Nat) (rest : List Char) :
    Reader.escapedLetter ⟨pos, '\\' :: c :: rest⟩ = .ok c ⟨pos + 2, rest⟩ := by
  unfold Reader.escapedLetter
  simp only [List.drop_succ_cons, List.drop_zero]
  rfl

theorem escapedLetter_coded (writable : Writable c) (pos : Nat) (rest : List Char) :
    Reader.escapedLetter ⟨pos, coded c ++ rest⟩ = .ok c ⟨pos + 4, rest⟩ := by
  have digits := ofCode_hexDigits writable
  have behind : (coded c ++ rest).drop 1 = 'x' :: (hexDigits c.toNat ++ rest) := rfl
  have code : (hexDigits c.toNat ++ rest).take 2 = hexDigits c.toNat := rfl
  unfold Reader.escapedLetter
  dsimp only
  rw [behind]
  split
  · next same => cases same
  · next same =>
    cases same
    rw [code, digits]
    rfl
  · next other same => exact (other (List.cons.inj same).1.symm).elim

end WeightedAutomata.Letter
