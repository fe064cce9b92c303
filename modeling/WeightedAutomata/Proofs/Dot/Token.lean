import WeightedAutomata.Dot.Writer
import WeightedAutomata.Dot.Token

/-! Texts of graph descriptions are cut into the tokens they were made of. -/

namespace WeightedAutomata.Dot

/-- Whether no name goes on. -/
def EndsName (cs : List Char) : Prop := ∀ c ∈ cs.head?, isNameChar c = false

/-- A text made of tokens, with gaps where they are wanted. -/
inductive Renders : List Char → List Token → Prop
  | nil : Renders [] []
  | gap {c : Char} {cs : List Char} {ts : List Token} : isGap c = true → Renders cs ts →
    Renders (c :: cs) ts
  | sign {c : Char} {cs : List Char} {ts : List Token} : c ∈ signs → Renders cs ts →
    Renders (c :: cs) (.sign c :: ts)
  | arrow {cs : List Char} {ts : List Token} : Renders cs ts →
    Renders ('-' :: '>' :: cs) (.arrow :: ts)
  | identifier {name cs : List Char} {ts : List Token} : name ≠ [] → name.all isNameChar = true →
    EndsName cs → Renders cs ts → Renders (name ++ cs) (.identifier name :: ts)
  | quoted (body : List Char) {cs : List Char} {ts : List Token} : Renders cs ts →
    Renders ('"' :: (body.flatMap quotedChar ++ '"' :: cs)) (.quoted body :: ts)

variable {c : Char} {cs name body rest : List Char} {ts : List Token} {start total : Nat}

/-! ### One token -/

theorem isGap_cases (gap : isGap c = true) : c = ' ' ∨ c = '\t' ∨ c = '\r' ∨ c = '\n' := by
  simpa [isGap, or_assoc] using gap

theorem not_gap_of_name (named : isNameChar c = true) : isGap c = false := by
  refine Bool.eq_false_iff.mpr fun gap => ?_
  rcases isGap_cases gap with rfl | rfl | rfl | rfl <;> exact absurd named (by decide)

theorem not_sign_of_name (named : isNameChar c = true) : c ∉ signs := by
  intro member
  simp only [signs, List.mem_cons, List.not_mem_nil, or_false] at member
  rcases member with rfl | rfl | rfl | rfl | rfl | rfl | rfl <;> exact absurd named (by decide)

theorem step_gap (gap : isGap c = true) (start total : Nat) (cs : List Char) :
    step start total c cs = .ok (none, cs) := by
  rcases isGap_cases gap with rfl | rfl | rfl | rfl <;> rfl

theorem step_sign (member : c ∈ signs) (start total : Nat) (cs : List Char) :
    step start total c cs = .ok (some (.sign c), cs) := by
  simp only [signs, List.mem_cons, List.not_mem_nil, or_false] at member
  rcases member with rfl | rfl | rfl | rfl | rfl | rfl | rfl <;> rfl

theorem step_name (named : isNameChar c = true) (start total : Nat) (cs : List Char) :
    step start total c cs =
      .ok (some (.identifier (c :: cs.takeWhile isNameChar)), cs.dropWhile isNameChar) := by
  have sign : signs.contains c = false :=
    Bool.eq_false_iff.mpr fun listed => not_sign_of_name named (List.contains_iff_mem.mp listed)
  unfold step
  split
  case _ | _ | _ | _ | _ => exact absurd named (by decide)
  case _ =>
    rw [not_gap_of_name named, if_neg Bool.false_ne_true, sign, if_neg Bool.false_ne_true,
      if_pos named]

theorem step_quote (found : quotedBody cs = some (body, rest)) (start total : Nat) :
    step start total '"' cs = .ok (some (.quoted body), rest) := by
  unfold step
  simp only [found]

theorem quotedBody_flatMap (body cs : List Char) :
    quotedBody (body.flatMap quotedChar ++ '"' :: cs) = some (body, cs) := by
  induction body with
  | nil => rfl
  | cons c body ih =>
    rw [List.flatMap_cons, List.append_assoc]
    by_cases special : c = '"' ∨ c = '\\'
    · rw [quotedChar, if_pos special]
      change (quotedBody (body.flatMap quotedChar ++ '"' :: cs)).map _ = _
      rw [ih]
      simp only [Option.map_some, if_pos special]
    · obtain ⟨quote, backslash⟩ := not_or.mp special
      rw [quotedChar, if_neg special]
      change quotedBody (c :: (body.flatMap quotedChar ++ '"' :: cs)) = _
      rw [quotedBody, ih]
      · rfl
      · simp [quote]
      · simp [backslash]

/-! ### All tokens -/

theorem tokenizeRest_cons (token? : Option Token) (total : Nat)
    (taken : ∀ start, step start total c cs = .ok (token?, rest))
    (tokens : ∃ ls, tokenizeRest total rest = .ok ls ∧ ls.map (·.token) = ts) :
    ∃ ls, tokenizeRest total (c :: cs) = .ok ls ∧ ls.map (·.token) = token?.toList ++ ts := by
  obtain ⟨ls, done, same⟩ := tokens
  rw [tokenizeRest]
  split
  · rename_i failed
    rw [taken] at failed
    cases failed
  · rename_i found
    rw [taken] at found
    cases found
    rw [done]
    cases token? with
    | none => exact ⟨ls, rfl, same⟩
    | some token => exact ⟨_, rfl, congrArg (token :: ·) same⟩

/-- The tokens of a text are those that it is made of. -/
theorem Renders.tokenizeRest (renders : Renders cs ts) (total : Nat) :
    ∃ ls, tokenizeRest total cs = .ok ls ∧ ls.map (·.token) = ts := by
  induction renders with
  | nil => exact ⟨[], by rw [Dot.tokenizeRest], rfl⟩
  | gap blank _ ih => exact tokenizeRest_cons none total (fun start => step_gap blank start total _) ih
  | sign member _ ih =>
    exact tokenizeRest_cons _ total (fun start => step_sign member start total _) ih
  | @arrow cs ts _ ih =>
    exact tokenizeRest_cons (some .arrow) total (fun _ => rfl) ih
  | @identifier name cs ts nonempty named ends _ ih =>
    cases name with
    | nil => exact absurd rfl nonempty
    | cons c name =>
      obtain ⟨first, others⟩ := List.forall_mem_cons.mp (List.all_eq_true.mp named)
      have whole : (name ++ cs).takeWhile isNameChar = name ∧
          (name ++ cs).dropWhile isNameChar = cs := by
        rw [List.takeWhile_append_of_pos others, List.dropWhile_append_of_pos others]
        cases cs with
        | nil => simp
        | cons d cs => simp [ends d rfl]
      refine tokenizeRest_cons (some (.identifier (c :: name))) total (fun start => ?_) ih
      change step start total c (name ++ cs) = _
      rw [step_name first, whole.1, whole.2]
  | quoted body _ ih =>
    have found := quotedBody_flatMap body
    exact tokenizeRest_cons _ total (fun start => step_quote (found _) start total) ih

/-! ### Lines -/

theorem endsName_append (ends : EndsName cs) (gap : EndsName rest) : EndsName (cs ++ rest) := by
  cases cs with
  | nil => exact gap
  | cons c cs => exact ends

/-- Lines follow each other. -/
theorem Renders.append {us : List Token} (renders : Renders cs ts) (others : Renders rest us) :
    Renders (cs ++ '\n' :: rest) (ts ++ us) := by
  induction renders with
  | nil => exact others.gap (by decide)
  | gap blank _ ih => exact ih.gap blank
  | sign member _ ih => exact ih.sign member
  | arrow _ ih => exact ih.arrow
  | identifier nonempty named ends _ ih =>
    rw [List.append_assoc]
    refine ih.identifier nonempty named (endsName_append ends ?_)
    rintro _ ⟨⟩
    decide
  | quoted body _ ih =>
    rw [List.cons_append, List.append_assoc]
    exact ih.quoted body

/-- The tokens of a text of names, signs and gaps. -/
def plainTokens : List Char → List Token
  | [] => []
  | c :: cs =>
    if isNameChar c then
      match cs.head?.any isNameChar, plainTokens cs with
      | true, .identifier name :: ts => .identifier (c :: name) :: ts
      | _, ts => .identifier [c] :: ts
    else if isGap c then plainTokens cs
    else .sign c :: plainTokens cs

/-- A text that starts with a name starts with the token of that name. -/
theorem Renders.exists_name (renders : Renders (c :: cs) ts) (named : isNameChar c = true) :
    ∃ name rest us, c :: cs = name ++ rest ∧ ts = .identifier name :: us ∧
      name.all isNameChar = true ∧ EndsName rest ∧ Renders rest us := by
  generalize text : c :: cs = whole at renders
  cases renders with
  | nil => cases text
  | gap blank =>
    cases text
    rw [not_gap_of_name named] at blank
    cases blank
  | sign member =>
    cases text
    exact absurd member (not_sign_of_name named)
  | arrow | quoted =>
    cases text
    exact absurd named (by decide)
  | identifier _ all ends rest => exact ⟨_, _, _, rfl, rfl, all, ends, rest⟩

theorem renders_plainTokens
    (plain : (cs.all fun c => isNameChar c || isGap c || signs.contains c) = true) :
    Renders cs (plainTokens cs) := by
  induction cs with
  | nil => exact .nil
  | cons c cs ih =>
    rw [List.all_cons, Bool.and_eq_true] at plain
    have rest := ih plain.2
    unfold plainTokens
    split
    · rename_i named
      cases next : cs.head?.any isNameChar with
      | true =>
        cases cs with
        | nil => cases next
        | cons d cs =>
          obtain ⟨name, after, us, text, tokens, all, ends, renders⟩ := rest.exists_name next
          rw [tokens, text]
          exact renders.identifier (List.cons_ne_nil c name) (by simp [named, all]) ends
      | false =>
        refine rest.identifier (List.cons_ne_nil c []) (by simp [named]) fun d first => ?_
        simpa [Option.mem_def.mp first] using next
    · rename_i unnamed
      split
      · rename_i gap
        exact rest.gap gap
      · rename_i solid
        have member : c ∈ signs := by simpa [unnamed, solid] using plain.1
        exact rest.sign member

end WeightedAutomata.Dot
