import WeightedAutomata.Proofs.Expression.Operands
import WeightedAutomata.Proofs.Expression.Operators
import WeightedAutomata.Proofs.Expression.Tapes

/-! Reading the text of an expression normalizes the expression. -/

namespace WeightedAutomata

mutual

/-- Whether the letters of the label can be written, on every tape. -/
def Label.Writable : Label → Prop
  | .letter c => Letter.Writable c
  | .word u => ∀ c ∈ u, Letter.Writable c
  | .tuple labels => AllWritable labels
  | .one | .special => True

def Label.AllWritable : List Label → Prop
  | [] => True
  | l :: labels => l.Writable ∧ AllWritable labels

end

theorem Label.writable_of_mem {l : Label} {labels : List Label} (writable : AllWritable labels)
    (member : l ∈ labels) : l.Writable := by
  induction labels with
  | nil => cases member
  | cons m labels ih =>
    rcases List.mem_cons.mp member with rfl | later
    · exact writable.1
    · exact ih writable.2 later

variable {K : Type} [Weights K]

open Weights (Legible)

/-- Expressions over a label set whose text can be read: letters and weights can be written, variadic
nodes have several operands, tuples have one for each tape, and only Boolean weights have
complements. -/
inductive Exp.Fits [Legible K] : LabelSet → Exp K → Prop
  | zero {ls : LabelSet} : Fits ls .zero
  | one {ls : LabelSet} : Fits ls .one
  | atom {ls : LabelSet} {l : Label} (member : ls.contains l = true) (writable : l.Writable) :
    Fits ls (.atom l)
  | sum {ls : LabelSet} {es : List (Exp K)} (several : 2 ≤ es.length)
    (operands : ∀ e ∈ es, Fits ls e) : Fits ls (.sum es)
  | prod {ls : LabelSet} {es : List (Exp K)} (several : 2 ≤ es.length)
    (operands : ∀ e ∈ es, Fits ls e) : Fits ls (.prod es)
  | conjunction {ls : LabelSet} {es : List (Exp K)} (several : 2 ≤ es.length)
    (operands : ∀ e ∈ es, Fits ls e) : Fits ls (.conjunction es)
  | shuffle {ls : LabelSet} {es : List (Exp K)} (several : 2 ≤ es.length)
    (operands : ∀ e ∈ es, Fits ls e) : Fits ls (.shuffle es)
  | star {ls : LabelSet} {e : Exp K} (operand : Fits ls e) : Fits ls (.star e)
  | transposition {ls : LabelSet} {e : Exp K} (operand : Fits ls e) : Fits ls (.transposition e)
  | complement {ls : LabelSet} {e : Exp K} (boolean : Weights.isBoolean K = true)
    (operand : Fits ls e) : Fits ls (.complement e)
  | lweight {ls : LabelSet} {w : K} {e : Exp K} (writable : Legible.Writable w)
    (operand : Fits ls e) : Fits ls (.lweight w e)
  | rweight {ls : LabelSet} {e : Exp K} {w : K} (writable : Legible.Writable w)
    (operand : Fits ls e) : Fits ls (.rweight e w)
  | tuple {tapes : List LabelSet} {es : List (Exp K)} (each : es.length = tapes.length)
    (operands : ∀ p ∈ tapes.zip es, Fits p.1 p.2) : Fits (.tuple tapes) (.tuple es)

namespace ExpressionSet

open Text Text.Reader

variable {s : ExpressionSet} {e : Exp K} {es : List (Exp K)} {style : Style}

/-! ### Operands and tapes -/

theorem readings_guarded (flat : s.labels.Flat)
    (operands : ∀ e ∈ es, Reading s e e.strength (e.chars style)) (least : Exp.Strength) :
    List.Forall₂ (fun e t => Reading s e least t) es (es.map (·.guardedChars style least)) := by
  rw [List.forall₂_map_right_iff, List.forall₂_same]
  exact fun e member => (operands e member).guarded flat least

theorem reading_tuple {tapes : List LabelSet} (labels : s.labels = .tuple tapes)
    (flat : s.labels.Flat)
    (operands : List.Forall₂
      (fun tape e => Reading { s with labels := tape } e e.strength (e.chars style)) tapes es) :
    Reading s (.tuple es) .tuple ((.tuple es : Exp K).chars style) := by
  rw [labels] at flat
  obtain ⟨several, single⟩ := flat
  have guarded : List.Forall₂ (fun tape e => Reading { s with labels := tape } e .conjunction
      (e.guardedChars style .conjunction)) tapes es := by
    apply List.forall₂_iff_zip.mpr
    refine ⟨operands.length_eq, fun {tape e} member => ?_⟩
    have reading := (List.forall₂_iff_zip.mp operands).2 member
    exact reading.guarded (single tape (List.of_mem_zip member).1).flat _
  cases guarded with
  | nil => exact absurd several (by decide)
  | @cons tape e back es first others =>
    have more : back ≠ [] := by
      rintro rfl
      exact absurd (show 2 ≤ 1 from several) (by decide)
    rw [Exp.chars_tuple]
    exact Reading.tupled labels more (.cons first others)

/-! ### Atoms -/

theorem reading_label {l : Label} (single : s.labels.Single)
    (member : s.labels.contains l = true) (writable : l.Writable) :
    Reading s (.atom l : Exp K) (.atom l : Exp K).strength ((.atom l : Exp K).chars style) := by
  rcases label_cases single member with rfl | ⟨c, rfl⟩
  · rw [Exp.chars_atom_one]
    apply reading_one
    rintro v rfl
    rw [normalize]
    rfl
  · rw [Exp.chars_atom_letter]
    rw [Label.Writable] at writable
    exact reading_letter writable single member

theorem reading_atom {l : Label} (flat : s.labels.Flat)
    (member : s.labels.contains l = true) (writable : l.Writable) :
    Reading s (.atom l : Exp K) (.atom l : Exp K).strength ((.atom l : Exp K).chars style) := by
  cases set : s.labels with
  | letters | nullable =>
    rw [set] at flat
    apply reading_label _ member writable
    rw [set]
    exact flat
  | words =>
    rw [set] at flat
    exact flat.elim
  | tuple tapes =>
    have flat' := flat
    rw [set] at member flat'
    obtain ⟨labels, rfl⟩ : ∃ labels, l = .tuple labels := by
      cases l with
      | tuple labels => exact ⟨labels, rfl⟩
      | _ => cases member
    rw [LabelSet.contains, containsEach_iff] at member
    have operands : List.Forall₂ (fun tape e => Reading { s with labels := tape } e e.strength
        (e.chars style)) tapes (labels.map Exp.atom : List (Exp K)) := by
      rw [List.forall₂_map_right_iff]
      apply List.forall₂_iff_zip.mpr
      refine ⟨member.length_eq, fun {tape l} inside => ?_⟩
      rw [Label.Writable] at writable
      have single : tape.Single := flat'.2 tape (List.of_mem_zip inside).1
      exact reading_label single ((List.forall₂_iff_zip.mp member).2 inside)
        (Label.writable_of_mem writable (List.of_mem_zip inside).2)
    have leaves : ∀ l ∈ labels, (Exp.atom l : Exp K).strength = .leaf := by
      refine forall_right (P := fun l => (Exp.atom l : Exp K).strength = .leaf)
        ((List.forall₂_and_left _ _).mpr ⟨flat'.2, member⟩) ?_
      rintro tape l ⟨single, contained⟩
      rcases label_cases single contained with rfl | ⟨c, rfl⟩ <;> rfl
    have reading := reading_tuple set flat operands
    rw [Exp.chars_atom_tuple leaves]
    refine ⟨reading.opens, fun tight => reading.plain tight, fun setting => ?_⟩
    intro rest fuel follows enough
    apply (reading.reads setting rest fuel follows enough).imp
    intro v value strict
    rw [← normalize_atoms set flat'.2 member]
    exact value strict

/-! ### Factors -/

/-- A factor stands as it is, or in parentheses. -/
theorem factorStrength_cases {K : Type} (isFirst isLast : Bool) (e : Exp K) :
    Exp.factorStrength isFirst isLast e = .leaf ∨ Exp.factorStrength isFirst isLast e = .product ∧
      (∀ es, e ≠ .prod es) ∧ (isFirst = false → e.rightStrength = .weight) := by
  cases e with
  | lweight => cases isFirst <;> simp [Exp.factorStrength]
  | rweight => cases isLast <;> simp [Exp.factorStrength, Exp.rightStrength]
  | prod => exact .inl rfl
  | _ => exact .inr ⟨rfl, by simp, fun _ => rfl⟩

theorem guardedChars_product (other : e.strength ≠ .product) :
    e.guardedChars style .product = e.guardedChars style .weight := by
  have same : e.strength.level < Exp.Strength.product.level ↔
      e.strength.level < Exp.Strength.weight.level := by
    cases strength : e.strength <;> first | exact absurd strength other | decide
  unfold Exp.guardedChars
  simp only [same]

/-- A factor is read like an operand with weights, and one that is not the first has no weight in
front. -/
theorem reading_factor (flat : s.labels.Flat) (reading : Reading s e e.strength (e.chars style))
    (single : e.strength = .product → ∃ es, e = .prod es) (isFirst isLast : Bool) :
    Reading s e .weight (e.guardedChars style (Exp.factorStrength isFirst isLast e)) ∧
      (isFirst = false → Plain (e.guardedChars style (Exp.factorStrength isFirst isLast e))) := by
  rcases factorStrength_cases isFirst isLast e with leaf | ⟨product, notProduct, unweighted⟩
  · rw [leaf]
    have guarded := reading.guarded flat .leaf
    refine ⟨guarded.loosen flat (by decide), fun _ => guarded.plain ?_⟩
    exact Nat.le_succ_of_le (Exp.rightStrength_le e)
  · have other : e.strength ≠ .product := by
      intro strength
      obtain ⟨es, same⟩ := single strength
      exact notProduct es same
    rw [product, guardedChars_product other]
    have guarded := reading.guarded flat .weight
    refine ⟨guarded, fun later => guarded.plain ?_⟩
    rw [unweighted later]

theorem readings_factors (flat : s.labels.Flat)
    (operands : ∀ e ∈ es, Reading s e e.strength (e.chars style))
    (single : ∀ e ∈ es, e.strength = .product → ∃ es, e = .prod es) :
    ∃ ts, Exp.factorChars style false es = ts.flatMap ([] ++ ·) ∧
      List.Forall₂ (fun e t => Reading s e .weight t ∧ Plain t) es ts := by
  induction es with
  | nil => exact ⟨[], rfl, .nil⟩
  | cons e es ih =>
    obtain ⟨first, others⟩ := List.forall_mem_cons.mp operands
    obtain ⟨atMost, rest⟩ := List.forall_mem_cons.mp single
    obtain ⟨ts, same, readings⟩ := ih others rest
    obtain ⟨factor, plain⟩ := reading_factor flat first atMost false es.isEmpty
    refine ⟨_ :: ts, ?_, .cons ⟨factor, plain rfl⟩ readings⟩
    rw [Exp.factorChars, same, List.flatMap_cons]
    rfl

/-! ### Expressions -/

variable [Legible K]

/-- Only products have the strength of products, as no atom is a word. -/
theorem prod_of_strength {ls : LabelSet} (flat : ls.Flat) (fits : e.Fits ls)
    (strength : e.strength = .product) : ∃ es, e = .prod es := by
  cases fits with
  | prod => exact ⟨_, rfl⟩
  | @atom _ l member _ =>
    cases l with
    | word =>
      cases ls with
      | words => exact flat.elim
      | _ => cases member
    | _ => cases strength
  | _ => cases strength

theorem reading_of_fits {ls : LabelSet} (fits : e.Fits ls) :
    ∀ s : ExpressionSet, s.labels = ls → ls.Flat → Reading s e e.strength (e.chars style) := by
  induction fits with
  | zero =>
    intro s _ _
    rw [Exp.chars_zero]
    exact reading_zero s style
  | one =>
    intro s _ _
    rw [Exp.chars_one]
    apply reading_one
    rintro v rfl
    rw [normalize]
  | atom member writable =>
    rintro s rfl flat
    exact reading_atom flat member writable
  | @sum ls es several _ ih =>
    rintro s rfl flat
    have operands := readings_guarded flat (fun e member => ih e member s rfl flat) .tuple
    cases es with
    | nil => exact absurd (show 2 ≤ 0 from several) (by decide)
    | cons e es =>
      obtain ⟨first, others⟩ := List.forall₂_cons.mp operands
      rw [Exp.chars_sum]
      exact Reading.sum first others
  | @conjunction ls es several _ ih =>
    rintro s rfl flat
    have operands := readings_guarded flat (fun e member => ih e member s rfl flat) .shuffle
    cases es with
    | nil => exact absurd (show 2 ≤ 0 from several) (by decide)
    | cons e es =>
      obtain ⟨first, others⟩ := List.forall₂_cons.mp operands
      rw [Exp.chars_conjunction]
      exact Reading.conjunction first others
  | @shuffle ls es several _ ih =>
    rintro s rfl flat
    have operands := readings_guarded flat (fun e member => ih e member s rfl flat) .product
    cases es with
    | nil => exact absurd (show 2 ≤ 0 from several) (by decide)
    | cons e es =>
      obtain ⟨first, others⟩ := List.forall₂_cons.mp operands
      rw [Exp.chars_shuffle]
      exact Reading.shuffle first others
  | @prod ls es several members ih =>
    rintro s rfl flat
    have operands : ∀ e ∈ es, Reading s e e.strength (e.chars style) :=
      fun e member => ih e member s rfl flat
    have single : ∀ e ∈ es, e.strength = .product → ∃ es, e = .prod es :=
      fun e member => prod_of_strength flat (members e member)
    cases es with
    | nil => exact absurd (show 2 ≤ 0 from several) (by decide)
    | cons e es =>
      obtain ⟨first, others⟩ := List.forall_mem_cons.mp operands
      obtain ⟨atMost, rest⟩ := List.forall_mem_cons.mp single
      obtain ⟨ts, same, readings⟩ := readings_factors flat others rest
      rw [Exp.chars_prod, Exp.factorChars, same]
      exact Reading.prod (reading_factor flat first atMost true es.isEmpty).1 readings
  | star _ ih =>
    rintro s rfl flat
    rw [Exp.chars_star]
    exact ((ih s rfl flat).guarded flat .suffix).star
  | transposition _ ih =>
    rintro s rfl flat
    rw [Exp.chars_transposition]
    exact ((ih s rfl flat).guarded flat .suffix).transposition
  | complement boolean _ ih =>
    rintro s rfl flat
    rw [Exp.chars_complement]
    exact ((ih s rfl flat).guarded flat .suffix).complement boolean
  | lweight writable _ ih =>
    rintro s rfl flat
    rw [Exp.chars_lweight]
    exact ((ih s rfl flat).guarded flat .weight).lweight writable
  | rweight writable _ ih =>
    rintro s rfl flat
    rw [Exp.chars_rweight]
    exact ((ih s rfl flat).guarded flat _).rweight writable flat
  | @tuple tapes es each _ ih =>
    intro s labels flat
    apply reading_tuple labels (labels ▸ flat)
    apply List.forall₂_iff_zip.mpr
    refine ⟨each.symm, fun {tape e} member => ?_⟩
    have single : tape.Single := flat.2 tape (List.of_mem_zip member).1
    exact ih (tape, e) member _ rfl single.flat

/-- The text of an expression can be read, and what is read is the normal form of the expression. -/
theorem parse_format (flat : s.labels.Flat) (fits : e.Fits s.labels) (style : Style) :
    ∃ n, s.normalize e = .ok n ∧ s.parse (e.format style).toList = .ok n := by
  have own : Reading s e e.strength (e.chars style) := reading_of_fits fits s rfl flat
  have whole : Reading s e .sum (e.chars style) := own.loosen flat (Nat.zero_le _)
  have setting : Over false s s := rfl
  have read := whole.reads setting [] (readingFuel (e.chars style).length) (follows_nil _) (by
    rw [List.append_nil, readingFuel]
    omega)
  rw [List.append_nil] at read
  obtain ⟨n, stop, done, value⟩ := read.value 0
  refine ⟨n, value rfl, ?_⟩
  have complete : (do
      let e ← readSum (readingFuel (e.chars style).length) s
      skipBlanks
      expectEnd
      return e : Reader (Exp K)) (Cursor.ofText (e.chars style)) = .ok n ⟨stop, []⟩ :=
    (bind_ok done).trans rfl
  change s.parse (e.chars style) = .ok n
  unfold parse Reader.parse
  rw [complete]

theorem parse_format_of_escaped_tapes :
    let set : ExpressionSet :=
      ⟨.tuple [.nullable (.ofLetters false ['a', '\n']), .letters (.ofLetters true [])], .linear⟩
    let e : Exp (Tropical .min) :=
      .sum [.tuple [.star (.lweight (.finite 2) (.atom (.letter '\n'))), .atom (.letter '+')],
        .prod [.rweight (.atom (.tuple [.one, .letter 'é'])) (.finite (-3)), .star .one]]
    e.format .ascii = "(<2>\\x0a)*|\\++((\\e|\\xe9)<-3>)\\e*" ∧
      ∃ n, set.normalize e = .ok n ∧ set.parse (e.format .ascii).toList = .ok n := by
  intro set e
  have two : Legible.Writable (.finite 2 : Tropical .min) := ⟨by decide, by decide⟩
  have three : Legible.Writable (.finite (-3) : Tropical .min) := ⟨by decide, by decide⟩
  have newline : (Label.letter '\n').Writable := by
    simp [Label.Writable, Letter.Writable]
  have plus : (Label.letter '+').Writable := by
    simp [Label.Writable, Letter.Writable]
  have pair : (Label.tuple [.one, .letter 'é']).Writable := by
    simp [Label.Writable, Label.AllWritable, Letter.Writable]
  have flat : set.labels.Flat := by
    simp [set, LabelSet.Flat, LabelSet.Single]
  have fits : e.Fits set.labels := by
    apply Exp.Fits.sum (by decide)
    simp only [List.mem_cons, List.not_mem_nil, or_false, forall_eq_or_imp, forall_eq]
    constructor
    · apply Exp.Fits.tuple rfl
      simp only [List.zip_cons_cons, List.zip_nil_right, List.mem_cons, List.not_mem_nil, or_false,
        forall_eq_or_imp, forall_eq]
      exact ⟨.star (.lweight two (.atom (by decide) newline)), .atom (by decide) plus⟩
    · apply Exp.Fits.prod (by decide)
      simp only [List.mem_cons, List.not_mem_nil, or_false, forall_eq_or_imp, forall_eq]
      exact ⟨.rweight three (.atom (by decide) pair), .star .one⟩
  exact ⟨by decide +kernel, parse_format flat fits .ascii⟩

end ExpressionSet

end WeightedAutomata
