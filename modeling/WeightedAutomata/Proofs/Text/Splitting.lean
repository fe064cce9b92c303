import Mathlib.Data.List.Basic
import WeightedAutomata.Text.Blank

/-! Texts that splitters leave in one piece, and texts that trimming leaves as they are. -/

namespace WeightedAutomata.Text

variable {split : List Char → List (List Char)} {t u m : List Char} {ps : List (List Char)}

/-- Whether no split is made in the text: it is part of the first piece, whatever follows. -/
def Whole (split : List Char → List (List Char)) (t : List Char) : Prop :=
  ∀ rest first others, split rest = first :: others → split (t ++ rest) = (t ++ first) :: others

theorem whole_nil : Whole split [] := fun _ _ _ same => same

theorem Whole.append (left : Whole split t) (right : Whole split u) : Whole split (t ++ u) := by
  intro rest first others same
  rw [List.append_assoc, List.append_assoc]
  exact left _ _ _ (right _ _ _ same)

theorem whole_flatten (each : ∀ p ∈ ps, Whole split p) : Whole split ps.flatten := by
  induction ps with
  | nil => exact whole_nil
  | cons p ps ih =>
    obtain ⟨first, others⟩ := List.forall_mem_cons.mp each
    exact first.append (ih others)

/-- A text with ends that are no blanks. -/
structure Edged (t : List Char) : Prop where
  nonempty : t ≠ []
  first : ∀ c ∈ t.head?, isBlank c = false
  last : ∀ c ∈ t.getLast?, isBlank c = false

theorem Edged.trim (edged : Edged t) : Text.trim t = t := trim_of_solid_ends edged.first edged.last

/-- Only the ends count. -/
theorem Edged.around (left : Edged t) (right : Edged u) (m : List Char) :
    Edged (t ++ (m ++ u)) where
  nonempty := List.append_ne_nil_of_left_ne_nil left.nonempty _
  first c member := by
    rw [List.head?_append_of_ne_nil _ left.nonempty] at member
    exact left.first c member
  last c member := by
    rw [← List.append_assoc, List.getLast?_append_of_ne_nil _ right.nonempty] at member
    exact right.last c member

theorem edged_joined (mark : List Char) (first : Edged t) (others : ∀ p ∈ ps, Edged p) :
    Edged (t ++ ps.flatMap fun p => mark ++ p) := by
  induction ps generalizing t with
  | nil => rwa [List.flatMap_nil, List.append_nil]
  | cons p ps ih =>
    obtain ⟨second, rest⟩ := List.forall_mem_cons.mp others
    rw [List.flatMap_cons, List.append_assoc]
    exact first.around (ih second rest) mark

/-- Blanks around a text are no part of it. -/
theorem Edged.skipBlanks_append (edged : Edged t) (front : ∀ c ∈ m, isBlank c = true)
    (rest : List Char) : skipBlanks (m ++ (t ++ rest)) = t ++ rest := by
  obtain ⟨c, t, rfl⟩ := List.exists_cons_of_ne_nil edged.nonempty
  unfold skipBlanks
  rw [List.dropWhile_append_of_pos front]
  exact skipBlanks_cons_of_not_blank (t ++ rest) (edged.first c rfl)

theorem Edged.reverse (edged : Edged t) : Edged t.reverse where
  nonempty := List.reverse_ne_nil_iff.mpr edged.nonempty
  first c member := edged.last c (List.head?_reverse ▸ member)
  last c member := edged.first c (List.getLast?_reverse ▸ member)

theorem Edged.trim_append (edged : Edged t) (back : ∀ c ∈ m, isBlank c = true) :
    Text.trim (t ++ m) = t := by
  have front : skipBlanks (t ++ m) = t ++ m := edged.skipBlanks_append (m := []) nofun m
  have behind := edged.reverse.skipBlanks_append
    (fun c member => back c (List.mem_reverse.mp member)) []
  rw [List.append_nil] at behind
  unfold Text.trim
  rw [front, List.reverse_append, behind, List.reverse_reverse]

theorem intercalate_cons (mark t : List Char) (ts : List (List Char)) :
    mark.intercalate (t :: ts) = t ++ ts.flatMap fun t => mark ++ t := by
  induction ts generalizing t with
  | nil => simp [List.intercalate]
  | cons u ts ih =>
    rw [List.intercalate_cons_cons, ih, List.flatMap_cons, List.append_assoc, List.append_assoc]

theorem edged_of_solid (nonempty : t ≠ []) (solid : ∀ c ∈ t, isBlank c = false) : Edged t where
  nonempty := nonempty
  first c member := solid c (List.mem_of_mem_head? member)
  last c member := solid c (List.mem_of_getLast? member)

end WeightedAutomata.Text
