import WeightedAutomata.Weights.Exact
import WeightedAutomata.Weights.Tropical

/-! Where the star of a weight is defined, and how it fails. -/

namespace WeightedAutomata

namespace Weights

/-- Weights whose star fails for one reason only: there is none. -/
class PartialStar (K : Type) [Weights K] : Prop where
  notStarable {a : K} {e : Error} : star a = .error e → ∃ text, e = .notStarable text

/-- Weights that have a star wherever they add nothing to one. -/
class Starred (K : Type) [Weights K] : Prop where
  exists_star {a : K} : add a one = one → ∃ b, star a = .ok b

end Weights

instance : Weights.PartialStar Bool where
  notStarable failed := nomatch failed

instance : Weights.Starred Bool where
  exists_star _ := ⟨true, rfl⟩

instance : Weights.PartialStar Int where
  notStarable {a e} failed := by
    change IntegerWeight.star a = .error e at failed
    unfold IntegerWeight.star at failed
    split at failed
    · cases failed
    · cases failed
      exact ⟨_, rfl⟩

instance : Weights.Starred Int where
  exists_star {a} absorbed := by
    change a + 1 = 1 at absorbed
    have zero : a = 0 := by omega
    subst zero
    exact ⟨1, rfl⟩

instance : Weights.PartialStar Rat where
  notStarable {a e} failed := by
    change RationalWeight.star a = .error e at failed
    unfold RationalWeight.star at failed
    split at failed
    · cases failed
    · cases failed
      exact ⟨_, rfl⟩

instance : Weights.Starred Rat where
  exists_star {a} absorbed := by
    change a + 1 = 1 at absorbed
    have zero : a = 0 := by grind
    subst zero
    exact ⟨_, rfl⟩

instance {e : Extremum} : Weights.PartialStar (Tropical e) where
  notStarable {a e'} failed := by
    change Tropical.star a = .error e' at failed
    cases a with
    | infinite => cases failed
    | finite n =>
      rw [Tropical.star] at failed
      split at failed
      · cases failed
      · cases failed
        exact ⟨_, rfl⟩

instance {e : Extremum} : Weights.Starred (Tropical e) where
  exists_star {a} absorbed := by
    cases a with
    | infinite => exact ⟨_, rfl⟩
    | finite n =>
      have best : Tropical.best e n 0 = 0 := Tropical.finite.inj absorbed
      refine ⟨.finite 0, ?_⟩
      change Tropical.star (.finite n) = _
      rw [Tropical.star, if_pos]
      cases e <;> grind [Tropical.best]

end WeightedAutomata
