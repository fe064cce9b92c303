import Mathlib.Data.List.Forall2
import WeightedAutomata.Proofs.Expression.Leaves

/-! The texts of the tapes, between bars, are read as a tuple. -/

namespace WeightedAutomata.ExpressionSet

open Text Text.Reader

variable {K : Type} [Weights K] {s r : ExpressionSet} {e : Exp K} {es : List (Exp K)}
variable {t rest : List Char} {tape : LabelSet} {tapes front back : List LabelSet}
variable {text : Exp K → List Char}

theorem tape?_append (labels : s.labels = .tuple (front ++ tape :: back)) :
    s.tape? front.length = some { s with labels := tape } := by
  have all : s.labels.tapes? = some (front ++ tape :: back) := by
    rw [labels]
    rfl
  unfold tape? LabelSet.tape?
  rw [all]
  simp

theorem normalizeTapes_cons (labels : s.labels = .tuple (front ++ tape :: back)) {v : Exp K}
    {vs : List (Exp K)} (head : normalize { s with labels := tape } e = .ok v)
    (tail : s.normalizeTapes (front.length + 1) es = .ok vs) :
    s.normalizeTapes front.length (e :: es) = .ok (v :: vs) := by
  have here : s.requireTape K front.length = .ok { s with labels := tape } := by
    unfold requireTape
    rw [tape?_append labels]
  rw [normalizeTapes, here]
  change (do return (← normalize { s with labels := tape } e) ::
    (← s.normalizeTapes (front.length + 1) es) : Result (List (Exp K))) = _
  rw [head, tail]
  rfl

/-- The tapes but the first. -/
theorem reads_readTapes (labels : s.labels = .tuple (front ++ back)) (later : front ≠ [])
    (operands : List.Forall₂
      (fun tape e => Reading { s with labels := tape } e .conjunction (text e)) back es)
    (follows : Follows .tuple rest) {fuel : Nat}
    (enough : 16 * ((es.map text).flatMap (['|'] ++ ·) ++ rest).length + 6 ≤ fuel) :
    Reads false false (readTapes fuel s front.length back.length)
      ((es.map text).flatMap (['|'] ++ ·) ++ rest) rest
      fun vs => s.normalizeTapes front.length es = .ok vs := by
  induction operands generalizing front fuel with
  | nil =>
    obtain ⟨fuel, rfl⟩ : ∃ n, fuel = n + 1 := ⟨fuel - 1, by omega⟩
    intro pos
    rw [List.length_nil, readTapes]
    exact .ok (by rw [normalizeTapes])
  | @cons tape e back es first _ ih =>
    have filled := first.opens.length_pos
    have ends : Follows .conjunction ((es.map text).flatMap (['|'] ++ ·) ++ rest) := by
      cases es with
      | nil => exact fun c member => .inr (follows c member)
      | cons => exact follows_cons (show Closes .conjunction '|' from .inl rfl) _
    have others : s.labels = .tuple ((front ++ [tape]) ++ back) := by
      rw [labels, List.append_assoc]
      rfl
    rw [List.map_cons, List.flatMap_cons, List.append_assoc, List.append_assoc] at enough ⊢
    generalize (es.map text).flatMap (['|'] ++ ·) ++ rest = tail at enough ih ends ⊢
    simp only [List.length_append, List.length_singleton] at enough
    obtain ⟨fuel, rfl⟩ : ∃ n, fuel = n + 1 := ⟨fuel - 1, by omega⟩
    obtain ⟨i, index⟩ : ∃ i, front.length = i + 1 :=
      ⟨front.length - 1, by have := List.length_pos_iff.mpr later; omega⟩
    have here := tape?_append labels
    have own : Over false { s with labels := tape } { s with labels := tape } := rfl
    have operand := first.reads own tail fuel ends (by rw [List.length_append]; omega)
    have less : 16 * tail.length + 6 ≤ fuel := by omega
    have next := ih others (by simp) less
    rw [List.length_append, List.length_singleton] at next
    rw [index] at here next
    intro pos
    rw [List.length_cons, index, readTapes_next here,
      List.singleton_append, bind_ok (expect_cons (by decide) pos (text e ++ tail))]
    refine operand.bind (fun v value => next.bind fun vs tail => Reads.pure ?_) (pos + 1)
    rw [← index]
    exact normalizeTapes_cons labels (value rfl) (index ▸ tail)

theorem length_normalizeTapes {i : Nat} {vs : List (Exp K)}
    (normal : s.normalizeTapes i es = .ok vs) : vs.length = es.length := by
  induction es generalizing i vs with
  | nil =>
    rw [normalizeTapes] at normal
    cases normal
    rfl
  | cons e es ih =>
    rw [normalizeTapes] at normal
    obtain ⟨_, _, normal⟩ := Result.bind_eq_ok.mp normal
    obtain ⟨_, _, normal⟩ := Result.bind_eq_ok.mp normal
    obtain ⟨_, tail, normal⟩ := Result.bind_eq_ok.mp normal
    cases normal
    rw [List.length_cons, List.length_cons, ih tail]

theorem tuple_eq (labels : s.labels = .tuple tapes) {vs : List (Exp K)}
    (enough : vs.length = tapes.length) : s.tuple vs = .ok (s.joinTapes vs) := by
  have all : s.labels.tapes? = some tapes := by
    rw [labels]
    rfl
  have allowed : s.requireTapes K vs.length = .ok () := by
    unfold requireTapes
    rw [all]
    exact if_pos enough
  unfold ExpressionSet.tuple
  rw [allowed]
  rfl

/-- The expressions of all tapes. -/
theorem Reading.tupled (labels : s.labels = .tuple (tape :: back)) (several : back ≠ [])
    (operands : List.Forall₂
      (fun tape e => Reading { s with labels := tape } e .conjunction (text e)) (tape :: back)
        (e :: es)) :
    Reading s (.tuple (e :: es)) .tuple (text e ++ (es.map text).flatMap (['|'] ++ ·)) where
  opens := by
    obtain ⟨first, _⟩ := List.forall₂_cons.mp operands
    exact first.opens.append _
  plain tight := absurd tight (Exp.not_rightStrength_le (by decide))
  reads {fails r} setting := by
    intro rest fuel follows enough
    obtain ⟨first, others⟩ := List.forall₂_cons.mp operands
    obtain ⟨fuel, rfl⟩ : ∃ n, fuel = n + 2 := ⟨fuel - 2, by omega⟩
    have bar : ∃ more, (es.map text).flatMap (['|'] ++ ·) ++ rest = '|' :: more := by
      cases others with
      | nil => exact absurd rfl several
      | cons => exact ⟨_, rfl⟩
    have filled := first.opens.length_pos
    rw [List.append_assoc] at enough ⊢
    cases fails with
    | true =>
      obtain ⟨more, same⟩ := bar
      rw [same] at enough ⊢
      have single : r.labels.tapes? = none := setting
      have closes := follows_cons (show Closes .conjunction '|' from .inl rfl) more
      rw [readTuple, single]
      have other : Over true r { s with labels := tape } := setting
      exact (first.reads other _ _ closes (by omega)).at_bar
    | false =>
      have same : r = s := setting
      subst same
      have start : r.labels = .tuple ([] ++ tape :: back) := labels
      have next : r.labels = .tuple ([tape] ++ back) := labels
      have own : Over false { r with labels := tape } { r with labels := tape } := rfl
      have ends : Follows .conjunction ((es.map text).flatMap (['|'] ++ ·) ++ rest) := by
        obtain ⟨more, same⟩ := bar
        rw [same]
        exact follows_cons (show Closes .conjunction '|' from .inl rfl) more
      have read : Reads false false (readTapes (fuel + 1) r 0 (tape :: back).length)
          (text e ++ ((es.map text).flatMap (['|'] ++ ·) ++ rest)) rest
          fun vs => r.normalizeTapes 0 (e :: es) = .ok vs := by
        rw [List.length_cons, readTapes_first (tape?_append start)]
        apply (first.reads own _ _ ends (by omega)).bind
        intro v head
        rw [List.length_append] at enough
        have later := reads_readTapes next (by simp) others follows
          (show 16 * ((es.map text).flatMap (['|'] ++ ·) ++ rest).length + 6 ≤ fuel by omega)
        apply later.bind
        intro vs tail
        exact Reads.pure (normalizeTapes_cons start (head rfl) tail)
      intro pos
      obtain ⟨vs, stop, done, normal⟩ := read.value pos
      have long : vs.length = (tape :: back).length := by
        rw [length_normalizeTapes normal, operands.length_eq]
      have tuple := tuple_eq labels long
      have all : r.labels.tapes? = some (tape :: back) := by
        rw [labels]
        rfl
      have done : (do lift (r.tuple (← readTapes (fuel + 1) r 0 (tape :: back).length)) :
          Reader (Exp K)) ⟨pos, text e ++ ((es.map text).flatMap (['|'] ++ ·) ++ rest)⟩ =
            .ok (r.joinTapes vs) ⟨stop, rest⟩ := by
        rw [bind_ok done, tuple]
        rfl
      rw [readTuple, all]
      dsimp only
      rw [done]
      apply Ends.ok
      intro _
      rw [normalize, normal]
      exact tuple

/-! ### Labels of several tapes -/

theorem containsEach_iff {labels : List Label} : LabelSet.containsEach tapes labels = true ↔
    List.Forall₂ (fun tape l => tape.contains l = true) tapes labels := by
  induction tapes generalizing labels with
  | nil => cases labels <;> simp [LabelSet.containsEach]
  | cons tape tapes ih => cases labels <;> simp [LabelSet.containsEach, ih]

/-- A label of one tape is the empty word or a letter. -/
theorem label_cases {l : Label} (single : tape.Single) (member : tape.contains l = true) :
    l = .one ∨ ∃ c, l = .letter c := by
  cases tape with
  | letters | nullable =>
    cases l with
    | one => exact .inl rfl
    | letter c => exact .inr ⟨c, rfl⟩
    | _ => cases member
  | words | tuple => exact single.elim

theorem normalizeTapes_atoms {labels : List Label} (set : s.labels = .tuple (front ++ back))
    (members : List.Forall₂ (fun tape l => tape.contains l = true) back labels) :
    s.normalizeTapes front.length (labels.map Exp.atom : List (Exp K)) =
      .ok (labels.map s.atom) := by
  induction members generalizing front with
  | nil => rw [List.map_nil, normalizeTapes, List.map_nil]
  | @cons tape l back labels _ _ ih =>
    have others : s.labels = .tuple ((front ++ [tape]) ++ back) := by
      rw [set, List.append_assoc]
      rfl
    have tail := ih others
    rw [List.length_append, List.length_singleton] at tail
    rw [List.map_cons, List.map_cons]
    apply normalizeTapes_cons set _ tail
    rw [normalize]
    rfl

/-- The labels of the tapes make one label again. -/
theorem normalize_atoms {labels : List Label} (set : s.labels = .tuple tapes)
    (single : ∀ tape ∈ tapes, tape.Single)
    (members : List.Forall₂ (fun tape l => tape.contains l = true) tapes labels) :
    s.normalize (.tuple (labels.map Exp.atom) : Exp K) = s.normalize (.atom (.tuple labels)) := by
  have each : (labels.map (s.atom : Label → Exp K)).mapM labelOf? = some labels := by
    clear set
    induction members with
    | nil => rfl
    | @cons tape l tapes labels member _ ih =>
      obtain ⟨first, others⟩ := List.forall_mem_cons.mp single
      have label : labelOf? (s.atom l : Exp K) = some l := by
        rcases label_cases first member with rfl | ⟨c, rfl⟩ <;> rfl
      rw [List.map_cons, List.mapM_cons, label, ih others]
      rfl
  have contained : s.labels.contains (.tuple labels) = true := by
    rw [set, LabelSet.contains, containsEach_iff]
    exact members
  have long : (labels.map (s.atom : Label → Exp K)).length = tapes.length := by
    rw [List.length_map, members.length_eq]
  have start : s.labels = .tuple ([] ++ tapes) := set
  have normal : s.normalizeTapes 0 (labels.map Exp.atom : List (Exp K)) =
      .ok (labels.map s.atom) := normalizeTapes_atoms start members
  rw [normalize, normalize, normal]
  change s.tuple (labels.map s.atom) = _
  rw [tuple_eq set long]
  unfold joinTapes
  rw [each]
  dsimp only
  rw [contained, if_pos rfl]
  by_cases one : (Label.tuple labels).isOne = true
  · rw [if_pos one, atom, if_pos one]
  · rw [if_neg one]

end WeightedAutomata.ExpressionSet
