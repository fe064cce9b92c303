import WeightedAutomata.Label.Basic
import WeightedAutomata.Proofs.Comparison

/-! The order of labels is a strict total order that agrees with equality. -/

namespace WeightedAutomata.Label

theorem compareLetters_eq_iff {u v : List Char} : compareLetters u v = .eq ↔ u = v := by
  induction u generalizing v with
  | nil => cases v <;> simp [compareLetters]
  | cons c u ih =>
    cases v with
    | nil => simp [compareLetters]
    | cons d v => simp [compareLetters, ih, ← Char.toNat_inj]

theorem compareLetters_swap (u v : List Char) :
    compareLetters v u = (compareLetters u v).swap := by
  induction u generalizing v with
  | nil => cases v <;> rfl
  | cons c u ih =>
    cases v with
    | nil => rfl
    | cons d v => rw [compareLetters, compareLetters, Ordering.swap_then, ih v, Nat.compare_swap]

theorem coherent_compareLetters (u v w : List Char) :
    Coherent (compareLetters u v) (compareLetters v w) (compareLetters u w) := by
  match u, v, w with
  | [], _, _ | _, [], _ | _, _, [] =>
    exact .of_nil rfl (fun _ _ => rfl) (fun _ _ => rfl) (by simp)
  | c :: u, d :: v, x :: w =>
    exact .then (.of_trans c.toNat d.toNat x.toNat) fun _ _ => coherent_compareLetters u v w

theorem order_of_rank_ne {a b : Label} (differ : a.rank ≠ b.rank) :
    order a b = compare a.rank b.rank := by
  cases a <;> cases b <;> first | rfl | exact absurd rfl differ

theorem rank_eq_of_order {a b : Label} (equal : order a b = .eq) : a.rank = b.rank := by
  by_contra differ
  rw [order_of_rank_ne differ] at equal
  exact differ (Nat.compare_eq_eq.mp equal)

mutual

theorem eq_of_order {a b : Label} (equal : order a b = .eq) : a = b := by
  have ranks := rank_eq_of_order equal
  cases a <;> cases b <;> first | rfl | (simp only [rank] at ranks; omega) | skip
  case letter.letter c d => exact congrArg letter (Char.toNat_inj.mp (Nat.compare_eq_eq.mp equal))
  case word.word u v =>
    rw [order, Ordering.then_eq_eq] at equal
    exact congrArg word (compareLetters_eq_iff.mp equal.2)
  case tuple.tuple as bs => exact congrArg tuple (eq_of_orderList equal)

theorem eq_of_orderList : {as bs : List Label} → orderList as bs = .eq → as = bs
  | [], [], _ => rfl
  | [], _ :: _, equal => nomatch equal
  | _ :: _, [], equal => nomatch equal
  | a :: as, b :: bs, equal => by
    rw [orderList, Ordering.then_eq_eq] at equal
    rw [eq_of_order equal.1, eq_of_orderList equal.2]

end

mutual

theorem order_self (a : Label) : order a a = .eq := by
  cases a with
  | letter c => exact Nat.compare_eq_eq.mpr rfl
  | word u => rw [order, Ordering.then_eq_eq, compareLetters_eq_iff, Nat.compare_eq_eq]; simp
  | tuple as => exact orderList_self as
  | _ => rfl

theorem orderList_self (as : List Label) : orderList as as = .eq := by
  cases as with
  | nil => rfl
  | cons a as => rw [orderList, order_self a, orderList_self as]; rfl

end

theorem order_eq_iff {a b : Label} : order a b = .eq ↔ a = b := by
  constructor
  · exact eq_of_order
  · rintro rfl
    exact order_self a

mutual

theorem order_swap (a b : Label) : order b a = (order a b).swap := by
  by_cases ranks : a.rank = b.rank
  · cases a <;> cases b <;> first | rfl | (simp only [rank] at ranks; omega) | skip
    case letter.letter c d => exact (Nat.compare_swap _ _).symm
    case word.word u v =>
      rw [order, order, Ordering.swap_then, compareLetters_swap, Nat.compare_swap]
    case tuple.tuple as bs => exact orderList_swap as bs
  · rw [order_of_rank_ne ranks, order_of_rank_ne (Ne.symm ranks), Nat.compare_swap]

theorem orderList_swap : (as bs : List Label) → orderList bs as = (orderList as bs).swap
  | [], [] | [], _ :: _ | _ :: _, [] => rfl
  | a :: as, b :: bs => by
    rw [orderList, orderList, Ordering.swap_then, order_swap a b, orderList_swap as bs]

end

mutual

theorem coherent_order (a b c : Label) : Coherent (order a b) (order b c) (order a c) := by
  refine .of_rank rank order_of_rank_ne fun ranks ranks' => ?_
  cases a <;> cases b <;> first | (cases ranks; done) | skip
  all_goals cases c <;> first | (cases ranks'; done) | skip
  case one.one.one | special.special.special => exact ⟨fun _ => rfl, fun _ => rfl, fun _ => rfl⟩
  case letter.letter.letter c d x =>
    change Coherent (compare c.toNat d.toNat) (compare d.toNat x.toNat) (compare c.toNat x.toNat)
    exact .of_trans c.toNat d.toNat x.toNat
  case word.word.word u v w =>
    exact .then (.of_trans u.length v.length w.length) fun _ _ => coherent_compareLetters u v w
  case tuple.tuple.tuple as bs cs => exact coherent_orderList as bs cs

theorem coherent_orderList (as bs cs : List Label) :
    Coherent (orderList as bs) (orderList bs cs) (orderList as cs) := by
  match as, bs, cs with
  | [], _, _ | _, [], _ | _, _, [] =>
    exact .of_nil rfl (fun _ _ => rfl) (fun _ _ => rfl) (by simp)
  | a :: as, b :: bs, c :: cs =>
    exact .then (coherent_order a b c) fun _ _ => coherent_orderList as bs cs

end

instance : Std.LawfulEqOrd Label where
  compare_self := order_self _
  eq_of_compare := eq_of_order

instance : Std.TransOrd Label := Coherent.transCmp (fun a b => order_swap b a) coherent_order

end WeightedAutomata.Label
