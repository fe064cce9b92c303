import Mathlib.Data.List.InsertIdx
import WeightedAutomata.Proofs.Expression.Products
import WeightedAutomata.Proofs.Label.Letters

/-!
The expressions that a set builds from its labels and from weights of one kind are over these labels
and weights.
-/

namespace WeightedAutomata

variable {K : Type} [Weights K]

mutual

/-- Whether the labels of the expression are in the set and its weights satisfy `P`. Only Boolean
weights have complements, and a tuple has an expression over each tape. -/
def Exp.Over (P : K → Prop) : Exp K → LabelSet → Prop
  | .zero, _ | .one, _ => True
  | .atom l, ls => ls.contains l = true
  | .sum es, ls | .prod es, ls | .conjunction es, ls | .shuffle es, ls => Exp.EachOver P es ls
  | .star e, ls | .transposition e, ls => e.Over P ls
  | .lweight w e, ls | .rweight e w, ls => P w ∧ e.Over P ls
  | .complement e, ls => Weights.isBoolean K = true ∧ e.Over P ls
  | .tuple es, ls => ∃ tapes, ls = .tuple tapes ∧ Exp.TapesOver P es tapes

def Exp.EachOver (P : K → Prop) : List (Exp K) → LabelSet → Prop
  | [], _ => True
  | e :: es, ls => e.Over P ls ∧ Exp.EachOver P es ls

def Exp.TapesOver (P : K → Prop) : List (Exp K) → List LabelSet → Prop
  | [], [] => True
  | e :: es, ls :: tapes => e.Over P ls ∧ Exp.TapesOver P es tapes
  | _, _ => False

end

/-- Whether sums and products of weights that satisfy `P` satisfy it, and so do zero and one. -/
structure Weights.Stable (P : K → Prop) : Prop where
  zero : P Weights.zero
  one : P Weights.one
  add {v w : K} : P v → P w → P (Weights.add v w)
  mul {v w : K} : P v → P w → P (Weights.mul v w)

/-- The expressions that the operations of a set build from its labels and from weights that
satisfy `P`. -/
inductive ExpressionSet.Makes (P : K → Prop) : ExpressionSet → Exp K → Prop
  | zero {s : ExpressionSet} : Makes P s .zero
  | one {s : ExpressionSet} : Makes P s .one
  | atom {s : ExpressionSet} {l : Label} : s.labels.contains l = true → Makes P s (s.atom l)
  | add {s : ExpressionSet} {l r : Exp K} : Makes P s l → Makes P s r → Makes P s (s.add l r)
  | mul {s : ExpressionSet} {l r : Exp K} : Makes P s l → Makes P s r → Makes P s (s.mul l r)
  | conjunction {s : ExpressionSet} {l r : Exp K} : Makes P s l → Makes P s r →
    Makes P s (s.conjunction l r)
  | shuffle {s : ExpressionSet} {l r : Exp K} : Makes P s l → Makes P s r →
    Makes P s (s.shuffle l r)
  | star {s : ExpressionSet} {e : Exp K} : Makes P s e → Makes P s (s.star e)
  | complement {s : ExpressionSet} {e r : Exp K} : Makes P s e → s.complement e = .ok r →
    Makes P s r
  | transposition {s : ExpressionSet} {e : Exp K} : Makes P s e → Makes P s (s.transposition e)
  | lweight {s : ExpressionSet} {w : K} {e : Exp K} : P w → Makes P s e → Makes P s (s.lweight w e)
  | rweight {s : ExpressionSet} {w : K} {e : Exp K} : P w → Makes P s e → Makes P s (s.rweight e w)
  | tuple {s : ExpressionSet} {tapes : List LabelSet} {es : List (Exp K)} {r : Exp K} :
    s.labels = .tuple tapes → (∀ p ∈ es.zip tapes, Makes P { s with labels := p.2 } p.1) →
    s.tuple es = .ok r → Makes P s r

namespace LabelSet

mutual

theorem contains_mirror_tapes (ls : LabelSet) (l : Label) (member : ls.contains l = true) :
    ls.contains l.mirror = true := by
  cases ls with
  | tuple tapes =>
    cases l with
    | tuple labels => exact containsEach_mirror tapes labels member
    | _ => cases member
  | _ => exact contains_mirror rfl member

theorem containsEach_mirror (tapes : List LabelSet) (labels : List Label)
    (members : containsEach tapes labels = true) :
    containsEach tapes (Label.mirrorList labels) = true := by
  match tapes, labels with
  | [], [] => rfl
  | [], _ :: _ => cases members
  | _ :: _, [] => cases members
  | ls :: tapes, l :: labels =>
    obtain ⟨first, rest⟩ := containsEach_cons.mp members
    exact containsEach_cons.mpr
      ⟨contains_mirror_tapes ls l first, containsEach_mirror tapes labels rest⟩

end

end LabelSet

variable {P : K → Prop} {s : ExpressionSet} {ls : LabelSet} {e f l r t : Exp K}
variable {es fs : List (Exp K)} {w : K}

namespace Exp

theorem eachOver_iff : EachOver P es ls ↔ ∀ e ∈ es, e.Over P ls := by
  induction es with
  | nil => exact iff_of_true trivial (List.forall_mem_nil _)
  | cons e es ih => rw [EachOver, ih, List.forall_mem_cons]

theorem tapesOver_iff {tapes : List LabelSet} : TapesOver P es tapes ↔
    es.length = tapes.length ∧ ∀ p ∈ es.zip tapes, p.1.Over P p.2 := by
  induction es generalizing tapes with
  | nil =>
    cases tapes with
    | nil => exact iff_of_true trivial ⟨rfl, nofun⟩
    | cons => exact iff_of_false id nofun
  | cons e es ih =>
    cases tapes with
    | nil => exact iff_of_false id nofun
    | cons ls tapes =>
      rw [TapesOver, ih, List.zip_cons_cons, List.forall_mem_cons, List.length_cons,
        List.length_cons, Nat.succ_inj]
      exact and_left_comm

/-- The parts of an expression on one and the same tapes. -/
theorem Over.child (lies : e.Over P ls) (joint : e.kind ≠ .tuple) (child : f ∈ e.children) :
    f.Over P ls := by
  cases e with
  | zero | one | atom => cases child
  | sum | prod | conjunction | shuffle => exact eachOver_iff.mp lies f child
  | star | transposition => exact List.mem_singleton.mp child ▸ lies
  | lweight | rweight | complement => exact List.mem_singleton.mp child ▸ lies.2
  | tuple => exact absurd rfl joint

theorem Over.terms (lies : e.Over P ls) : ∀ t ∈ e.terms, t.Over P ls := by
  cases e with
  | sum => exact eachOver_iff.mp lies
  | _ => exact fun t member => List.mem_singleton.mp member ▸ lies

theorem Over.bare (lies : e.Over P ls) : e.bare.Over P ls := by
  cases e with
  | lweight => exact lies.2
  | _ => exact lies

theorem Over.leftWeight (stable : Weights.Stable P) (lies : e.Over P ls) : P e.leftWeight := by
  cases e with
  | lweight => exact lies.1
  | _ => exact stable.one

end Exp

namespace ExpressionSet

open Exp (Over eachOver_iff tapesOver_iff)

theorem over_spread {kind : Exp.Kind} (joint : kind ≠ .tuple) (lies : e.Over P ls) :
    ∀ c ∈ s.spread kind e, c.Over P ls := by
  unfold spread
  split
  · rename_i flattened
    have same : e.kind = kind := of_decide_eq_true (Bool.and_eq_true_iff.mp flattened).2
    exact fun c child => lies.child (same ▸ joint) child
  · exact fun c member => List.mem_singleton.mp member ▸ lies

theorem over_spread_append {kind : Exp.Kind} (joint : kind ≠ .tuple) (left : l.Over P ls)
    (right : r.Over P ls) : ∀ c ∈ s.spread kind l ++ s.spread kind r, c.Over P ls :=
  List.forall_mem_append.mpr ⟨over_spread joint left, over_spread joint right⟩

theorem over_ofTerms (each : ∀ e ∈ es, e.Over P ls) : (ofTerms es).Over P ls := by
  match es with
  | [] => trivial
  | [e] => exact each e (List.mem_singleton.mpr rfl)
  | e :: f :: es => exact eachOver_iff.mpr each

/-! ### Sums and weights -/

variable (stable : Weights.Stable P)
include stable

theorem over_insertTerm {scale : K → Exp K → Exp K}
    (scales : ∀ {w : K} {e : Exp K}, P w → e.Over P ls → (scale w e).Over P ls)
    (each : ∀ e ∈ es, e.Over P ls) (term : t.Over P ls) :
    ∀ e ∈ insertTerm scale es t, e.Over P ls := by
  unfold insertTerm
  split
  · intro e member
    rcases List.eq_or_mem_of_mem_insertIdx member with same | member
    · exact same ▸ term
    · exact each e member
  · rename_i i found
    have weight : P ((es[i]?.map Exp.leftWeight).getD Weights.zero) := by
      cases present : es[i]? with
      | none => exact stable.zero
      | some x => exact (each x (List.mem_of_getElem? present)).leftWeight stable
    dsimp only
    split
    · exact fun e member => each e (List.mem_of_mem_eraseIdx member)
    · intro e member
      rcases List.mem_or_eq_of_mem_set member with member | same
      · exact each e member
      · exact same ▸ scales (stable.add weight (term.leftWeight stable)) term.bare

theorem over_addWith {scale : K → Exp K → Exp K}
    (scales : ∀ {w : K} {e : Exp K}, P w → e.Over P ls → (scale w e).Over P ls)
    (left : l.Over P ls) (right : r.Over P ls) : (s.addWith scale l r).Over P ls := by
  unfold addWith
  split
  · exact ⟨left, right, trivial⟩
  split
  · exact right
  split
  · exact left
  split
  · refine over_ofTerms ?_
    have front := left.terms
    have back := right.terms
    generalize l.terms = ls' at front
    generalize r.terms = rs at back
    clear left right
    induction rs generalizing ls' with
    | nil => exact front
    | cons t rs ih =>
      obtain ⟨term, rest⟩ := List.forall_mem_cons.mp back
      exact ih _ (over_insertTerm stable scales front term) rest
  · exact eachOver_iff.mpr (over_spread_append nofun left right)

mutual

theorem over_scaleWith {merge : K → Exp K → Exp K}
    (merges : ∀ {w : K} {e : Exp K}, P w → e.Over P ls → (merge w e).Over P ls) {e : Exp K} {w : K}
    (weight : P w) (lies : e.Over P ls) : (s.scaleWith merge e w).Over P ls := by
  have node : (Exp.lweight w e).Over P ls := ⟨weight, lies⟩
  unfold scaleWith
  split
  · exact node
  split
  · exact lies
  split
  · trivial
  split
  · exact over_scaleWith merges (stable.mul weight lies.1) lies.2
  · split
    · exact over_scaleTerms merges weight (eachOver_iff.mp lies) trivial
    · exact node
  · exact node

theorem over_scaleTerms {merge : K → Exp K → Exp K}
    (merges : ∀ {w : K} {e : Exp K}, P w → e.Over P ls → (merge w e).Over P ls)
    {es : List (Exp K)} {w : K} {acc : Exp K} (weight : P w) (each : ∀ e ∈ es, e.Over P ls)
    (lies : acc.Over P ls) : (s.scaleTerms merge es w acc).Over P ls := by
  match es with
  | [] => exact lies
  | t :: ts =>
    obtain ⟨term, rest⟩ := List.forall_mem_cons.mp each
    rw [scaleTerms]
    exact over_scaleTerms merges weight rest
      (over_addWith stable merges lies (over_scaleWith merges weight term))

end

theorem over_scaleWithin (depth : Nat) {w : K} {e : Exp K} (weight : P w) (lies : e.Over P ls) :
    (s.scaleWithin depth w e).Over P ls := by
  induction depth generalizing w e with
  | zero => exact ⟨weight, lies⟩
  | succ depth ih => exact over_scaleWith stable ih weight lies

theorem over_lweight (weight : P w) (lies : e.Over P ls) : (s.lweight w e).Over P ls :=
  over_scaleWithin stable e.size weight lies

theorem over_add (left : l.Over P ls) (right : r.Over P ls) : (s.add l r).Over P ls :=
  over_addWith stable (over_scaleWithin stable r.size) left right

mutual

theorem over_rweight {e : Exp K} {w : K} (weight : P w) (lies : e.Over P ls) :
    (s.rweight e w).Over P ls := by
  have node : (Exp.rweight e w).Over P ls := ⟨weight, lies⟩
  unfold rweight
  split
  · exact node
  split
  · trivial
  split
  · exact lies
  split
  · exact over_lweight stable weight lies
  split
  · exact over_lweight stable lies.1 (over_rweight weight lies.2)
  · exact over_rweight (stable.mul lies.1 weight) lies.2
  · split
    · exact over_rweightTerms weight (eachOver_iff.mp lies) trivial
    · exact node
  · split
    · exact over_lweight stable weight lies
    · exact node

theorem over_rweightTerms {es : List (Exp K)} {w : K} {acc : Exp K} (weight : P w)
    (each : ∀ e ∈ es, e.Over P ls) (lies : acc.Over P ls) :
    (s.rweightTerms es w acc).Over P ls := by
  match es with
  | [] => exact lies
  | t :: ts =>
    obtain ⟨term, rest⟩ := List.forall_mem_cons.mp each
    rw [rweightTerms]
    exact over_rweightTerms weight rest (over_add stable lies (over_rweight weight term))

end

/-! ### Products -/

omit stable

theorem over_atom {label : Label} (member : ls.contains label = true) :
    (s.atom label : Exp K).Over P ls := by
  unfold atom
  split
  · trivial
  · exact member

theorem over_joinFactors (left : ∀ e ∈ es, e.Over P s.labels)
    (right : ∀ e ∈ fs, e.Over P s.labels) : ∀ e ∈ s.joinFactors es fs, e.Over P s.labels := by
  unfold joinFactors
  split
  · rename_i a b rest words last
    split
    · rename_i word joined
      obtain ⟨first, others⟩ := List.forall_mem_cons.mp right
      have final : s.labels.contains a = true := left _ (List.mem_of_getLast? last)
      have member := (LabelSet.concat_letters words final first joined).1
      refine List.forall_mem_append.mpr ⟨fun e front => ?_, List.forall_mem_cons.mpr ⟨?_, others⟩⟩
      · exact left e (List.dropLast_subset _ front)
      · exact over_atom member
    · exact List.forall_mem_append.mpr ⟨left, right⟩
  · exact List.forall_mem_append.mpr ⟨left, right⟩

theorem over_product (left : l.Over P s.labels) (right : r.Over P s.labels) :
    (s.product l r).Over P s.labels := by
  have factors : ∀ f ∈ s.joinFactors (s.spread .prod l) (s.spread .prod r), f.Over P s.labels :=
    over_joinFactors (over_spread nofun left) (over_spread nofun right)
  unfold product
  split
  · rename_i e single
    exact factors e (single ▸ List.mem_singleton.mpr rfl)
  · exact eachOver_iff.mpr factors

include stable

theorem over_weightedProduct (left : l.Over P s.labels) (right : r.Over P s.labels) :
    (s.weightedProduct l r).Over P s.labels := by
  unfold weightedProduct
  split
  · split
    · exact over_lweight stable (stable.mul (left.leftWeight stable) (right.leftWeight stable))
        (over_product left.bare right.bare)
    · exact over_lweight stable (left.leftWeight stable) (over_product left.bare right)
  · exact over_product left right

theorem over_mulWith {general : Unit → Exp K} (left : l.Over P s.labels)
    (right : r.Over P s.labels) (rest : (general ()).Over P s.labels) :
    (s.mulWith general l r).Over P s.labels := by
  unfold mulWith
  split
  · exact over_product left right
  split
  · exact left
  split
  · exact right
  split
  · exact over_rweight stable (right.leftWeight stable) left
  split
  · exact over_lweight stable (left.leftWeight stable) right
  · exact rest

mutual

theorem over_mulRight {l r : Exp K} (left : l.Over P s.labels) (right : r.Over P s.labels) :
    (s.mulRight l r).Over P s.labels := by
  unfold mulRight
  split
  · refine over_mulWith stable left right ?_
    split
    · exact over_mulRightTerms left (eachOver_iff.mp right) trivial
    · exact over_weightedProduct stable left right
  · exact over_mulWith stable left right (over_weightedProduct stable left right)

theorem over_mulRightTerms {l : Exp K} {es : List (Exp K)} {acc : Exp K} (left : l.Over P s.labels)
    (each : ∀ e ∈ es, e.Over P s.labels) (lies : acc.Over P s.labels) :
    (s.mulRightTerms l es acc).Over P s.labels := by
  match es with
  | [] => exact lies
  | t :: ts =>
    obtain ⟨term, rest⟩ := List.forall_mem_cons.mp each
    rw [mulRightTerms]
    exact over_mulRightTerms left rest (over_add stable lies (over_mulRight left term))

end

mutual

theorem over_mul {l r : Exp K} (left : l.Over P s.labels) (right : r.Over P s.labels) :
    (s.mul l r).Over P s.labels := by
  unfold mul
  split
  · split
    · exact over_mulWith stable left right (over_mulTerms (eachOver_iff.mp left) right trivial)
    · exact over_mulRight stable left right
  · exact over_mulRight stable left right

theorem over_mulTerms {es : List (Exp K)} {r acc : Exp K} (each : ∀ e ∈ es, e.Over P s.labels)
    (right : r.Over P s.labels) (lies : acc.Over P s.labels) :
    (s.mulTerms es r acc).Over P s.labels := by
  match es with
  | [] => exact lies
  | t :: ts =>
    obtain ⟨term, rest⟩ := List.forall_mem_cons.mp each
    rw [mulTerms]
    exact over_mulTerms rest right (over_add stable lies (over_mul term right))

end

/-! ### Other operations -/

theorem over_conjunction (left : l.Over P ls) (right : r.Over P ls) :
    (s.conjunction l r).Over P ls := by
  have node : (Exp.conjunction (s.spread .conjunction l ++ s.spread .conjunction r)).Over P ls :=
    eachOver_iff.mpr (over_spread_append nofun left right)
  unfold conjunction
  dsimp only
  split
  · exact node
  split
  · exact left
  split
  · exact right
  split
  · exact over_lweight stable (stable.mul (left.leftWeight stable) (right.leftWeight stable))
      trivial
  · split
    · exact over_rweight stable (right.leftWeight stable) left
    · trivial
  · trivial
  · trivial
  · exact node

omit stable

theorem over_shuffle (left : l.Over P ls) (right : r.Over P ls) : (s.shuffle l r).Over P ls := by
  unfold shuffle
  dsimp only
  split
  · exact eachOver_iff.mpr (over_spread_append nofun left right)
  split
  · exact left
  split
  · exact right
  split
  · exact right
  split
  · exact left
  · exact eachOver_iff.mpr (over_spread_append nofun left right)

theorem over_star (lies : e.Over P ls) : (s.star e).Over P ls := by
  unfold star
  split
  · trivial
  · exact lies

theorem over_complement (lies : e.Over P ls) (built : s.complement e = .ok r) : r.Over P ls := by
  unfold complement at built
  split at built
  · rename_i boolean
    cases built
    fun_induction complementNode s e with
    | case1 w e _ ih | case3 e w _ ih => exact ih lies.2
    | case2 | case4 | case5 => exact ⟨boolean, lies⟩
  · cases built

theorem over_transposition (lies : e.Over P ls) : (s.transposition e).Over P ls := by
  unfold transposition
  split
  · exact lies
  split
  · trivial
  · trivial
  · exact over_atom (LabelSet.contains_mirror_tapes ls _ lies)
  · exact lies

theorem requireTapes_eq_ok {tapes : List LabelSet} (labels : s.labels = .tuple tapes) {n : Nat} :
    s.requireTapes K n = .ok () ↔ n = tapes.length := by
  unfold requireTapes
  rw [labels]
  dsimp only [LabelSet.tapes?]
  split
  · rename_i same
    exact iff_of_true rfl same
  · rename_i other
    exact iff_of_false nofun other

theorem over_tuple {tapes : List LabelSet} (labels : s.labels = .tuple tapes)
    (each : ∀ p ∈ es.zip tapes, p.1.Over P p.2) (built : s.tuple es = .ok r) :
    r.Over P s.labels := by
  obtain ⟨_, required, built⟩ := Result.bind_eq_ok.mp built
  have long := (requireTapes_eq_ok labels).mp required
  have node : (Exp.tuple es).Over P s.labels := ⟨tapes, labels, tapesOver_iff.mpr ⟨long, each⟩⟩
  have absorbed : ∀ zero : Bool, (if zero then .zero else .tuple es : Exp K).Over P s.labels := by
    intro zero
    cases zero with
    | false => exact node
    | true => trivial
  cases built
  unfold joinTapes
  dsimp only
  split
  · exact absorbed _
  · split
    · trivial
    · split
      · exact over_atom (by assumption)
      · exact absorbed _

/-- What a set makes of its labels and of weights is over them. -/
theorem Makes.over (stable : Weights.Stable P) (made : s.Makes P e) : e.Over P s.labels := by
  induction made with
  | zero | one => trivial
  | atom member => exact over_atom member
  | add _ _ left right => exact over_add stable left right
  | mul _ _ left right => exact over_mul stable left right
  | conjunction _ _ left right => exact over_conjunction stable left right
  | shuffle _ _ left right => exact over_shuffle left right
  | star _ lies => exact over_star lies
  | complement _ built lies => exact over_complement lies built
  | transposition _ lies => exact over_transposition lies
  | lweight weight _ lies => exact over_lweight stable weight lies
  | rweight weight _ lies => exact over_rweight stable weight lies
  | tuple labels _ built each => exact over_tuple labels each built

end ExpressionSet

end WeightedAutomata
