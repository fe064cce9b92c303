import WeightedAutomata.Proofs.Automaton.Rewiring
import WeightedAutomata.Proofs.Series.Star

/-! Pieces of standard automata: states that an automaton gains give to words what a part of an
expression does, whatever other pieces it holds. -/

set_option linter.unusedSectionVars false

namespace WeightedAutomata

open scoped Weights

variable {K : Type} [Weights K] [Weights.Lawful K]

namespace Label

variable {c : Char} {f g : WordSeries K}

theorem pass_letter_one : (letter c).pass (1 : WordSeries K) = WordSeries.ofWord [c] := by
  refine WordSeries.ext_shift (pass_letter_nil.trans (WordSeries.ofWord_cons_nil c []).symm) ?_
  intro d
  rw [WordSeries.shift_ofWord]
  funext u
  rw [WordSeries.shift_apply, pass_letter_cons]
  by_cases same : c = d
  · rw [if_pos same, if_pos same.symm, WordSeries.ofWord_nil]
  · rw [if_neg same, if_neg (Ne.symm same), WordSeries.zero_apply]

theorem pass_letter_mul : (letter c).pass (f * g) = (letter c).pass f * g := by
  funext u
  cases u with
  | nil => rw [WordSeries.mul_nil, pass_letter_nil, pass_letter_nil, zero_mul]
  | cons d u =>
    have shifted : WordSeries.shift d ((letter c).pass f) = if c = d then f else 0 := by
      funext v
      rw [WordSeries.shift_apply, pass_letter_cons]
      split <;> rfl
    rw [WordSeries.mul_cons, pass_letter_nil, zero_mul, zero_add, shifted, pass_letter_cons]
    split
    · rfl
    · rw [zero_mul, WordSeries.zero_apply]

end Label

namespace Piece

open Automaton

variable {a b c d : Automaton K} {p q : Piece} {f g h : WordSeries K} {m n count : Nat}
variable {s e : State} {entries : List State} {U V W : State → WordSeries K} {l : Label}

/-- What a transition gives to words, if its target gives `V`. -/
def passing (V : State → WordSeries K) (l : Label) (y : State) : WordSeries K := l.pass (V y)

/-- Whether a transition does not enter `entries` and, if it leaves a state numbered from `least`
on, stays among such states and reads one letter unless it is final. -/
def Leads (least : State) (entries : List State) (x : State) (l : Label) (y : State) : Prop :=
  y ∉ entries ∧ (least ≤ x → (y = State.post ∨ least ≤ y) ∧ (l = .special ∨ ∃ c, l = .letter c))

theorem Leads.of_le {least x x' y : State} (leads : Leads least entries x l y)
    (above : least ≤ x) : Leads least entries x' l y :=
  ⟨leads.1, fun _ => leads.2 above⟩

/-- Whether `b` has what `a` has, and new states that give `V` to words. -/
structure Grows (a b : Automaton K) (entries : List State) (V : State → WordSeries K) : Prop where
  steady : b.Steady
  labels : b.labels = a.labels
  nextState : a.nextState ≤ b.nextState
  live {s : State} : s < a.nextState → b.hasState s = a.hasState s
  row {s : State} : s < a.nextState → ∀ g : Label → State → WordSeries K, b.row s g = a.row s g
  entered {s : State} : s ∈ entries → a.nextState ≤ s ∧ b.hasState s = true
  leads : b.All fun tr => Leads a.nextState entries tr.source tr.label tr.target
  post : V State.post = 1
  series {s : State} : a.nextState ≤ s → b.hasState s = true → b.row s (passing V) = V s

theorem inner_of_live (steady : a.Steady) (above : a.nextState ≤ s)
    (live : b.hasState s = true) : b.Inner s :=
  ⟨live, inner_of_le steady above⟩

theorem isFinal_congr (left : a.Steady) (right : b.Steady)
    (same : b.row s (stops (K := K)) = a.row s stops) : b.isFinal s = a.isFinal s := by
  rw [Bool.eq_iff_iff, left.isFinal_iff_row, right.isFinal_iff_row, same]

theorem hasState_of_isFinal (steady : a.Steady) (final : a.isFinal s = true) :
    a.hasState s = true := by
  by_contra dead
  refine steady.isFinal_iff_row.mp final (row_of_dead steady.wellFormed ?_)
  exact Bool.not_eq_true _ ▸ dead

namespace Grows

/-- Transitions that go on read a letter. -/
theorem letter {t : Nat} {tr : Transition K} (grows : Grows a b entries V) (steady : a.Steady)
    (present : b.transition? t = some tr) (above : a.nextState ≤ tr.source)
    (inside : tr.target ≠ State.post) : ∃ c, tr.label = .letter c := by
  refine ((grows.leads present).2 above).2.resolve_left fun special => ?_
  have first := ((grows.steady.wellFormed.special present).mp special).resolve_right inside
  exact (isSentinel_eq_false.mp (inner_of_le steady above)).1 first

/-- Sums where nothing that may be there counts are zero. -/
theorem row_eq_zero (grows : Grows a b entries V) {g : Label → State → WordSeries K}
    (zero : ∀ l y, Leads a.nextState entries s l y → g l y = 0) : b.row s g = 0 := by
  refine Automaton.row_eq_zero fun {t tr} present here => zero _ _ ?_
  subst here
  exact grows.leads present

/-- Values at entries, and at states that are not there, do not matter to other states. -/
theorem row_passing (grows : Grows a b entries V) (post : W State.post = 1)
    (same : ∀ y, a.nextState ≤ y → b.hasState y = true → y ∉ entries → W y = V y)
    (above : a.nextState ≤ s) : b.row s (passing W) = b.row s (passing V) := by
  refine row_congr fun {t tr} present here => ?_
  obtain ⟨inside, after⟩ := grows.leads present
  unfold passing
  rcases (after (here ▸ above)).1 with last | beyond
  · rw [last, post, grows.post]
  · rw [same _ beyond (grows.steady.wellFormed.hasState_at present .target) inside]

/-- If the states after this one give `V` times `h`, and so do final transitions, it gives that. -/
theorem row_redirect (grows : Grows a b entries V) (steady : a.Steady) (above : a.nextState ≤ s)
    (live : b.hasState s = true)
    (scaled : ∀ {t : Nat} {tr : Transition K}, b.transition? t = some tr → tr.source = s →
      tr.target ≠ State.post → W tr.target = V tr.target * h) :
    b.row s (redirect h (passing W)) = V s * h := by
  rw [← grows.series above live, row_mul_right]
  refine row_congr fun {t tr} present here => ?_
  by_cases last : tr.target = State.post
  · have special : tr.label = .special :=
      (grows.steady.wellFormed.special present).mpr (.inr last)
    rw [last, redirect_post, special, passing, grows.post, Label.pass_special, one_mul]
  · obtain ⟨c, letter⟩ := grows.letter steady present (here ▸ above) last
    rw [redirect_of_ne last, letter, passing, passing, scaled present here last,
      Label.pass_letter_mul]

/-- Without final transitions among those of a state, it does not matter where they go on. -/
theorem row_redirect_of_not_final (grows : Grows a b entries V) (ends : b.isFinal s = false)
    (g : Label → State → WordSeries K) : b.row s (redirect h g) = b.row s g := by
  refine row_congr fun {t tr} present here => redirect_of_ne (fun last => ?_) _ _ _
  have weight := weightBetween_of_present present
  have special : tr.label = .special :=
    (grows.steady.wellFormed.special present).mpr (.inr last)
  rw [here, special, last] at weight
  have final := grows.steady.isFinal_iff.mpr (weight.trans_ne (grows.steady.nonzero present))
  rw [ends] at final
  cases final

/-! ### Changes -/

/-- A change of transitions that leaves those of `a` as they are. -/
theorem rewire {F : State → (Label → State → WordSeries K) → WordSeries K}
    (grows : Grows a b entries V) (rewires : Rewires b c F)
    (below : ∀ s < a.nextState, ∀ g : Label → State → WordSeries K, c.row s g = b.row s g)
    (leads : ∀ s, a.nextState ≤ s → ∀ g : Label → State → WordSeries K,
      (∀ l y, Leads a.nextState entries s l y → g l y = 0) → c.row s g = 0)
    (post : W State.post = 1)
    (series : ∀ s, a.nextState ≤ s → b.hasState s = true → c.row s (passing W) = W s) :
    Grows a c entries W where
  steady := rewires.steady
  labels := rewires.labels.trans grows.labels
  nextState := grows.nextState.trans_eq rewires.nextState.symm
  live old := (rewires.live _).trans (grows.live old)
  row old g := (below _ old g).trans (grows.row old g)
  entered member := ⟨(grows.entered member).1, (rewires.live _).trans (grows.entered member).2⟩
  leads := rewires.steady.all_of_row fun x g zero => by
    by_cases old : x < a.nextState
    · rw [below x old]
      exact grows.row_eq_zero zero
    · exact leads x (Nat.le_of_not_lt old) g zero
  post := post
  series above live := series _ above ((rewires.live _).symm.trans live)

theorem weaken {others : List State} (grows : Grows a b entries V) (sub : others ⊆ entries) :
    Grows a b others V :=
  { grows with
    entered := fun member => grows.entered (sub member)
    leads := fun _ _ present =>
      ⟨fun member => (grows.leads present).1 (sub member), (grows.leads present).2⟩ }

theorem row_deleteState (grows : Grows a b (e :: entries) V) (steady : a.Steady) (s : State)
    (g : Label → State → WordSeries K) :
    (b.deleteState e).row s g = if s = e then 0 else b.row s g := by
  have inner := inner_of_le steady (grows.entered List.mem_cons_self).1
  refine (total_deleteState grows.steady.wellFormed inner).trans ?_
  split
  · rename_i here
    refine total_eq_zero fun {t tr} _ => ?_
    by_cases same : tr.source = s
    · rw [if_pos (.inl (same.trans here))]
    · rw [if_neg same, ite_self]
  · rename_i other
    refine total_congr fun {t tr} present => ?_
    by_cases same : tr.source = s
    · have outside : tr.target ≠ e :=
        fun enters => (grows.leads present).1 (enters.symm ▸ List.mem_cons_self)
      rw [if_neg (not_or.mpr ⟨same ▸ other, outside⟩)]
    · rw [if_neg same, ite_self]

/-- A state that no transition enters can be taken away. -/
theorem deleteState (grows : Grows a b (e :: entries) V) (steady : a.Steady)
    (new : e ∉ entries) : Grows a (b.deleteState e) entries V := by
  have above := (grows.entered List.mem_cons_self).1
  have inner := inner_of_le steady above
  have row := grows.row_deleteState steady
  have made := grows.steady.deleteState e
  refine {
    steady := made
    labels := (labels_deleteState e).trans grows.labels
    nextState := grows.nextState.trans_eq (nextState_deleteState b e).symm
    live := fun {s} old => ?_
    row := fun {s} old g => ?_
    entered := fun {s} member => ?_
    leads := made.all_of_row fun x g zero => ?_
    post := grows.post
    series := fun {s} beyond stays => ?_ }
  · rw [hasState_deleteState inner, decide_eq_false (Nat.ne_of_lt (Nat.lt_of_lt_of_le old above))]
    exact grows.live old
  · rw [row, if_neg (Nat.ne_of_lt (Nat.lt_of_lt_of_le old above)), grows.row old]
  · obtain ⟨beyond, there⟩ := grows.entered (List.mem_cons_of_mem e member)
    have other : s ≠ e := ne_of_mem_of_not_mem member new
    refine ⟨beyond, ?_⟩
    rw [hasState_deleteState inner, decide_eq_false other, there]
    rfl
  · rw [row]
    split
    · rfl
    · refine grows.row_eq_zero fun l y leads => zero l y ⟨fun member => ?_, leads.2⟩
      exact leads.1 (List.mem_cons_of_mem e member)
  · rw [hasState_deleteState inner, Bool.and_eq_true, Bool.not_eq_true',
      decide_eq_false_iff_not] at stays
    rw [row, if_neg stays.1, grows.series beyond stays.2]

/-- New states beside new states. -/
theorem trans {others : List State} (first : Grows a b entries V) (second : Grows b c others W)
    (steady : a.Steady) :
    Grows a c (others ++ entries) fun s => if s < b.nextState then V s else W s := by
  let U : State → WordSeries K := fun s => if s < b.nextState then V s else W s
  have post : U State.post = 1 :=
    (if_pos (post_lt_nextState first.steady)).trans first.post
  have old {t : Nat} {tr : Transition K} (present : b.transition? t = some tr) :
      tr.target < b.nextState := lt_nextState (first.steady.wellFormed.hasState_at present .target)
  refine {
    steady := second.steady
    labels := second.labels.trans first.labels
    nextState := first.nextState.trans second.nextState
    live := fun {s} older => (second.live (older.trans_le first.nextState)).trans (first.live older)
    row := fun {s} older g =>
      (second.row (older.trans_le first.nextState) g).trans (first.row older g)
    entered := fun {s} member => ?_
    leads := second.steady.all_of_row fun x g zero => ?_
    post := post
    series := fun {s} above live => ?_ }
  · rcases List.mem_append.mp member with other | entry
    · obtain ⟨above, live⟩ := second.entered other
      exact ⟨first.nextState.trans above, live⟩
    · obtain ⟨above, live⟩ := first.entered entry
      exact ⟨above, (second.live (lt_nextState live)).trans live⟩
  · by_cases older : x < b.nextState
    · rw [second.row older]
      refine Automaton.row_eq_zero fun {t tr} present here => zero _ _ ?_
      obtain ⟨outside, after⟩ := first.leads present
      refine ⟨fun member => ?_, here ▸ after⟩
      rcases List.mem_append.mp member with other | entry
      · exact Nat.not_lt_of_le (second.entered other).1 (old present)
      · exact outside entry
    · refine second.row_eq_zero fun l y leads => zero l y ?_
      obtain ⟨outside, after⟩ := leads
      obtain ⟨stays, letter⟩ := after (Nat.le_of_not_lt older)
      refine ⟨fun member => ?_, fun _ => ⟨stays.imp_right first.nextState.trans, letter⟩⟩
      rcases List.mem_append.mp member with other | entry
      · exact outside other
      · obtain ⟨above, live⟩ := first.entered entry
        rcases stays with rfl | beyond
        · exact Nat.not_lt_of_le above (post_lt_nextState steady)
        · exact Nat.not_lt_of_le beyond (lt_nextState live)
  · by_cases older : s < b.nextState
    · rw [second.row older, if_pos older, ← first.series above ((second.live older).symm.trans live)]
      refine row_congr fun {t tr} present here => ?_
      rw [passing, if_pos (old present)]
      rfl
    · have beyond := Nat.le_of_not_lt older
      rw [if_neg older, ← second.series beyond live]
      exact second.row_passing post (fun y above _ _ => if_neg (Nat.not_lt_of_le above)) beyond

end Grows

end Piece

end WeightedAutomata
