import WeightedAutomata.Proofs.Automaton.Joins

/-! What stars and weights make of the pieces of standard automata. -/

set_option linter.unusedSectionVars false

namespace WeightedAutomata.Piece

open Automaton
open scoped Weights

variable {K : Type} [Weights K] [Weights.Lawful K]
variable {a b c : Automaton K} {p : Piece} {f : WordSeries K} {count : Nat} {w k : K} {s : State}
variable {entries : List State} {V W : State → WordSeries K}

/-! ### The constant term -/

theorem Grows.row_split (grows : Grows a b entries V) (s : State) :
    b.row s (passing V) = b.row s (redirect 0 (passing V)) + b.finalWeight s • 1 := by
  rw [← Automaton.row_redirect grows.steady]
  refine row_congr fun {t tr} present here => ?_
  by_cases last : tr.target = State.post
  · have special := (grows.steady.wellFormed.special present).mpr (.inr last)
    rw [last, redirect_post, special, passing, grows.post, Label.pass_special]
  · rw [redirect_of_ne last]

theorem Grows.row_redirect_nil (grows : Grows a b entries V) (steady : a.Steady)
    (above : a.nextState ≤ s) : b.row s (redirect 0 (passing W)) [] = 0 := by
  unfold Automaton.row
  rw [total_apply]
  refine total_eq_zero fun {t tr} present => ?_
  split
  · rename_i here
    by_cases last : tr.target = State.post
    · rw [last, redirect_post, WordSeries.zero_apply]
    · obtain ⟨x, letter⟩ := grows.letter steady present (here ▸ above) last
      rw [redirect_of_ne last, letter, passing, Label.pass_letter_nil]
  · exact WordSeries.zero_apply _

/-- The final weight is the constant term, and the other transitions give the rest. -/
theorem Grows.constant (grows : Grows a b entries V) (steady : a.Steady)
    (above : a.nextState ≤ s) (live : b.hasState s = true) :
    V s [] = b.finalWeight s ∧ (V s).proper = b.row s (redirect 0 (passing V)) := by
  have split : V s = b.row s (redirect 0 (passing V)) + b.finalWeight s • 1 :=
    (grows.series above live).symm.trans (grows.row_split s)
  have nothing := grows.row_redirect_nil (W := V) steady above
  constructor
  · rw [split, WordSeries.add_apply, nothing, zero_add, WordSeries.smul_apply, WordSeries.one_nil,
      mul_one]
  · funext u
    cases u with
    | nil => rw [WordSeries.proper_nil, nothing]
    | cons x u =>
      have cons := congrFun split (x :: u)
      rw [WordSeries.add_apply, WordSeries.smul_apply, WordSeries.one_cons, mul_zero,
        add_zero] at cons
      exact cons

theorem Adds.of_rewires {F : State → (Label → State → WordSeries K) → WordSeries K}
    {candidates : List State} (adds : Adds a b p count f) (rewires : Rewires b c F)
    (grows : Grows a c [p.initial] W) (distinct : candidates.Nodup)
    (above : ∀ s ∈ candidates, a.nextState ≤ s)
    (found : ∀ s, a.nextState ≤ s → c.isFinal s = true → s ∈ candidates) :
    Adds a (prune c ⟨p.initial, candidates⟩).1 (prune c ⟨p.initial, candidates⟩).2 count
      (W p.initial) :=
  ⟨⟨W, grows, rfl⟩, rewires.stateCount.trans adds.stateCount, distinct.filter _,
    mem_filter_isFinal above found⟩

/-! ### Weights on the left -/

theorem nodup_entries {ts : List Nat} (distinct : ts.Nodup) (a : Automaton K) :
    ((ts.filterMap fun t => (a.transition? t).map (t, ·)).map (·.1)).Nodup := by
  refine List.Nodup.sublist ?_ distinct
  induction ts with
  | nil => exact .slnil
  | cons t ts ih =>
    have rest := ih (List.nodup_cons.mp distinct).2
    cases present : a.transition? t with
    | none =>
      rw [List.filterMap_cons_none (by rw [present]; rfl)]
      exact rest.cons t
    | some tr =>
      rw [List.filterMap_cons_some (by rw [present]; rfl)]
      exact rest.cons_cons t

/-- The transitions that are scaled one after the other are those that are there at first. -/
theorem scaleLeft_eq {ts : List Nat} (distinct : ts.Nodup) (w : K) (a : Automaton K) :
    ts.foldl (fun a t => match a.transition? t with
      | some tr => a.setWeight t (Weights.mul w tr.weight)
      | .none => a) a =
      scaleEach w (ts.filterMap fun t => (a.transition? t).map (t, ·)) a := by
  induction ts generalizing a with
  | nil => rfl
  | cons t ts ih =>
    obtain ⟨new, distinct⟩ := List.nodup_cons.mp distinct
    rw [List.foldl_cons, ih distinct]
    cases present : a.transition? t with
    | none => rw [List.filterMap_cons_none (by rw [present]; rfl)]
    | some tr =>
      rw [List.filterMap_cons_some (by rw [present]; rfl)]
      unfold scaleEach
      rw [List.foldl_cons]
      congr 1
      refine List.filterMap_congr fun u member => ?_
      rw [transition?_setWeight_of_ne (ne_of_mem_of_not_mem member new)]

theorem rewires_scaleLeft (steady : b.Steady) (w : K) (p : Piece) :
    Rewires b (scaleLeft w b p).1 fun s g =>
      if s = p.initial then w • b.row s g else b.row s g := by
  have linked : (b.allOut p.initial).Nodup := steady.wellFormed.nodup_linked .source p.initial
  have scaled := rewires_scaleWhere w steady (nodup_entries linked b)
    (fun x _ => x = p.initial) fun t tr => by
      rw [List.mem_filterMap]
      constructor
      · rintro ⟨u, member, found⟩
        obtain ⟨tr', present, same⟩ := Option.map_eq_some_iff.mp found
        cases same
        obtain ⟨tr', present', here⟩ := steady.wellFormed.mem_allOut.mp member
        obtain rfl : tr' = tr := Option.some.inj (present'.symm.trans present)
        exact ⟨present, here⟩
      · rintro ⟨present, here⟩
        exact ⟨t, steady.wellFormed.mem_allOut.mpr ⟨tr, present, here⟩, by rw [present]; rfl⟩
  have shape : (scaleLeft w b p).1 = scaleEach w _ b := scaleLeft_eq linked w b
  rw [shape]
  refine scaled.congr fun s g => ?_
  split
  · exact row_smul w
  · rfl

theorem Adds.scaleLeft (adds : Adds a b p count f) (steady : a.Steady) (w : K) :
    Adds a (scaleLeft w b p).1 (scaleLeft w b p).2 count (w • f) := by
  obtain ⟨V, grows, rfl⟩ := adds.grows
  have rewires := rewires_scaleLeft grows.steady w p
  have start := grows.entered (s := p.initial) (by simp)
  let W := Function.update V p.initial (w • V p.initial)
  have same {s : State} (other : s ≠ p.initial) : W s = V s := Function.update_of_ne other _ _
  have here : W p.initial = w • V p.initial :=
    Function.update_self p.initial (w • V p.initial) V
  have post : W State.post = 1 := (same (isSentinel_eq_false.mp
    (inner_of_le steady start.1)).2.symm).trans grows.post
  have passing {s : State} (above : a.nextState ≤ s) : b.row s (passing W) = b.row s (passing V) :=
    grows.row_passing post
      (fun y _ _ outside => same fun entry => outside (List.mem_singleton.mpr entry)) above
  have scaled : Grows a (scaleLeft w b p).1 [p.initial] W := by
    refine grows.rewire rewires (fun s below g => ?_) (fun s above g zero => ?_) post
      fun s above live => ?_
    · rw [rewires.row, if_neg (Nat.ne_of_lt (below.trans_le start.1))]
    · rw [rewires.row, grows.row_eq_zero zero, smul_zero, ite_self]
    · rw [rewires.row, passing above, grows.series above live]
      split
      · rename_i entry
        rw [entry, here]
      · rename_i other
        rw [same other]
  rw [← here]
  refine adds.of_rewires rewires scaled adds.distinct (fun s member =>
    (adds.mem_finals.mp member).1) fun s above final => adds.mem_finals.mpr ⟨above, ?_⟩
  have some := scaled.steady.isFinal_iff_row.mp final
  rw [rewires.row] at some
  refine grows.steady.isFinal_iff_row.mpr fun zero => some ?_
  rw [zero, smul_zero, ite_self]

/-! ### Weights on the right -/

theorem Adds.inner_finals (adds : Adds a b p count f) (steady : a.Steady) (made : b.Steady)
    (member : s ∈ p.finals) : b.Inner s := by
  obtain ⟨above, final⟩ := adds.mem_finals.mp member
  exact inner_of_live steady above (hasState_of_isFinal made final)

theorem Adds.scaleRight (adds : Adds a b p count f) (steady : a.Steady) (w : K) :
    Adds a (scaleRight b p w).1 (scaleRight b p w).2 count (w • f) := by
  obtain ⟨V, grows, rfl⟩ := adds.grows
  have rewires : Rewires b (Piece.scaleRight b p w).1 fun s g =>
      b.row s (if s ∈ p.finals then redirect (w • g .special State.post) g else g) :=
    Rewires.fold adds.distinct grows.steady fun d made live s member =>
      have inner := adds.inner_finals steady grows.steady member
      rewires_scaleFinal made ⟨(live s).trans inner.live, inner.inner⟩ w
  have start := grows.entered (s := p.initial) (by simp)
  let W : State → WordSeries K := fun s => if a.nextState ≤ s then V s * w • 1 else V s
  have post : W State.post = 1 :=
    (if_neg (Nat.not_le_of_lt (post_lt_nextState steady))).trans grows.post
  have scaled : Grows a (Piece.scaleRight b p w).1 [p.initial] W := by
    refine grows.rewire rewires (fun s below g => ?_) (fun s above g zero => ?_) post
      fun s above live => ?_
    · rw [rewires.row, if_neg fun member => Nat.not_lt_of_le (adds.mem_finals.mp member).1 below]
    · rw [rewires.row]
      refine grows.row_eq_zero fun l y leads => ?_
      split
      · unfold redirect
        split
        · rename_i last
          rw [zero _ _ ⟨last ▸ leads.1, fun _ => ⟨.inl rfl, .inl rfl⟩⟩, smul_zero]
        · exact zero l y leads
      · exact zero l y leads
    · have value := grows.row_redirect (W := W) steady above live
        fun {t tr} present here inside =>
          if_pos (((grows.leads present).2 (here ▸ above)).1.resolve_left inside)
      rw [rewires.row, passing, post, Label.pass_special]
      refine Eq.trans ?_ (value.trans (if_pos above).symm)
      split
      · rfl
      · rename_i outside
        refine (grows.row_redirect_of_not_final (Bool.eq_false_iff.mpr fun final => ?_) _).symm
        exact outside (adds.mem_finals.mpr ⟨above, final⟩)
  have value : W p.initial = w • V p.initial := by
    refine (if_pos start.1).trans ?_
    rw [mul_smul_comm, mul_one]
  rw [← value]
  refine adds.of_rewires rewires scaled adds.distinct (fun s member =>
    (adds.mem_finals.mp member).1) fun s above final => ?_
  by_contra outside
  have same := isFinal_congr grows.steady scaled.steady
    ((rewires.row s stops).trans (by rw [if_neg outside]))
  exact outside (adds.mem_finals.mpr ⟨above, same.symm.trans final⟩)

/-! ### Stars -/

/-- The initial state with the star of its constant term. -/
def restarted (k : K) (b : Automaton K) (p : Piece) : Automaton K :=
  (scaleEach k (b.outgoing p.initial) b).setFinal p.initial k

/-- The final states besides the initial one. -/
def others (p : Piece) : List State := p.finals.filter (· != p.initial)

/-- The other final states start again as the initial one does. -/
def looped (k : K) (b : Automaton K) (p : Piece) : Automaton K :=
  (others p).foldl (loopFrom k ((restarted k b p).successors p.initial)) (restarted k b p)

theorem star_eq (defined : Weights.star (b.finalWeight p.initial) = .ok k) :
    star b p = .ok (prune (looped k b p) ⟨p.initial, p.initial :: others p⟩) := by
  unfold star
  rw [defined]
  rfl

/-- What the initial state gives, once it has the star of its constant term. -/
def loop (k : K) (b : Automaton K) (p : Piece) (g : Label → State → WordSeries K) :
    WordSeries K :=
  k • (b.row p.initial (redirect 0 g) + g .special State.post)

theorem rewires_restarted (steady : b.Steady) (inner : b.Inner p.initial) (k : K) :
    Rewires b (restarted k b p) fun s g => if s = p.initial then loop k b p g else b.row s g := by
  have scaled := rewires_scaleWhere k steady (nodup_outgoing steady.wellFormed p.initial)
    (fun x y => x = p.initial ∧ y ≠ State.post) fun t tr => mem_outgoing steady.wellFormed
  refine (scaled.trans (rewires_setFinal scaled.steady (scaled.inner inner) k)).congr fun s g => ?_
  rw [scaled.row, scaled.row]
  split
  · rw [loop, smul_add, ← row_smul]
    refine congrArg (· + _) (row_congr fun {t tr} _ _ => ?_)
    by_cases last : tr.target = State.post
    · rw [if_neg fun both => both.2 last, last, redirect_post, smul_zero]
    · rw [if_pos ⟨rfl, last⟩]
  · rename_i other
    exact row_congr fun _ _ => if_neg fun both => other both.1

theorem rewires_looped (adds : Adds a b p count f) (steady : a.Steady) (made : b.Steady)
    (inner : b.Inner p.initial) (k : K) :
    Rewires b (looped k b p) fun s g => if s = p.initial then loop k b p g
      else b.row s (if s ∈ others p then redirect (loop k b p g) g else g) := by
  have first := rewires_restarted made inner k
  have next (g : Label → State → WordSeries K) :
      follow ((restarted k b p).successors p.initial) g + k • g .special State.post =
        loop k b p g := by
    rw [follow_successors first.steady.wellFormed, first.row, if_pos rfl, loop, loop,
      redirect_post, add_zero, smul_add]
    refine congrArg (k • · + _) (row_congr fun {t tr} _ _ => ?_)
    by_cases last : tr.target = State.post
    · rw [last, redirect_post, redirect_post]
    · rw [redirect_of_ne last]
  have folded : Rewires _ (List.foldl (loopFrom k ((restarted k b p).successors p.initial)) _ _) _ :=
    Rewires.fold (adds.distinct.filter (· != p.initial)) first.steady fun d steady' live s member => by
      have old := adds.inner_finals steady made (List.mem_filter.mp member).1
      have accepts : ∀ tr ∈ (restarted k b p).successors p.initial,
          d.Accepts s tr.label tr.target := by
        intro tr listed
        obtain ⟨⟨t, present, here⟩, _⟩ := (mem_successors first.steady.wellFormed).mp listed
        exact (accepts_from first.steady.wellFormed present (here ▸ inner.inner)
          (first.inner old)).mono fun x there => (live x).trans there
      exact rewires_loopFrom steady' ⟨(live s).trans (first.inner old).live, old.inner⟩ k accepts
        fun tr listed => ((mem_successors first.steady.wellFormed).mp listed).2
  refine (first.trans folded).congr fun s g => ?_
  rw [first.row, next]
  split
  · rename_i here
    have entry : s ∉ others p := by
      rw [here]
      simp [others]
    exact congrArg (loop k b p) (if_neg entry)
  · rfl

theorem Adds.looped (adds : Adds a b p count f) (steady : a.Steady) (k : K) :
    Adds a (prune (looped k b p) ⟨p.initial, p.initial :: others p⟩).1
      (prune (looped k b p) ⟨p.initial, p.initial :: others p⟩).2 count
      (WordSeries.star k f.proper) := by
  obtain ⟨V, grows, rfl⟩ := adds.grows
  have start := grows.entered (s := p.initial) (by simp)
  have inner := inner_of_live steady start.1 start.2
  have rewires := rewires_looped adds steady grows.steady inner k
  let S := WordSeries.star k (V p.initial).proper
  let W : State → WordSeries K := fun s =>
    if s = p.initial then S else if a.nextState ≤ s then V s * S else V s
  have first : W p.initial = S := if_pos rfl
  have after {s : State} (above : a.nextState ≤ s) (other : s ≠ p.initial) : W s = V s * S :=
    (if_neg other).trans (if_pos above)
  have post : W State.post = 1 := by
    refine (if_neg (isSentinel_eq_false.mp inner.inner).2.symm).trans ?_
    exact (if_neg (Nat.not_le_of_lt (post_lt_nextState steady))).trans grows.post
  have targets {t : Nat} {tr : Transition K} (present : b.transition? t = some tr)
      (above : a.nextState ≤ tr.source) (inside : tr.target ≠ State.post) :
      W tr.target = V tr.target * S := by
    obtain ⟨outside, stays⟩ := grows.leads present
    refine after ((stays above).1.resolve_left inside) fun entry => outside ?_
    exact List.mem_singleton.mpr entry
  -- The star solves the equation of the initial state.
  have solved : loop k b p (passing W) = S := by
    have rest : b.row p.initial (redirect 0 (passing W)) = (V p.initial).proper * S := by
      rw [(grows.constant steady start.1 start.2).2, row_mul_right]
      refine row_congr fun {t tr} present here => ?_
      by_cases last : tr.target = State.post
      · rw [last, redirect_post, redirect_post, zero_mul]
      · obtain ⟨x, letter⟩ := grows.letter steady present (here ▸ start.1) last
        rw [redirect_of_ne last, redirect_of_ne last, letter, passing, passing,
          targets present (here ▸ start.1) last, Label.pass_letter_mul]
    rw [loop, rest, passing, post, Label.pass_special, add_comm]
    exact (WordSeries.star_eq k (WordSeries.proper_nil _)).symm
  have whole : Grows a (Piece.looped k b p) [p.initial] W := by
    refine grows.rewire rewires (fun s below g => ?_) (fun s above g zero => ?_) post
      fun s above live => ?_
    · rw [rewires.row, if_neg (Nat.ne_of_lt (below.trans_le start.1)), if_neg fun member => ?_]
      exact Nat.not_lt_of_le (adds.mem_finals.mp (List.mem_filter.mp member).1).1 below
    · have redirected {x : State} (above : a.nextState ≤ x) :
          b.row x (redirect 0 g) = 0 := grows.row_eq_zero fun l y leads => by
        unfold redirect
        split
        · rfl
        · exact zero l y (leads.of_le above)
      have nothing : loop k b p g = 0 := by
        rw [loop, redirected start.1, zero_add,
          zero _ _ ⟨fun member => ?_, fun _ => ⟨.inl rfl, .inl rfl⟩⟩,
          smul_zero]
        exact (isSentinel_eq_false.mp inner.inner).2 (List.mem_singleton.mp member).symm
      rw [rewires.row, nothing]
      split
      · rfl
      · split
        · exact redirected above
        · exact grows.row_eq_zero zero
    · rw [rewires.row, solved]
      by_cases entry : s = p.initial
      · rw [if_pos entry, entry, first]
      · have value := grows.row_redirect (W := W) (h := S) steady above live
          fun {t tr} present here inside => targets present (here ▸ above) inside
        rw [if_neg entry]
        refine Eq.trans ?_ (value.trans (after above entry).symm)
        split
        · rfl
        · rename_i outside
          refine (grows.row_redirect_of_not_final (Bool.eq_false_iff.mpr fun final => ?_) _).symm
          refine outside (List.mem_filter.mpr ⟨adds.mem_finals.mpr ⟨above, final⟩, ?_⟩)
          exact bne_iff_ne.mpr entry
  rw [← show W p.initial = WordSeries.star k (V p.initial).proper from first]
  refine adds.of_rewires rewires whole ?_ (fun s member => ?_) fun s above final => ?_
  · exact List.nodup_cons.mpr ⟨by simp [others], adds.distinct.filter _⟩
  · rcases List.mem_cons.mp member with rfl | member
    · exact start.1
    · exact (adds.mem_finals.mp (List.mem_filter.mp member).1).1
  · by_cases entry : s = p.initial
    · exact List.mem_cons.mpr (.inl entry)
    · refine List.mem_cons_of_mem _ ?_
      by_contra outside
      have same := isFinal_congr grows.steady whole.steady
        ((rewires.row s stops).trans (by rw [if_neg entry, if_neg outside]))
      exact outside (List.mem_filter.mpr
        ⟨adds.mem_finals.mpr ⟨above, same.symm.trans final⟩, bne_iff_ne.mpr entry⟩)

end WeightedAutomata.Piece
