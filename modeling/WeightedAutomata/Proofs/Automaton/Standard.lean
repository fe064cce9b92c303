import WeightedAutomata.Automaton.Shape
import WeightedAutomata.Proofs.Automaton.Loops
import WeightedAutomata.Proofs.Automaton.Proper
import WeightedAutomata.Proofs.Automaton.Renumbering
import WeightedAutomata.Proofs.Expression.Rational

/-! Standard automata: they give to words what their expressions do, with one state for each atom
and an initial state that no transition enters. -/

set_option linter.unusedSectionVars false

namespace WeightedAutomata

open scoped Weights

variable {K : Type} [Weights K] [Weights.Lawful K]

namespace Piece

open Automaton

variable {a b : Automaton K} {p : Piece} {f : WordSeries K} {m n count : Nat}
variable {alphabet : Alphabet}

/-! ### Parts of expressions -/

/-- What is made of a part of an expression: a piece for its series, or an error if it has none. -/
def Builds (a : Automaton K) (count : Nat) (meant : Option (WordSeries K))
    (result : Result (Automaton K × Piece)) : Prop :=
  match meant with
  | .some f => ∃ b p, result = .ok (b, p) ∧ Adds a b p count f
  | .none => ∃ err, result = .error err

theorem Builds.of_adds (adds : Adds a b p count f) : Builds a count (some f) (.ok (b, p)) :=
  ⟨b, p, rfl, adds⟩

theorem Builds.bind {meant : Option (WordSeries K)} {result : Result (Automaton K × Piece)}
    {meaning : WordSeries K → Option (WordSeries K)}
    {go : Automaton K × Piece → Result (Automaton K × Piece)} (first : Builds b m meant result)
    (next : ∀ f c p, Adds b c p m f → Builds a n (meaning f) (go (c, p))) :
    Builds a n (meant.bind meaning) (result >>= go) := by
  cases meant with
  | none =>
    obtain ⟨err, rfl⟩ := first
    exact ⟨err, rfl⟩
  | some f =>
    obtain ⟨c, p, rfl, adds⟩ := first
    exact next f c p adds

/-- Whether a way to join two pieces makes a piece for what `op` makes of their series. -/
def Joins (op : WordSeries K → WordSeries K → WordSeries K)
    (join : Automaton K → Piece → Piece → Automaton K × Piece) : Prop :=
  ∀ {a b c : Automaton K} {p q : Piece} {m n : Nat} {f g : WordSeries K}, a.Steady →
    Adds a b p m f → Adds b c q n g → Adds a (join c p q).1 (join c p q).2 (m + n) (op f g)

theorem joins_sum : Joins (K := K) (· + ·) sum := by
  intro a b c p q m n f g steady left right
  obtain ⟨U, beside, rfl, rfl⟩ := left.beside right steady
  exact beside.adds_sum steady

theorem joins_product : Joins (K := K) (· * ·) product := by
  intro a b c p q m n f g steady left right
  obtain ⟨U, beside, rfl, rfl⟩ := left.beside right steady
  exact beside.adds_product steady

theorem Adds.steady (adds : Adds a b p count f) : b.Steady := by
  obtain ⟨V, grows, _⟩ := adds.grows
  exact grows.steady

theorem Adds.builds_star (adds : Adds a b p count f) (steady : a.Steady) :
    Builds a count f.star? (star b p) := by
  obtain ⟨V, grows, rfl⟩ := adds.grows
  have start := grows.entered (s := p.initial) (by simp)
  have constant := (grows.constant steady start.1 start.2).1
  unfold WordSeries.star?
  cases defined : Weights.star (V p.initial []) with
  | ok k =>
    rw [star_eq (constant ▸ defined)]
    exact .of_adds (adds.looped steady k)
  | error err =>
    refine ⟨err, ?_⟩
    unfold star
    rw [← constant, defined]
    rfl

theorem map_meanings_cons {α : Type} (ls : LabelSet) (e : Exp K) (es : List (Exp K))
    (value : List (WordSeries K) → α) : (Exp.meanings ls (e :: es)).map value =
      (Exp.meaning ls e).bind fun f => (Exp.meanings ls es).map fun fs => value (f :: fs) := by
  rw [Exp.meanings, Option.map_bind]
  exact congrArg _ (funext fun f => Option.map_map ..)

mutual

theorem builds_ofExp : (e : Exp K) → e.Rational alphabet → {a : Automaton K} → a.Steady →
    Builds a (e.count .atom) (e.meaning (.letters alphabet)) (ofExp e a)
  | .zero, _, _, steady => .of_adds (adds_none steady)
  | .one, _, _, steady => .of_adds (adds_unit steady)
  | .atom l, rational, _, steady => by
    obtain ⟨x, rfl, accepted⟩ := rational
    have meant : (Exp.atom (.letter x) : Exp K).meaning (.letters alphabet) =
        some (WordSeries.ofWord [x]) := Exp.meaning_atom.mpr ⟨accepted, rfl, rfl⟩
    rw [meant]
    exact .of_adds (adds_atom steady x)
  | .sum [], rational, _, _ => absurd rfl rational.1
  | .prod [], rational, _, _ => absurd rfl rational.1
  | .sum (e :: es), rational, _, steady => by
    rw [Exp.meaning, List.isEmpty_cons, if_neg Bool.false_ne_true, map_meanings_cons,
      Exp.count, if_neg (by decide), Nat.zero_add]
    exact (builds_ofExp e rational.2.1 steady).bind fun f b p adds =>
      builds_ofOperands joins_sum add_assoc add_zero es rational.2.2 steady adds
  | .prod (e :: es), rational, _, steady => by
    rw [Exp.meaning, List.isEmpty_cons, if_neg Bool.false_ne_true, map_meanings_cons,
      Exp.count, if_neg (by decide), Nat.zero_add]
    exact (builds_ofExp e rational.2.1 steady).bind fun f b p adds =>
      builds_ofOperands joins_product mul_assoc mul_one es rational.2.2 steady adds
  | .star e, rational, _, steady => by
    rw [Exp.meaning, Exp.count, if_neg (by decide), Nat.zero_add]
    exact (builds_ofExp e rational steady).bind fun _ _ _ adds => adds.builds_star steady
  | .lweight w e, rational, _, steady => by
    rw [Exp.meaning, Option.map_eq_bind, Exp.count, if_neg (by decide), Nat.zero_add]
    exact (builds_ofExp e rational steady).bind fun _ _ _ adds =>
      .of_adds (adds.scaleLeft steady w)
  | .rweight e w, rational, _, steady => by
    rw [Exp.meaning, Option.map_eq_bind, Exp.count, if_neg (by decide), Nat.zero_add]
    exact (builds_ofExp e rational steady).bind fun _ _ _ adds =>
      .of_adds (adds.scaleRight steady w)

theorem builds_ofOperands {op : WordSeries K → WordSeries K → WordSeries K}
    {unit : WordSeries K} {join : Automaton K → Piece → Piece → Automaton K × Piece}
    (joins : Joins op join) (assoc : ∀ f g h, op (op f g) h = op f (op g h))
    (right : ∀ f, op f unit = f) : (es : List (Exp K)) → Exp.RationalEach alphabet es →
    {a b : Automaton K} → {p : Piece} → {m : Nat} → {f : WordSeries K} → a.Steady →
    Adds a b p m f → Builds a (m + Exp.counts .atom es)
      ((Exp.meanings (.letters alphabet) es).map fun fs => op f (fs.foldr op unit))
      (ofOperands join es b p)
  | [], _, _, _, _, _, f, _, adds => by
    rw [Exp.meanings, Option.map_some, List.foldr_nil, right]
    exact .of_adds adds
  | e :: es, rational, a, b, p, m, f, steady, adds => by
    rw [map_meanings_cons, Exp.counts, ← Nat.add_assoc]
    refine (builds_ofExp e rational.1 adds.steady).bind fun g c q more => ?_
    have rest := builds_ofOperands joins assoc right es rational.2 steady
      (joins steady adds more)
    simp only [List.foldr_cons, ← assoc]
    exact rest

end

/-! ### The initial state -/

variable {labels : LabelSet} {entries : List State} {V : State → WordSeries K} {s e : State}

/-- What the states of an automaton that was empty before give is what they read. -/
theorem Grows.reading (grows : Grows a b entries V) (steady : a.Steady) (u : List Char)
    (above : a.nextState ≤ s) (live : b.hasState s = true) : b.reading u s = V s u := by
  induction u generalizing s with
  | nil => exact (grows.constant steady above live).1.symm
  | cons x u ih =>
    rw [Automaton.reading, ← grows.series above live, Automaton.row, total_apply]
    refine total_congr fun {t tr} present => ?_
    by_cases here : tr.source = s
    · rw [if_pos here]
      by_cases last : tr.target = State.post
      · have special := (grows.steady.wellFormed.special present).mpr (.inr last)
        rw [if_neg fun both => ?_, passing, last, grows.post, special, Label.pass_special,
          WordSeries.one_cons]
        cases special.symm.trans both.2
      · obtain ⟨y, letter⟩ := grows.letter steady present (here ▸ above) last
        have beyond := ((grows.leads present).2 (here ▸ above)).1.resolve_left last
        have there := grows.steady.wellFormed.hasState_at present .target
        rw [passing, letter, Label.pass_letter_cons]
        by_cases same : y = x
        · rw [if_pos same, if_pos ⟨here, congrArg _ same⟩]
          exact ih beyond there
        · rw [if_neg same, if_neg fun both => same (Label.letter.inj both.2)]
    · rw [if_neg here, if_neg fun both => here both.1, WordSeries.zero_apply]

/-- Pieces do not have initial transitions. -/
theorem Grows.sources (grows : Grows (Automaton.empty labels) b entries V) :
    b.All fun tr => tr.source ≠ State.pre := by
  refine grows.steady.all_of_row (P := fun x _ _ => x ≠ State.pre) fun x g zero => ?_
  by_cases old : x = State.pre
  · have before : State.pre < (Automaton.empty labels : Automaton K).nextState := Nat.two_pos
    rw [old, grows.row before]
    exact total_empty labels
  · exact Automaton.row_eq_zero fun _ _ => zero _ _ old

section

variable (grows : Grows (Automaton.empty labels) b [e] V)
include grows

theorem Grows.total_setInitial {M : Type} [AddCommMonoid M] [Module K M] (w : K)
    (c : State → Label → State → M) :
    (b.setInitial e w).total c = b.total c + w • c State.pre .special e := by
  refine (total_setTransition State.pre e .special w c).trans ?_
  refine congrArg (· + _) (total_congr fun {t tr} present => if_neg fun all => ?_)
  exact grows.sources present all.1

theorem Grows.accepts : b.Accepts State.pre .special e := by
  obtain ⟨above, live⟩ := grows.entered List.mem_cons_self
  exact accepts_initial grows.steady.wellFormed live
    (isSentinel_eq_false.mp (inner_of_le (.empty labels) above)).1

theorem Grows.steady_setInitial (w : K) : (b.setInitial e w).Steady :=
  grows.steady.setTransition grows.accepts w

theorem Grows.reading_setInitial (w : K) (u : List Char) (notPre : s ≠ State.pre) :
    (b.setInitial e w).reading u s = b.reading u s := by
  induction u generalizing s with
  | nil =>
    rw [Automaton.reading, Automaton.reading, finalWeight, finalWeight,
      weightBetween_eq_total,
      weightBetween_eq_total, grows.total_setInitial,
      if_neg fun all => notPre all.1.symm, smul_zero, add_zero]
  | cons x u ih =>
    rw [Automaton.reading, Automaton.reading, grows.total_setInitial,
      if_neg fun both => notPre both.1.symm, smul_zero, add_zero]
    refine total_congr fun {t tr} present => ?_
    rw [ih (grows.steady.wellFormed.target_ne_pre present)]

theorem Grows.weight_setInitial (w : K) :
    (b.setInitial e w).weightBetween State.pre .special e = w := by
  rw [weightBetween_eq_total, grows.total_setInitial,
    if_pos ⟨rfl, rfl, rfl⟩, smul_eq_mul, mul_one]
  have nothing : (b.total fun x l y =>
      if x = State.pre ∧ l = .special ∧ y = e then (1 : K) else 0) = 0 :=
    total_eq_zero fun {t tr} present => if_neg fun all => grows.sources present all.1
  rw [nothing, zero_add]

/-- Pieces read letters. -/
theorem Grows.letters (w : K) : (b.setInitial e w).All fun tr =>
    tr.label = .special ∨ ∃ x, tr.label = .letter x := by
  intro t tr present
  rcases transition?_setTransition present with ⟨_, special, _⟩ | old
  · exact .inl special
  · refine ((grows.leads old).2 (Nat.le_of_not_lt fun below => ?_)).2
    have inner : State.isSentinel tr.source = false :=
      isSentinel_eq_false.mpr ⟨grows.sources old, grows.steady.wellFormed.source_ne_post old⟩
    have sentinel : State.isSentinel tr.source = true := decide_eq_true below
    exact Bool.false_ne_true (inner.symm.trans sentinel)

/-- The only initial transition, and the only one that enters its state. -/
theorem Grows.initial_iff {t : Nat} {tr : Transition K} {w : K}
    (present : (b.setInitial e w).transition? t = some tr) :
    tr.source = State.pre ↔ tr.target = e := by
  rcases transition?_setTransition present with ⟨source, _, target⟩ | old
  · exact iff_of_true source target
  · exact iff_of_false (grows.sources old)
      fun enters => (grows.leads old).1 (List.mem_singleton.mpr enters)

end

end Piece

namespace Automaton

variable {a b r : Automaton K} {p : Piece} {f : WordSeries K} {count : Nat} {s : State}
variable {labels : LabelSet} {alphabet context : Alphabet} {e : Exp K}

/-! ### Standard automata -/

/-- An automaton is standard if it has an initial transition of weight one, which is the only one,
and the only one to its target. -/
theorem isStandard_of_initial (steady : a.Steady) {t : Nat} {tr : Transition K}
    (present : a.transition? t = some tr) (first : tr.source = State.pre) (one : tr.weight = 1)
    (alone : a.All fun other => other.source = State.pre ↔ other.target = tr.target) :
    a.isStandard = true := by
  have wellFormed := steady.wellFormed
  have only {u : Nat} {other : Transition K} (there : a.transition? u = some other)
      (starts : other.source = State.pre) : u = t := by
    refine Automaton.unique there present (starts.trans first.symm) ?_ ((alone there).mp starts)
    rw [(wellFormed.special there).mpr (.inl starts), (wellFormed.special present).mpr (.inl first)]
  have linked : a.allOut State.pre = [t] := by
    have nodup : (a.allOut State.pre).Nodup := wellFormed.nodup_linked .source State.pre
    refine List.perm_singleton.mp ((List.perm_ext_iff_of_nodup nodup (List.nodup_singleton t)).mpr
      fun u => ?_)
    rw [wellFormed.mem_allOut, List.mem_singleton]
    constructor
    · rintro ⟨other, there, starts⟩
      exact only there starts
    · rintro rfl
      exact ⟨tr, present, first⟩
  have initial : a.initialTransitions = [tr] := by
    unfold initialTransitions lookUp
    rw [linked, List.filterMap_cons_some present]
    rfl
  have incoming : a.incoming tr.target = [] := by
    unfold Automaton.incoming
    refine List.filterMap_eq_nil_iff.mpr fun u member => ?_
    obtain ⟨other, there, enters⟩ := wellFormed.mem_allIn.mp member
    rw [there, Option.bind_some, if_pos ((alone there).mpr enters)]
  unfold isStandard
  rw [initial]
  dsimp only
  rw [incoming, Weights.isOne_iff.mpr one]
  rfl

/-- The automaton of a whole expression. -/
theorem standard_of_adds (adds : Piece.Adds (Automaton.empty (.letters context)) b p count f) :
    let r := (b.setInitial p.initial Weights.one).restrict fun _ => true
    r.stateCount = 1 + count ∧ r.isStandard = true ∧ r.isProper = true ∧
      ∀ u, (∀ c ∈ u, Letter.Visible c) → r.eval (wordText u) = .ok (f u) := by
  obtain ⟨V, grows, rfl⟩ := adds.grows
  intro r
  have started : (Automaton.empty (.letters context) : Automaton K).Steady := .empty _
  obtain ⟨above, live⟩ := grows.entered (s := p.initial) (by simp)
  have steady := grows.steady_setInitial (Weights.one : K)
  let c := b.setInitial p.initial Weights.one
  have sameStates (s : State) : c.hasState s = b.hasState s :=
    hasState_setTransition State.pre p.initial .special Weights.one s
  have labels : c.labels = .letters context := labels_setTransition.trans grows.labels
  have copy : CopyOf c r (.letters context) := labels ▸ copyOf_restrict steady.wellFormed
  have made : r.Steady := steady_restrict steady.wellFormed
  have letters : c.All fun tr => tr.label = .special ∨ ∃ x, tr.label = .letter x :=
    grows.letters Weights.one
  have inner : p.initial ≠ State.pre :=
    (isSentinel_eq_false.mp (inner_of_le started above)).1
  have first : c.hasState State.pre = true := steady.wellFormed.hasState_sentinel rfl
  have second : c.hasState p.initial = true := (sameStates _).trans live
  have one_smul' (x : K) : (Weights.one : K) • x = x := one_smul K x
  refine ⟨?_, ?_, isProper_of_letters
    (copy.all (Q := fun l => l = .special ∨ ∃ x, l = .letter x) letters), fun u visible => ?_⟩
  · refine (stateCount_restrict _).trans ?_
    have same : c.stateCount = b.stateCount := congrArg List.length
      (stateList_congr (nextState_setTransition b State.pre p.initial .special _) sameStates)
    rw [same, adds.stateCount]
    exact congrArg (· + count) (Nat.zero_add 1)
  · have weight : r.weightBetween State.pre .special (c.renamed p.initial) = 1 :=
      (copy.weightBetween_renamed steady.wellFormed first second).trans
        (grows.weight_setInitial Weights.one)
    obtain ⟨t, tr, present, source, label, target⟩ :=
      exists_of_weightBetween (weight.trans_ne one_ne_zero)
    refine isStandard_of_initial made present source ?_ fun u other there => ?_
    · rw [← weightBetween_of_present present, source, label, target, weight]
    · obtain ⟨v, old, before, starts, _, enters⟩ := copy.exists_of_present made there
      have live' : c.hasState old.source = true := steady.wellFormed.hasState_at before .source
      have live'' : c.hasState old.target = true := steady.wellFormed.hasState_at before .target
      rw [← starts, ← enters, target]
      exact (renamed_eq_pre steady.wellFormed live').trans
        ((grows.initial_iff before).trans (renamed_inj live'' second).symm)
  · rw [(copy.eval_reading steady.wellFormed letters visible).2, grows.total_setInitial,
      if_pos rfl, grows.reading_setInitial _ _ inner, grows.reading started u above live]
    have nothing : (b.total fun x _ y =>
        if x = State.pre then (b.setInitial p.initial Weights.one).reading u y else 0) = 0 :=
      total_eq_zero fun {t tr} present => if_neg (grows.sources present)
    rw [nothing, zero_add, one_smul']

/-- The standard automaton of a rational expression is there exactly if the stars of the expression
are defined. It has one state for each atom and its initial state, which no transition enters, and
gives to words what the expression does. -/
theorem standard_spec (rational : e.Rational alphabet) :
    ((∃ a, standard (.letters context) e = .ok a) ↔ e.StarsDefined (.letters alphabet)) ∧
      ∀ a, standard (.letters context) e = .ok a →
        a.stateCount = 1 + e.count .atom ∧ a.isStandard = true ∧ a.isProper = true ∧
          ∃ f, e.meaning (.letters alphabet) = some f ∧
            ∀ u, (∀ c ∈ u, Letter.Visible c) → a.eval (wordText u) = .ok (f u) := by
  have builds := Piece.builds_ofExp e rational (a := Automaton.empty (.letters context)) (.empty _)
  rw [← Exp.isSome_meaning e rational]
  unfold standard
  cases meant : e.meaning (.letters alphabet) with
  | none =>
    rw [meant] at builds
    obtain ⟨err, failed⟩ := builds
    rw [failed]
    exact ⟨iff_of_false nofun nofun, nofun⟩
  | some f =>
    rw [meant] at builds
    obtain ⟨b, p, made, adds⟩ := builds
    rw [made]
    refine ⟨iff_of_true ⟨_, rfl⟩ ⟨f, rfl⟩, ?_⟩
    rintro _ ⟨⟩
    obtain ⟨count, standard, proper, eval⟩ := standard_of_adds adds
    exact ⟨count, standard, proper, f, rfl, eval⟩

theorem standard_spec_of_signed_star :
    let alphabet : Alphabet := .ofLetters false ['a', 'b']
    let e : Exp Int := .prod [.star (.sum [.lweight 2 (.atom (.letter 'a')),
      .rweight (.atom (.letter 'b')) (-1)]), .sum [.one, .atom (.letter 'a')]]
    e.Rational alphabet ∧ ∃ a, standard (.letters alphabet) e = .ok a ∧ a.stateCount = 4 ∧
      a.isStandard = true ∧ a.isProper = true ∧ a.eval (wordText ['a', 'b', 'a']) = .ok (-6) := by
  intro alphabet e
  have rational : e.Rational alphabet := by
    simp only [e, Exp.Rational, Exp.RationalEach, Label.letter.injEq, exists_eq_left']
    decide
  obtain ⟨f, meant, value⟩ : ∃ f, e.meaning (.letters alphabet) = some f ∧
      f ['a', 'b', 'a'] = -6 := ⟨_, rfl, rfl⟩
  have visible : ∀ c ∈ ['a', 'b', 'a'], Letter.Visible c := by
    simp [Letter.Visible]
  obtain ⟨a, made⟩ : ∃ a, standard (.letters alphabet) e = .ok a :=
    (standard_spec rational).1.mpr ((Exp.isSome_meaning e rational).mp ⟨f, meant⟩)
  obtain ⟨count, standard, proper, g, meant', eval⟩ := (standard_spec rational).2 a made
  obtain rfl : f = g := Option.some.inj (meant.symm.trans meant')
  exact ⟨rational, a, made, count, standard, proper, (eval _ visible).trans (congrArg _ value)⟩

end Automaton

end WeightedAutomata
