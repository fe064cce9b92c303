import WeightedAutomata.Context.Conversion
import WeightedAutomata.Proofs.Context.Descriptor
import WeightedAutomata.Proofs.Expression.Members
import WeightedAutomata.Proofs.Label.Conversion

/-!
Weights carried to a set that theirs embeds into. Numbers always have an image. Expressions are
built anew over the labels of the target, which has to receive theirs.
-/

set_option linter.unusedSectionVars false

namespace WeightedAutomata

/-! ### Labels -/

namespace LabelSet

variable {target source : LabelSet} {l l' : Label}

theorem cast_of_receives (shape : source.sameShape target = true)
    (received : target.Receives source) (member : source.contains l = true) :
    ∃ l', target.cast source l = .ok l' := by
  rw [cast, if_pos shape]
  exact convert_of_receives target source l received member

mutual

/-- Where no alphabet and no tuple is empty, some label is not the empty word. -/
theorem exists_label_ne_one (ls : LabelSet) (populated : ls.AllAlphabets Alphabet.Populated)
    (listed : ls.Lists fun _ => True) : ∃ l, ls.contains l = true ∧ l.isOne = false := by
  cases ls with
  | letters | nullable =>
    obtain ⟨c, accepted⟩ := Alphabet.Populated.exists_accepted populated
    exact ⟨.letter c, accepted, rfl⟩
  | words =>
    obtain ⟨c, accepted⟩ := Alphabet.Populated.exists_accepted populated
    exact ⟨.word [c], List.all_eq_true.mpr (List.forall_mem_singleton.mpr accepted), rfl⟩
  | tuple tapes =>
    obtain ⟨ks, members, reads⟩ := exists_labels_ne_one tapes populated listed.1 listed.2
    exact ⟨.tuple ks, members, reads⟩

theorem exists_labels_ne_one (tapes : List LabelSet)
    (populated : AllAlphabetsEach Alphabet.Populated tapes) (nonempty : tapes ≠ [])
    (listed : ListsEach (fun _ => True) tapes) :
    ∃ ks, containsEach tapes ks = true ∧ Label.allOne ks = false := by
  cases tapes with
  | nil => exact absurd rfl nonempty
  | cons ls tapes =>
    obtain ⟨l, member, reads⟩ := exists_label_ne_one ls populated.1 listed.1
    obtain ⟨ks, members⟩ := exists_labels tapes populated.2
    refine ⟨l :: ks, containsEach_cons.mpr ⟨member, members⟩, ?_⟩
    rw [Label.allOne, reads, Bool.false_and]

end

mutual

theorem convert_of_isOne (target source : LabelSet) (l : Label)
    (shape : source.sameShape target = true) (member : source.contains l = true)
    (one : l.isOne = true) : ∃ l', target.convert source l = .ok l' := by
  cases source with
  | letters =>
    cases l with
    | letter => cases one
    | _ => cases member
  | nullable =>
    cases l with
    | one =>
      cases target with
      | nullable | words => exact ⟨.one, rfl⟩
      | letters | tuple => cases shape
    | letter => cases one
    | _ => cases member
  | words =>
    cases l with
    | one =>
      cases target with
      | words => exact ⟨.one, rfl⟩
      | _ => cases shape
    | word => cases one
    | _ => cases member
  | tuple sources =>
    cases target with
    | tuple targets =>
      cases l with
      | tuple ks =>
        obtain ⟨ks', each, members⟩ := convertEach_of_allOne targets sources ks shape member one
        exact ⟨.tuple ks', convert_tuple_eq_ok.mpr ⟨ks', each, members, rfl⟩⟩
      | _ => cases member
    | _ => cases shape

theorem convertEach_of_allOne (targets sources : List LabelSet) (ks : List Label)
    (shapes : sameShapes sources targets = true) (members : containsEach sources ks = true)
    (one : Label.allOne ks = true) :
    ∃ ks', convertEach targets sources ks = .ok ks' ∧ containsEach targets ks' = true := by
  match targets, sources, ks with
  | [], [], _ => exact ⟨[], rfl, rfl⟩
  | [], _ :: _, _ => cases shapes
  | _ :: _, [], _ => cases shapes
  | _ :: _, _ :: _, [] => cases members
  | target :: targets, source :: sources, l :: ks =>
    obtain ⟨shape, shapes⟩ := Bool.and_eq_true_iff.mp shapes
    obtain ⟨member, members⟩ := containsEach_cons.mp members
    obtain ⟨one, ones⟩ := Bool.and_eq_true_iff.mp one
    obtain ⟨l', first⟩ := convert_of_isOne target source l shape member one
    obtain ⟨rest, each, contained⟩ := convertEach_of_allOne targets sources ks shapes members ones
    exact ⟨l' :: rest, convertEach_cons_eq_ok.mpr ⟨l', rest, first, each, rfl⟩,
      containsEach_cons.mpr ⟨contains_of_convert member first, contained⟩⟩

end

/-- The labels that are not the empty word tell whether the target receives the source. -/
theorem receives_of_cast (populated : source.AllAlphabets Alphabet.Populated)
    (listed : source.Lists fun _ => True)
    (casts : ∀ l, source.contains l = true → l.isOne = false →
      ∃ l', target.cast source l = .ok l') :
    source.sameShape target = true ∧ target.Receives source := by
  have shape : source.sameShape target = true := by
    obtain ⟨l, member, reads⟩ := exists_label_ne_one source populated listed
    obtain ⟨l', done⟩ := casts l member reads
    unfold cast at done
    split at done
    · assumption
    · cases done
  refine ⟨shape, receives_of_convert target source populated fun l member => ?_⟩
  cases reads : l.isOne with
  | true => exact convert_of_isOne target source l shape member reads
  | false =>
    obtain ⟨l', done⟩ := casts l member reads
    rw [cast, if_pos shape] at done
    exact ⟨l', done⟩

end LabelSet

/-! ### Expressions -/

namespace ExpressionSet

variable {K L : Type} [Weights K] [Weights L] {weight : K → Result L} {P : K → Prop}
variable {target source : ExpressionSet}

theorem lweight_one {s : ExpressionSet} {w : K} (zero : Weights.isZero w = false)
    (one : Weights.isOne w = false) : s.lweight w .one = .lweight w .one := by
  change s.scaleWith (s.scaleWithin 0) .one w = _
  unfold scaleWith
  split
  · rfl
  · simp [Exp.isZero, zero, one]

theorem tuple_of_length {tapes : List LabelSet} {es : List (Exp K)}
    (labels : source.labels = .tuple tapes) (long : es.length = tapes.length) :
    source.tuple es = .ok (source.joinTapes es) := by
  unfold tuple
  rw [(requireTapes_eq_ok labels).mpr long]
  rfl

theorem tape?_of_drop {tapes rest : List LabelSet} {ls : LabelSet} {i : Nat}
    (labels : source.labels = .tuple tapes) (here : tapes.drop i = ls :: rest) :
    source.tape? i = some { source with labels := ls } ∧ tapes.drop (i + 1) = rest := by
  have present : tapes[i]? = some ls := by
    rw [← List.head?_drop, here]
    rfl
  constructor
  · have tape : source.labels.tape? i = some ls := by
      rw [labels]
      exact present
    rw [tape?, tape]
    rfl
  · rw [← List.tail_drop, here]
    rfl

/-! What the cast of one expression tells of labels and weights. -/

theorem cast_of_castExp_atom {l : Label} {r : Exp L}
    (done : castExp weight target source (.atom l : Exp K) = .ok r) :
    ∃ l', target.labels.cast source.labels l = .ok l' := by
  obtain ⟨l', done, _⟩ := Result.bind_eq_ok.mp done
  exact ⟨l', done⟩

theorem isBoolean_of_castExp_complement {r : Exp L}
    (done : castExp weight target source (.complement .one : Exp K) = .ok r) :
    Weights.isBoolean L = true := by
  obtain ⟨_, _, done⟩ := Result.bind_eq_ok.mp done
  unfold ExpressionSet.complement at done
  split at done
  · assumption
  · cases done

theorem weight_of_castExp_lweight {w : K} {r : Exp L}
    (done : castExp weight target source (.lweight w .one) = .ok r) : ∃ v, weight w = .ok v := by
  obtain ⟨v, done, _⟩ := Result.bind_eq_ok.mp done
  exact ⟨v, done⟩

variable (weights : ∀ w, P w → ∃ v, weight w = .ok v)
variable (boolean : Weights.isBoolean K = true → Weights.isBoolean L = true)
include weights boolean

mutual

/-- An expression over labels that the target receives is carried to it, if its weights are. -/
theorem castExp_of_over (target source : ExpressionSet) (e : Exp K)
    (shape : source.labels.sameShape target.labels = true)
    (received : target.labels.Receives source.labels) (lies : e.Over P source.labels) :
    ∃ r, castExp weight target source e = .ok r := by
  cases e with
  | zero => exact ⟨.zero, rfl⟩
  | one => exact ⟨.one, rfl⟩
  | atom l =>
    obtain ⟨l', done⟩ := LabelSet.cast_of_receives shape received lies
    exact ⟨target.atom l', by rw [castExp, done]; rfl⟩
  | sum es | prod es | conjunction es | shuffle es =>
    obtain ⟨rs, done⟩ := castEach_of_over target source es shape received lies
    exact ⟨_, by rw [castExp, done]; rfl⟩
  | star e | transposition e =>
    obtain ⟨r, done⟩ := castExp_of_over target source e shape received lies
    exact ⟨_, by rw [castExp, done]; rfl⟩
  | complement e =>
    obtain ⟨r, done⟩ := castExp_of_over target source e shape received lies.2
    refine ⟨target.complementNode r, ?_⟩
    rw [castExp, done]
    exact if_pos (boolean lies.1)
  | lweight w e | rweight e w =>
    obtain ⟨v, carried⟩ := weights w lies.1
    obtain ⟨r, done⟩ := castExp_of_over target source e shape received lies.2
    exact ⟨_, by rw [castExp, done, carried]; rfl⟩
  | tuple es =>
    obtain ⟨tapes, labels, overs⟩ := lies
    cases labels' : target.labels with
    | tuple tapes' =>
      rw [labels, labels'] at shape received
      obtain ⟨rs, done, long⟩ :=
        castTapes_of_over target source labels' labels 0 es shape received overs
      refine ⟨target.joinTapes rs, ?_⟩
      rw [castExp, done]
      exact tuple_of_length labels' long
    | _ =>
      rw [labels, labels'] at shape
      cases shape

theorem castEach_of_over (target source : ExpressionSet) (es : List (Exp K))
    (shape : source.labels.sameShape target.labels = true)
    (received : target.labels.Receives source.labels) (overs : Exp.EachOver P es source.labels) :
    ∃ rs, castEach weight target source es = .ok rs := by
  match es with
  | [] => exact ⟨[], rfl⟩
  | e :: es =>
    obtain ⟨r, first⟩ := castExp_of_over target source e shape received overs.1
    obtain ⟨rs, rest⟩ := castEach_of_over target source es shape received overs.2
    exact ⟨r :: rs, by rw [castEach, first, rest]; rfl⟩

theorem castTapes_of_over (target source : ExpressionSet) {targets sources : List LabelSet}
    (labels' : target.labels = .tuple targets) (labels : source.labels = .tuple sources) (i : Nat)
    (es : List (Exp K)) (shapes : LabelSet.sameShapes (sources.drop i) (targets.drop i) = true)
    (received : LabelSet.ReceivesEach (targets.drop i) (sources.drop i))
    (overs : Exp.TapesOver P es (sources.drop i)) :
    ∃ rs, castTapes weight target source i es = .ok rs ∧ rs.length = (targets.drop i).length := by
  match es, here : sources.drop i, here' : targets.drop i with
  | [], _ :: _, _ => rw [here] at overs; cases overs
  | [], [], _ :: _ => rw [here, here'] at shapes; cases shapes
  | [], [], [] => exact ⟨[], rfl, rfl⟩
  | _ :: _, [], _ => rw [here] at overs; cases overs
  | _ :: _, _ :: _, [] => rw [here, here'] at shapes; cases shapes
  | e :: es, tape :: rest, tape' :: rest' =>
    rw [here, here'] at shapes received
    rw [here] at overs
    obtain ⟨shape, shapes⟩ := Bool.and_eq_true_iff.mp shapes
    obtain ⟨present, after⟩ := tape?_of_drop labels here
    obtain ⟨present', after'⟩ := tape?_of_drop labels' here'
    obtain ⟨r, first⟩ := castExp_of_over { target with labels := tape' }
      { source with labels := tape } e shape received.1 overs.1
    obtain ⟨rs, others, long⟩ := castTapes_of_over target source labels' labels (i + 1) es
      (by rwa [after, after']) (by rw [after, after']; exact received.2)
      (by rw [after]; exact overs.2)
    refine ⟨r :: rs, ?_, ?_⟩
    · rw [castTapes, present, present']
      dsimp only
      rw [first, others]
      rfl
    · rw [List.length_cons, long, after', List.length_cons]

end

end ExpressionSet

/-! ### Weights -/

namespace WeightSet

open ExpressionSet (castExp)

/-- The weights of a set. Those of an expression set are what its operations build. -/
def Holds : WeightSet → AnyWeight → Prop
  | expressions s inner, w =>
    ∃ e, w = .expression e ∧ @ExpressionSet.Makes AnyWeight inner.anyWeights inner.Holds s e
  | ws, w => ws.contains w = true

/-- Whether the weights are numbers. -/
def isNumber : WeightSet → Bool
  | expressions _ _ => false
  | _ => true

/-- Whether no alphabet and no tuple of labels inside is empty. -/
def Populated : WeightSet → Prop
  | expressions s inner =>
    s.labels.AllAlphabets Alphabet.Populated ∧ (s.labels.Lists fun _ => True) ∧ inner.Populated
  | _ => True

/-- Whether the weights of `source` can be built anew in `target`: expressions need labels of one
shape that the target receives, they keep their complements only over Boolean weights, and their
weights have to be carried in turn. -/
def Carries : (target source : WeightSet) → Prop
  | expressions s inner, expressions s' inner' =>
    expressions s' inner' = expressions s inner ∨
      s'.labels.sameShape s.labels = true ∧ s.labels.Receives s'.labels ∧
      (inner' = boolean → inner = boolean) ∧ inner.Carries inner'
  | target, source => source.embedsInto target = true

variable {target source ws : WeightSet} {v w : AnyWeight}

theorem take?_hold (ws : WeightSet) (x : ws.Carrier) : ws.take? (ws.hold x) = some x := by
  cases ws with
  | tropical e => cases x <;> rfl
  | _ => rfl

theorem contains_hold (ws : WeightSet) (x : ws.Carrier) : ws.contains (ws.hold x) = true := by
  rw [contains, take?_hold]
  rfl

theorem contains_of_holds (held : ws.Holds w) : ws.contains w = true := by
  cases ws with
  | expressions =>
    obtain ⟨e, rfl, _⟩ := held
    rfl
  | _ => exact held

theorem isBoolean_iff : Weights.isBoolean ws.Carrier = true ↔ ws = .boolean := by
  cases ws with
  | boolean => exact iff_of_true rfl rfl
  | _ => exact iff_of_false Bool.false_ne_true nofun

theorem contains_combine {op : ws.Carrier → ws.Carrier → ws.Carrier}
    (left : ws.contains v = true) (right : ws.contains w = true) :
    ws.contains (((ws.take? v).bind fun x => (ws.take? w).map fun y => ws.hold (op x y)).getD v) =
      true := by
  obtain ⟨x, first⟩ := Option.isSome_iff_exists.mp left
  obtain ⟨y, second⟩ := Option.isSome_iff_exists.mp right
  rw [first, second]
  exact contains_hold ws _

theorem stable_contains (ws : WeightSet) :
    @Weights.Stable AnyWeight ws.anyWeights fun w => ws.contains w = true :=
  @Weights.Stable.mk _ ws.anyWeights _ (contains_hold ws _) (contains_hold ws _) contains_combine
    contains_combine

/-- Sums and products of weights of a set are weights of the set. -/
theorem stable_holds (ws : WeightSet) : @Weights.Stable AnyWeight ws.anyWeights ws.Holds := by
  cases ws with
  | expressions s inner =>
    let _ := inner.anyWeights
    refine @Weights.Stable.mk _ (expressions s inner).anyWeights _ ⟨_, rfl, .zero⟩ ⟨_, rfl, .one⟩
      ?_ ?_
    · rintro v w ⟨e, rfl, left⟩ ⟨f, rfl, right⟩
      exact ⟨_, rfl, .add left right⟩
    · rintro v w ⟨e, rfl, left⟩ ⟨f, rfl, right⟩
      exact ⟨_, rfl, .mul left right⟩
  | boolean | integer | rational | real | tropical => exact stable_contains _

/-! ### Casts -/

variable {s s' : ExpressionSet} {inner inner' : WeightSet} {n : Scalar} {e : Exp AnyWeight}

theorem castAny_self (ws : WeightSet) (w : AnyWeight) : ws.castAny ws w = .ok w := by
  cases ws <;> cases w <;> exact if_pos rfl

theorem castAny_expression (other : expressions s' inner' ≠ expressions s inner) :
    (expressions s inner).castAny (expressions s' inner') (.expression e) =
      .expression <$>
        @castExp _ _ inner'.anyWeights inner.anyWeights (inner.castAny inner') s s' e := by
  rw [castAny, if_neg other]

theorem castAny_scalar (other : source ≠ expressions s inner) :
    (expressions s inner).castAny source (.scalar n) = (do
      let w ← inner.castAny source (.scalar n)
      return .expression (@ExpressionSet.lweight _ inner.anyWeights s w .one)) := by
  rw [castAny, if_neg other]
  nofun

theorem castAny_number (number : target.isNumber = true) (other : source ≠ target) :
    target.castAny source w =
      match w with
      | .scalar n =>
        match target.castScalar? n with
        | some n => .ok (.scalar n)
        | none => .error (.incompatible target.text source.text)
      | .expression _ => .error (.incompatible target.text source.text) := by
  cases target with
  | expressions => cases number
  | _ => cases w <;> exact if_neg other

/-- The image of a weight is a weight of the target. -/
theorem contains_of_castAny (held : source.contains w = true)
    (done : target.castAny source w = .ok v) : target.contains v = true := by
  by_cases same : source = target
  · subst same
    rw [castAny_self] at done
    cases done
    exact held
  cases target with
  | expressions s inner =>
    cases w with
    | scalar n =>
      rw [castAny_scalar same] at done
      obtain ⟨_, _, done⟩ := Result.bind_eq_ok.mp done
      cases done
      rfl
    | expression e =>
      cases source with
      | expressions s' inner' =>
        rw [castAny_expression same] at done
        obtain ⟨_, _, done⟩ := Result.bind_eq_ok.mp done
        cases done
        rfl
      | _ => cases held
  | _ =>
    rw [castAny_number rfl same] at done
    cases w with
    | expression => cases done
    | scalar n =>
      cases n <;> first | cases done; rfl | cases done

theorem scalar_of_contains (number : ws.isNumber = true) (held : ws.contains w = true) :
    ∃ n, w = .scalar n := by
  cases w with
  | scalar n => exact ⟨n, rfl⟩
  | expression e =>
    cases ws with
    | expressions => cases number
    | _ => cases held

/-- Along the chain of the Boolean, integer, rational and real numbers. -/
theorem castAny_number_of_embedsInto (number : source.isNumber = true)
    (number' : target.isNumber = true) (embedded : source.embedsInto target = true)
    (held : source.contains w = true) : ∃ v, target.castAny source w = .ok v := by
  by_cases same : source = target
  · subst same
    exact ⟨w, castAny_self source w⟩
  obtain ⟨n, rfl⟩ := scalar_of_contains number held
  have carried : ∃ n', target.castScalar? n = some n' := by
    cases target with
    | expressions => cases number'
    | tropical e =>
      have nowhere : source.embedsInto (.tropical e) = false := by
        change (source.join (.tropical e) == some (.tropical e)) = false
        rw [join, if_neg same]
        cases source <;> rfl
      exact absurd embedded (nowhere ▸ Bool.false_ne_true)
    | boolean | integer | rational | real =>
      cases source with
      | expressions => cases number
      | tropical => exact absurd embedded Bool.false_ne_true
      | boolean | integer | rational | real =>
        first
          | exact absurd embedded Bool.false_ne_true
          | exact absurd rfl same
          | cases n <;> first | exact ⟨_, rfl⟩ | exact absurd held Bool.false_ne_true
  obtain ⟨n', carried⟩ := carried
  refine ⟨.scalar n', ?_⟩
  rw [castAny_number number' same]
  dsimp only
  rw [carried]

/-- Numbers are carried wherever they embed. -/
theorem castAny_of_embedsInto (number : source.isNumber = true)
    (embedded : source.embedsInto target = true) (held : source.contains w = true) :
    ∃ v, target.castAny source w = .ok v := by
  induction target with
  | expressions s inner ih =>
    have other : source ≠ expressions s inner := by
      rintro rfl
      cases number
    have further : source.embedsInto inner = true := by
      have differ : (source == expressions s inner) = false := beq_eq_false_iff_ne.mpr other
      rwa [embedsInto, differ, Bool.false_or] at embedded
    obtain ⟨v, done⟩ := ih further
    obtain ⟨n, rfl⟩ := scalar_of_contains number held
    exact ⟨_, by rw [castAny_scalar other, done]; rfl⟩
  | _ => exact castAny_number_of_embedsInto number rfl embedded held

/-- Whatever the operations of a set build from carried weights is carried. -/
theorem castAny_of_carries (carries : target.Carries source) (held : source.Holds w) :
    ∃ v, target.castAny source w = .ok v := by
  induction target generalizing source w with
  | expressions s inner ih =>
    cases source with
    | expressions s' inner' =>
      obtain ⟨e, rfl, made⟩ := held
      by_cases same : expressions s' inner' = expressions s inner
      · exact ⟨.expression e, by rw [same, castAny_self]⟩
      obtain ⟨shape, received, boolean, further⟩ := carries.resolve_left same
      have lies := @ExpressionSet.Makes.over _ inner'.anyWeights _ _ _ (stable_holds inner') made
      obtain ⟨r, done⟩ := @ExpressionSet.castExp_of_over _ _ inner'.anyWeights inner.anyWeights
        (inner.castAny inner') inner'.Holds (fun w held => ih further held)
        (fun complements => isBoolean_iff.mpr (boolean (isBoolean_iff.mp complements))) s s' e shape
        received lies
      exact ⟨.expression r, by rw [castAny_expression same, done]; rfl⟩
    | _ => exact castAny_of_embedsInto rfl carries held
  | _ =>
    cases source with
    | expressions => exact absurd carries Bool.false_ne_true
    | _ => exact castAny_number_of_embedsInto rfl rfl carries held

theorem embedsInto_self (ws : WeightSet) : ws.embedsInto ws = true := by
  cases ws <;> simp [embedsInto, join]

/-- What the expressions of a set embed into, their weights embed into. -/
theorem embedsInto_of_expressions
    (embedded : (expressions s inner).embedsInto target = true) :
    inner.embedsInto target = true := by
  induction target with
  | expressions s' inner' ih =>
    rw [embedsInto, Bool.or_eq_true] at embedded ⊢
    right
    rcases embedded with same | further
    · cases eq_of_beq same
      exact embedsInto_self inner
    · exact ih further
  | _ => exact absurd embedded Bool.false_ne_true

/-- Three kinds of expressions tell whether all of them are carried: letters, the complement of one,
and one with a weight. -/
theorem carries_of_castAny (embedded : source.embedsInto target = true)
    (populated : source.Populated)
    (casts : ∀ w, source.Holds w → w.isZero = false → w.isOne = false →
      ∃ v, target.castAny source w = .ok v) : target.Carries source := by
  induction target generalizing source with
  | expressions s inner ih =>
    cases source with
    | expressions s' inner' =>
      by_cases same : expressions s' inner' = expressions s inner
      · exact .inl same
      let _ := inner'.anyWeights
      have build (e : Exp AnyWeight) (made : s'.Makes inner'.Holds e) (zero : e.isZero = false)
          (one : e.isOne = false) :
          ∃ r, @castExp _ _ _ inner.anyWeights (inner.castAny inner') s s' e = .ok r := by
        obtain ⟨v, done⟩ := casts (.expression e) ⟨e, rfl, made⟩ zero one
        rw [castAny_expression same] at done
        obtain ⟨r, done, _⟩ := Result.bind_eq_ok.mp done
        exact ⟨r, done⟩
      have labels := LabelSet.receives_of_cast populated.1 populated.2.1 fun l member reads => by
        have atom : (s'.atom l : Exp AnyWeight) = .atom l := if_neg (by rw [reads]; nofun)
        obtain ⟨r, done⟩ := build (.atom l) (atom ▸ .atom member) rfl rfl
        exact @ExpressionSet.cast_of_castExp_atom _ _ _ inner.anyWeights _ _ _ _ _ done
      have complement : inner' = boolean → inner = boolean := by
        rintro rfl
        have built : s'.complement (.one : Exp AnyWeight) = .ok (.complement .one) := rfl
        obtain ⟨r, done⟩ := build (.complement .one) (.complement .one built) rfl rfl
        exact isBoolean_iff.mp
          (@ExpressionSet.isBoolean_of_castExp_complement _ _ _ inner.anyWeights _ _ _ _ done)
      have further : inner'.embedsInto inner = true := by
        have differ : (expressions s' inner' == expressions s inner) = false :=
          beq_eq_false_iff_ne.mpr same
        rw [embedsInto, differ, Bool.false_or] at embedded
        exact embedsInto_of_expressions embedded
      refine .inr ⟨labels.1, labels.2, complement, ?_⟩
      refine ih further populated.2.2 fun w held zero one => ?_
      have weighted := @ExpressionSet.lweight_one _ inner'.anyWeights s' w zero one
      obtain ⟨r, done⟩ := build (.lweight w .one) (weighted ▸ .lweight held .one) rfl rfl
      exact @ExpressionSet.weight_of_castExp_lweight _ _ _ inner.anyWeights _ _ _ _ _ done
    | _ => exact embedded
  | _ =>
    cases source with
    | expressions => exact absurd embedded Bool.false_ne_true
    | _ => exact embedded

/-- What weights of a set that embeds in another are carried to is in the other set. Numbers are all
carried. Expressions are if the target receives their labels, has complements where they have some,
and carries the weights inside; where no alphabet is empty, only then. -/
theorem castAny_spec (embedded : source.embedsInto target = true) :
    (∀ w v, source.Holds w → target.castAny source w = .ok v → target.contains v = true) ∧
    (target.Carries source → ∀ w, source.Holds w → ∃ v, target.castAny source w = .ok v) ∧
    (source.Populated → (∀ w, source.Holds w → ∃ v, target.castAny source w = .ok v) →
      target.Carries source) ∧
    (source.isNumber = true ∨ source = target → target.Carries source) := by
  refine ⟨fun w v held done => ?_, fun carries w held => ?_, fun populated casts => ?_,
    fun plain => ?_⟩
  · exact contains_of_castAny (contains_of_holds held) done
  · exact castAny_of_carries carries held
  · exact carries_of_castAny embedded populated fun w held _ _ => casts w held
  · rcases plain with number | rfl
    · cases source with
      | expressions => cases number
      | _ => cases target <;> exact embedded
    · cases source with
      | expressions => exact .inl rfl
      | _ => exact embedded

theorem castAny_spec_of_larger_alphabet :
    let source := expressions ⟨.letters (.ofLetters false ['x']), .linear⟩ integer
    let target := expressions ⟨.letters (.ofLetters false ['x', 'y']), .linear⟩ source
    source.embedsInto target = true ∧ target.Carries source ∧ ∀ w, source.Holds w →
      ∃ v, target.castAny source w = .ok v ∧ target.contains v = true := by
  intro source target
  have embedded : source.embedsInto target = true := by decide
  have letters : ∀ c, (Alphabet.ofLetters false ['x']).accepts c = true →
      (Alphabet.ofLetters false ['x', 'y']).accepts c = true :=
    fun c => Alphabet.accepts_of_isSubset (by decide)
  have weights : integer.embedsInto source = true := by decide
  have carries : target.Carries source := .inr ⟨rfl, letters, nofun, weights⟩
  obtain ⟨contained, carried, _⟩ := castAny_spec embedded
  refine ⟨embedded, carries, fun w held => ?_⟩
  obtain ⟨v, done⟩ := carried carries w held
  exact ⟨v, done, contained w v held done⟩

/-- A letter that is a weight is no letter of the outer expressions. -/
theorem castAny_of_other_alphabet :
    let source := expressions ⟨.letters (.ofLetters false ['x', 'y']), .linear⟩ boolean
    let target := expressions ⟨.letters (.ofLetters false ['a', 'b']), .linear⟩ source
    let w := AnyWeight.expression (.atom (.letter 'x'))
    source.embedsInto target = true ∧ source.Holds w ∧
      target.castAny source w =
        .error (.badLabel "x" "not a label of letterset<char_letters(ab)>") := by
  intro source target w
  refine ⟨by decide, ⟨_, rfl, ?_⟩, by rfl⟩
  exact @ExpressionSet.Makes.atom _ boolean.anyWeights _ _ (.letter 'x') rfl

end WeightSet

end WeightedAutomata
