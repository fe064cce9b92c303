import WeightedAutomata.Text.Cursor

/-! What readers make of a text whose beginning is known. -/

namespace WeightedAutomata.Text.Reader

variable {α β : Type} {fails strays : Bool} {x : Reader α} {f : α → Reader β}
variable {cs mid rest : List Char} {P : α → Prop} {Q : β → Prop}

/-- The outcome of a reader that is to leave `rest` with a value in `P`. Where it `fails`, it may
also end with an error, and where it `strays`, at a bar. -/
inductive Ends (fails strays : Bool) (rest : List Char) (P : α → Prop) :
    EStateM.Result Error Cursor α → Prop where
  | ok {v : α} {stop : Nat} (value : P v) : Ends fails strays rest P (.ok v ⟨stop, rest⟩)
  | failed {e : Error} {c : Cursor} (may : fails = true) : Ends fails strays rest P (.error e c)
  | strayed {v : α} {stop : Nat} {tail : List Char} (may : strays = true) :
    Ends fails strays rest P (.ok v ⟨stop, '|' :: tail⟩)

/-- From anywhere, the reader takes the text `cs` up to `rest`. -/
def Reads (fails strays : Bool) (x : Reader α) (cs rest : List Char) (P : α → Prop) : Prop :=
  ∀ pos, Ends fails strays rest P (x ⟨pos, cs⟩)

theorem bind_ok {v : α} {c d : Cursor} (read : x c = .ok v d) : (x >>= f) c = f v d := by
  change EStateM.bind x f c = f v d
  rw [EStateM.bind, read]

theorem bind_error {e : Error} {c d : Cursor} (read : x c = .error e d) :
    (x >>= f) c = .error e d := by
  change EStateM.bind x f c = .error e d
  rw [EStateM.bind, read]

theorem exists_of_bind_ok {w : β} {c e : Cursor} (read : (x >>= f) c = .ok w e) :
    ∃ v d, x c = .ok v d ∧ f v d = .ok w e := by
  cases first : x c with
  | ok v d => exact ⟨v, d, rfl, (bind_ok first).symm.trans read⟩
  | error e d =>
    rw [bind_error first] at read
    cases read

theorem bind_congr {y : Reader α} {c d : Cursor} (same : x c = y d) :
    (x >>= f) c = (y >>= f) d := by
  change EStateM.bind x f c = EStateM.bind y f d
  rw [EStateM.bind, same]
  rfl

/-- Whatever is read lies in `P`. -/
structure Yields (x : Reader α) (P : α → Prop) : Prop where
  value {c d : Cursor} {v : α} : x c = .ok v d → P v

theorem Yields.bind (first : Yields x P) (next : ∀ v, P v → Yields (f v) Q) :
    Yields (x >>= f) Q := by
  constructor
  intro c d w read
  obtain ⟨v, stop, start, finish⟩ := exists_of_bind_ok read
  exact (next v (first.value start)).value finish

/-- Where it does not matter what the first reader reads. -/
theorem Yields.after (next : ∀ v, Yields (f v) Q) : Yields (x >>= f) Q := by
  have any : Yields x fun _ => True := ⟨fun _ => trivial⟩
  exact any.bind fun v _ => next v

theorem Yields.pure {v : α} (value : P v) : Yields (Pure.pure v) P := by
  constructor
  intro c d w read
  cases read
  exact value

theorem Yields.lift {result : Result α} (value : ∀ v, result = .ok v → P v) :
    Yields (lift result) P := by
  constructor
  intro c d v read
  cases result with
  | ok w =>
    cases read
    exact value v rfl
  | error e => cases read

theorem yields_throw (e : Error) : Yields (throw e) P := ⟨nofun⟩

theorem yields_failHere (message : String) : Yields (failHere message) P := ⟨nofun⟩

theorem yields_failSince (start : Nat) (message : String) :
    Yields (failSince start message) P := ⟨nofun⟩

/-- What a reader makes of a whole text. -/
theorem Yields.parse {v : α} (yields : Yields x P) (read : parse x cs = .ok v) : P v := by
  unfold Reader.parse at read
  split at read
  · rename_i w c done
    cases read
    exact yields.value done
  · cases read

/-- Two readers one after the other, where the second makes the best of a bar. -/
theorem Reads.bind_of_strays {wanders : Bool} (first : Reads fails wanders x cs mid P)
    (next : ∀ v, P v → Reads fails strays (f v) mid rest Q)
    (bar : wanders = true → ∀ v tail, Reads fails strays (f v) ('|' :: tail) rest Q) :
    Reads fails strays (x >>= f) cs rest Q := by
  intro pos
  have outcome := first pos
  cases read : x ⟨pos, cs⟩ with
  | error e c =>
    rw [bind_error read]
    rw [read] at outcome
    cases outcome with
    | failed may => exact .failed may
  | ok v c =>
    rw [bind_ok read]
    rw [read] at outcome
    cases outcome with
    | ok value => exact next v value _
    | strayed may => exact bar may v _ _

theorem Reads.bind (first : Reads fails false x cs mid P)
    (next : ∀ v, P v → Reads fails strays (f v) mid rest Q) :
    Reads fails strays (x >>= f) cs rest Q :=
  first.bind_of_strays next fun may => absurd may Bool.false_ne_true

theorem Reads.imp {Q : α → Prop} (reads : Reads fails strays x cs rest P)
    (implies : ∀ v, P v → Q v) : Reads fails strays x cs rest Q := by
  intro pos
  generalize outcome : x ⟨pos, cs⟩ = result
  have ends := reads pos
  rw [outcome] at ends
  cases ends with
  | ok value => exact .ok (implies _ value)
  | failed may => exact .failed may
  | strayed may => exact .strayed may

/-- The ends of a reader that does not stray. -/
theorem Reads.cases (reads : Reads fails false x cs rest P) (pos : Nat) :
    (∃ v stop, x ⟨pos, cs⟩ = .ok v ⟨stop, rest⟩ ∧ P v) ∨
      fails = true ∧ ∃ e c, x ⟨pos, cs⟩ = .error e c := by
  have outcome := reads pos
  cases read : x ⟨pos, cs⟩ with
  | error e c =>
    rw [read] at outcome
    cases outcome with
    | failed may => exact .inr ⟨may, e, c, rfl⟩
  | ok v c =>
    rw [read] at outcome
    cases outcome with
    | ok value => exact .inl ⟨v, _, rfl, value⟩
    | strayed may => cases may

theorem Reads.stray (reads : Reads fails false x cs rest P) : Reads fails strays x cs rest P := by
  intro pos
  rcases reads.cases pos with ⟨v, stop, done, value⟩ | ⟨may, e, c, failed⟩
  · rw [done]
    exact .ok value
  · rw [failed]
    exact .failed may

/-- A reader that ends at a bar has strayed from any other end. -/
theorem Reads.at_bar {tail : List Char} {Q : α → Prop}
    (reads : Reads fails false x cs ('|' :: tail) P) : Reads fails true x cs rest Q := by
  intro pos
  rcases reads.cases pos with ⟨v, stop, done, _⟩ | ⟨may, e, c, failed⟩
  · rw [done]
    exact .strayed rfl
  · rw [failed]
    exact .failed may

/-- A reader that cannot have a value fails. -/
theorem Reads.error (reads : Reads fails false x cs rest fun _ => False) (pos : Nat) :
    ∃ e c, x ⟨pos, cs⟩ = .error e c := by
  rcases reads.cases pos with ⟨_, _, _, impossible⟩ | ⟨_, failed⟩
  · exact impossible.elim
  · exact failed

theorem Reads.of_error (refused : ∀ pos, ∃ e c, x ⟨pos, cs⟩ = .error e c) :
    Reads true strays x cs rest P := by
  intro pos
  obtain ⟨e, c, error⟩ := refused pos
  rw [error]
  exact .failed rfl

/-- A reader that may not fail. -/
theorem Reads.value (reads : Reads false false x cs rest P) (pos : Nat) :
    ∃ v stop, x ⟨pos, cs⟩ = .ok v ⟨stop, rest⟩ ∧ P v :=
  (reads.cases pos).resolve_right fun failed => Bool.false_ne_true failed.1

/-- Reading whole texts. -/
theorem Reads.parse_ok (reads : Reads false false x cs rest P) :
    ∃ v, parse x cs = .ok v ∧ P v := by
  obtain ⟨v, stop, done, value⟩ := reads.value 0
  have whole : x (Cursor.ofText cs) = .ok v ⟨stop, rest⟩ := done
  refine ⟨v, ?_, value⟩
  rw [parse, whole]

theorem Reads.parse_error (reads : Reads fails false x cs rest fun _ => False) :
    ∃ e, parse x cs = .error e := by
  obtain ⟨e, stop, failed⟩ := reads.error 0
  have whole : x (Cursor.ofText cs) = .error e stop := failed
  refine ⟨e, ?_⟩
  rw [parse, whole]

theorem Reads.pure {v : α} (value : P v) : Reads fails strays (Pure.pure v) rest rest P :=
  fun _ => .ok value

/-- A computation that may fail only where failing is allowed. -/
theorem Reads.lift {result : Result α} (value : ∀ v, result = .ok v → P v)
    (done : fails = false → ∃ v, result = .ok v) :
    Reads fails strays (lift result) rest rest P := by
  intro pos
  cases result with
  | ok v => exact .ok (value v rfl)
  | error e =>
    apply Ends.failed
    cases fails with
    | true => rfl
    | false =>
      obtain ⟨v, impossible⟩ := done rfl
      cases impossible

/-! ### Blanks -/

/-- Whether no blank stands in front. -/
def Solid (cs : List Char) : Prop := ∀ c ∈ cs.head?, isBlank c = false

theorem skipBlanks_of_solid (solid : Solid cs) (pos : Nat) :
    skipBlanks ⟨pos, cs⟩ = .ok () ⟨pos, cs⟩ := by
  have none : cs.takeWhile isBlank = [] := by
    cases cs with
    | nil => rfl
    | cons c cs => exact List.takeWhile_cons_of_neg (by simp [solid c rfl])
  change EStateM.Result.ok () (Cursor.advance ⟨pos, cs⟩ (cs.takeWhile isBlank).length) = _
  rw [none]
  rfl

theorem skipBlanks_bind (solid : Solid cs) (x : Reader α) (pos : Nat) :
    (do skipBlanks; x) ⟨pos, cs⟩ = x ⟨pos, cs⟩ :=
  bind_ok (skipBlanks_of_solid solid pos)

theorem expect_cons {c : Char} (solid : isBlank c = false) (pos : Nat) (cs : List Char) :
    expect c ⟨pos, c :: cs⟩ = .ok () ⟨pos + 1, cs⟩ := by
  have front : Solid (c :: cs) := fun d same => Option.some.inj same ▸ solid
  unfold expect
  rw [skipBlanks_bind front]
  change (if c = c then advance 1 else _ : Reader Unit) ⟨pos, c :: cs⟩ = _
  rw [if_pos rfl]
  rfl

/-- What stands in front is not the character. -/
theorem expect_error {c : Char} (solid : Solid cs) (other : c ∉ cs.head?) (pos : Nat) :
    ∃ e d, expect c ⟨pos, cs⟩ = .error e d := by
  unfold expect
  rw [skipBlanks_bind solid]
  cases cs with
  | nil => exact ⟨_, _, rfl⟩
  | cons d cs =>
    have differ : d ≠ c := fun same => other (congrArg some same)
    change ∃ e d', (if d = c then advance 1 else _ : Reader Unit) ⟨pos, d :: cs⟩ = .error e d'
    rw [if_neg differ]
    exact ⟨_, _, rfl⟩

/-! ### Delimiters -/

/-- A stretch without the signs ends at the closing one. -/
theorem splitDelimited_append {opening closing : Char} (differ : closing ≠ opening)
    (escape : closing ≠ '\\') {body : List Char}
    (plain : ∀ c ∈ body, c ≠ opening ∧ c ≠ closing ∧ c ≠ '\\') (rest : List Char) :
    splitDelimited opening closing (body ++ closing :: rest) 0 = some (body, rest) := by
  induction body with
  | nil =>
    rw [List.nil_append, splitDelimited.eq_3 _ _ _ _ (by simp [escape])]
    rw [if_neg differ, if_pos rfl]
  | cons c body ih =>
    obtain ⟨first, others⟩ := List.forall_mem_cons.mp plain
    rw [List.cons_append, splitDelimited.eq_3 _ _ _ _ (by simp [first.2.2])]
    rw [if_neg first.1, if_neg first.2.1, ih others]
    rfl

theorem delimited_append {opening closing : Char} (differ : closing ≠ opening)
    (escape : closing ≠ '\\') {body : List Char}
    (plain : ∀ c ∈ body, c ≠ opening ∧ c ≠ closing ∧ c ≠ '\\') (pos : Nat) (rest : List Char) :
    delimited opening closing ⟨pos, body ++ closing :: rest⟩ =
      .ok body ⟨pos + body.length + 1, rest⟩ := by
  unfold delimited
  rw [splitDelimited_append differ escape plain]

/-! ### Loops -/

/-- The reader takes the text `cs` up to `rest`, from where it goes on like `loop`. -/
def Continues (fails : Bool) (x : Reader β) (loop : Nat → α → Reader β) (cs rest : List Char)
    (P : α → Prop) : Prop :=
  ∀ pos, (∃ v stop n, P v ∧ rest.length ≤ n ∧ x ⟨pos, cs⟩ = loop n v ⟨stop, rest⟩) ∨
    fails = true ∧ ∃ e c, x ⟨pos, cs⟩ = .error e c

/-- A reader with a loop after it. -/
theorem Reads.continues {loop : Nat → α → Reader β} (reads : Reads fails false x cs rest P) :
    Continues fails (do let v ← x; loop (← get).rest.length v) loop cs rest P := by
  intro pos
  rcases reads.cases pos with ⟨v, stop, done, value⟩ | ⟨may, e, c, failed⟩
  · exact .inl ⟨v, stop, rest.length, value, Nat.le_refl _, bind_ok done⟩
  · exact .inr ⟨may, e, c, bind_error failed⟩

/-- A reader with a loop after it that stops at once. -/
theorem Reads.then_stop {loop : α → Reader α} (reads : Reads fails false x cs rest P)
    (stops : ∀ v pos, loop v ⟨pos, rest⟩ = .ok v ⟨pos, rest⟩) :
    Reads fails strays (x >>= loop) cs rest P := by
  apply reads.bind
  intro v value pos
  rw [stops]
  exact .ok value

/-- A loop that stops at `rest`. -/
theorem Continues.reads {x : Reader α} {loop : Nat → α → Reader α}
    (continues : Continues fails x loop cs rest P)
    (stops : ∀ n v pos, loop n v ⟨pos, rest⟩ = .ok v ⟨pos, rest⟩) :
    Reads fails strays x cs rest P := by
  intro pos
  rcases continues pos with ⟨v, stop, n, value, _, same⟩ | ⟨may, e, c, same⟩
  · rw [same, stops]
    exact .ok value
  · rw [same]
    exact .failed may

/-- One more round of a loop, or its end. -/
theorem Continues.step {x : Reader β} {loop : Nat → α → Reader β} {P' : α → Prop}
    (continues : Continues fails x loop cs mid P) (shorter : rest.length < mid.length)
    (round : ∀ n v pos, P v → mid.length ≤ n + 1 →
      (∃ w stop m, P' w ∧ rest.length ≤ m ∧ loop (n + 1) v ⟨pos, mid⟩ = loop m w ⟨stop, rest⟩) ∨
        fails = true ∧ ∃ e c, loop (n + 1) v ⟨pos, mid⟩ = .error e c) :
    Continues fails x loop cs rest P' := by
  intro pos
  rcases continues pos with ⟨v, stop, n, value, enough, same⟩ | failed
  · rw [same]
    cases n with
    | zero => omega
    | succ n => exact round n v stop value enough
  · exact .inr failed

end WeightedAutomata.Text.Reader
