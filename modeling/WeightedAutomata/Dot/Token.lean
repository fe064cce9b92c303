import WeightedAutomata.Error
import WeightedAutomata.Text.Cursor

/-!
The tokens of graph descriptions. Blanks and comments separate them; places count bytes.
-/

namespace WeightedAutomata.Dot

inductive Token where
  /-- A name or a number. -/
  | identifier (text : List Char)
  /-- A text that was quoted. -/
  | quoted (text : List Char)
  | arrow
  | sign (c : Char)
  deriving DecidableEq, Repr

/-- The text of an identifier or a string. -/
def Token.name? : Token → Option (List Char)
  | identifier text | quoted text => some text
  | _ => none

/-- A token and its place. -/
structure Lexeme where
  token : Token
  span : Span
  deriving DecidableEq, Repr

/-- The characters of identifiers. -/
def isNameChar (c : Char) : Bool := c.isAlphanum || c == '_' || c == '.'

/-- The characters that separate tokens. -/
def isGap (c : Char) : Bool := c == ' ' || c == '\t' || c == '\r' || c == '\n'

/-- The characters that are tokens by themselves. -/
def signs : List Char := ['\x7b', '\x7d', '[', ']', '=', ';', ',']

/-- The number of bytes of a text. -/
def byteCount : List Char → Nat
  | [] => 0
  | c :: cs => c.utf8Size + byteCount cs

/-- What follows the end of a comment. -/
def afterComment : List Char → Option (List Char)
  | [] => none
  | '*' :: '/' :: rest => some rest
  | _ :: rest => afterComment rest

/-- Splits a string at its closing quote. A backslash stands for itself unless a quote or another
backslash follows. -/
def quotedBody : List Char → Option (List Char × List Char)
  | [] => none
  | '"' :: rest => some ([], rest)
  | '\\' :: c :: rest =>
    (quotedBody rest).map fun (body, after) =>
      (if c = '"' ∨ c = '\\' then c :: body else '\\' :: c :: body, after)
  | c :: rest => (quotedBody rest).map fun (body, after) => (c :: body, after)

/-- Takes a token, or what separates tokens, off the front of the text `c :: rest`, which starts at
the place `start` of a text of `total` bytes. -/
def step (start total : Nat) (c : Char) (rest : List Char) : Result (Option Token × List Char) :=
  match c, rest with
  | '#', rest => .ok (none, rest.dropWhile (· != '\n'))
  | '/', '/' :: rest => .ok (none, rest.dropWhile (· != '\n'))
  | '/', '*' :: rest =>
    match afterComment rest with
    | some rest => .ok (none, rest)
    | none => .error (.malformed ⟨start, total⟩ "unterminated comment")
  | '-', '>' :: rest => .ok (some .arrow, rest)
  | '"', rest =>
    match quotedBody rest with
    | some (body, rest) => .ok (some (.quoted body), rest)
    | none => .error (.malformed ⟨start, total⟩ "unterminated string")
  | c, rest =>
    if isGap c then .ok (none, rest)
    else if signs.contains c then .ok (some (.sign c), rest)
    else if isNameChar c then
      .ok (some (.identifier (c :: rest.takeWhile isNameChar)), rest.dropWhile isNameChar)
    else .error (.malformed ⟨start, start + c.utf8Size⟩ (Text.Reader.unexpectedText c))

theorem length_dropWhile_le (p : Char → Bool) (cs : List Char) :
    (cs.dropWhile p).length ≤ cs.length := (List.dropWhile_suffix p).length_le

theorem length_of_afterComment {cs rest : List Char} (found : afterComment cs = some rest) :
    rest.length ≤ cs.length := by
  fun_induction afterComment cs with
  | case1 => simp at found
  | case2 rest' => cases found; simp; omega
  | case3 _ _ _ ih => have := ih found; simp; omega

theorem length_of_quotedBody {cs body rest : List Char} (found : quotedBody cs = some (body, rest)) :
    rest.length ≤ cs.length := by
  fun_induction quotedBody cs generalizing body with
  | case1 => simp at found
  | case2 rest' => cases found; simp
  | case3 c rest' ih =>
    obtain ⟨⟨body', rest''⟩, inner, same⟩ := Option.map_eq_some_iff.mp found
    cases same
    have := ih inner
    simp
    omega
  | case4 c rest' _ _ ih =>
    obtain ⟨⟨body', rest''⟩, inner, same⟩ := Option.map_eq_some_iff.mp found
    cases same
    have := ih inner
    simp
    omega

theorem length_of_step {start total : Nat} {c : Char} {cs rest : List Char} {token? : Option Token}
    (taken : step start total c cs = .ok (token?, rest)) : rest.length ≤ cs.length := by
  unfold step at taken
  split at taken
  · cases taken
    exact length_dropWhile_le _ _
  · cases taken
    have := length_dropWhile_le (· != '\n') ‹List Char›
    simp only [List.length_cons]
    omega
  · split at taken
    · next found =>
      cases taken
      have := length_of_afterComment found
      simp only [List.length_cons]
      omega
    · cases taken
  · cases taken
    simp
  · split at taken
    · next found =>
      cases taken
      exact length_of_quotedBody found
    · cases taken
  · split at taken
    · cases taken
      exact Nat.le_refl _
    · split at taken
      · cases taken
        exact Nat.le_refl _
      · split at taken
        · cases taken
          exact length_dropWhile_le _ _
        · cases taken

/-- The tokens of what is left of a text of `total` bytes. -/
def tokenizeRest (total : Nat) : List Char → Result (List Lexeme)
  | [] => .ok []
  | c :: cs =>
    let start := total - byteCount (c :: cs)
    match _taken : step start total c cs with
    | .error e => .error e
    | .ok (token?, rest) => do
      let lexemes ← tokenizeRest total rest
      match token? with
      | some token => return ⟨token, ⟨start, total - byteCount rest⟩⟩ :: lexemes
      | none => return lexemes
termination_by cs => cs.length
decreasing_by
  have := length_of_step _taken
  simp only [List.length_cons]
  omega

/-- The tokens of a text. -/
def tokenize (cs : List Char) : Result (List Lexeme) := tokenizeRest (byteCount cs) cs

end WeightedAutomata.Dot
