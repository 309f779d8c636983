import PotExtract.Json.Numeral

/-!
# Tokens of a JSON text

A JSON text is a sequence of marks and scalars with blanks between them.

* `tokens?`: all tokens of a text, unless some part of it is none.
-/

namespace PotExtract.Json

/-- A lexical element of a JSON text. -/
inductive Token where
  /-- A bracket, a brace, a colon or a comma. -/
  | mark (c : Char)
  /-- A value with no parts. -/
  | scalar (value : Json)

/-- The blanks between tokens. -/
def isSpace (c : Char) : Bool :=
  c == ' ' || c == '\t' || c == '\n' || c == '\r'

/-- The value of a hexadecimal digit. -/
def hexValue? (c : Char) : Option Nat :=
  if '0' ≤ c ∧ c ≤ '9' then some (c.toNat - '0'.toNat)
  else if 'a' ≤ c ∧ c ≤ 'f' then some (c.toNat - 'a'.toNat + 10)
  else if 'A' ≤ c ∧ c ≤ 'F' then some (c.toNat - 'A'.toNat + 10)
  else none

/-- The value of four hexadecimal digits. -/
def hexUnit? (a b c d : Char) : Option Nat := do
  return (((← hexValue? a) * 16 + (← hexValue? b)) * 16 + (← hexValue? c)) * 16 + (← hexValue? d)

/-- The character of a pair of surrogate units. -/
def surrogatePair? (high low : Nat) : Option Char :=
  if 0xd800 ≤ high ∧ high ≤ 0xdbff ∧ 0xdc00 ≤ low ∧ low ≤ 0xdfff then
    some (Char.ofNat (0x10000 + (high - 0xd800) * 0x400 + (low - 0xdc00)))
  else none

/-- The character that a backslash and this one stand for. -/
def shortEscape? : Char → Option Char
  | '"' => some '"'
  | '\\' => some '\\'
  | '/' => some '/'
  | 'b' => some '\x08'
  | 'f' => some '\x0c'
  | 'n' => some '\n'
  | 'r' => some '\r'
  | 't' => some '\t'
  | _ => none

/-- The rest of a string after its opening mark, and what follows it; `seen` is the string so
far, last character first. Half of a surrogate pair is an error, and so is a control
character. -/
def stringBody? (seen : List Char) : List Char → Option (List Char × List Char)
  | [] => none
  | '"' :: r => some (seen.reverse, r)
  | '\\' :: 'u' :: a :: b :: c :: d :: r =>
    match hexUnit? a b c d with
    | none => none
    | some unit =>
      if 0xd800 ≤ unit ∧ unit ≤ 0xdfff then
        match r with
        | '\\' :: 'u' :: a' :: b' :: c' :: d' :: r =>
          match (hexUnit? a' b' c' d').bind (surrogatePair? unit) with
          | none => none
          | some ch => stringBody? (ch :: seen) r
        | _ => none
      else stringBody? (Char.ofNat unit :: seen) r
  | '\\' :: c :: r =>
    match shortEscape? c with
    | none => none
    | some ch => stringBody? (ch :: seen) r
  | c :: r => if c.toNat < 0x20 ∨ c = '\\' then none else stringBody? (c :: seen) r

theorem length_stringBody? {seen s body rest : List Char}
    (h : stringBody? seen s = some (body, rest)) : rest.length < s.length := by
  fun_induction stringBody? seen s <;> simp_all <;> omega

/-- The characters of numerals. -/
def isNumeralChar (c : Char) : Bool :=
  c.isDigit || c == '-' || c == '+' || c == '.' || c == 'e' || c == 'E'

/-- The value of a run of characters that has no quotation marks. -/
def scalar? (run : List Char) : Option Json :=
  match String.ofList run with
  | "null" => some .null
  | "true" => some (.bool true)
  | "false" => some (.bool false)
  | _ => (Numeral.parse? run).bind fun n => Json.number <$> n.number?

/-- The characters that belong together in a scalar that begins with `c`. -/
def continuesScalar (c : Char) : Char → Bool :=
  if c.isAlpha then Char.isAlpha else isNumeralChar

/-- The first token of a text that does not begin with a blank, and what follows it. -/
def next? : List Char → Option (Token × List Char)
  | [] => none
  | c :: r =>
    if c ∈ ['[', ']', '\x7b', '\x7d', ':', ','] then some (.mark c, r)
    else if c = '"' then
      (stringBody? [] r).map fun (body, rest) => (.scalar (.string (String.ofList body)), rest)
    else
      (scalar? (c :: r.takeWhile (continuesScalar c))).map fun value =>
        (.scalar value, r.dropWhile (continuesScalar c))

theorem length_next? {s rest : List Char} {t : Token} (h : next? s = some (t, rest)) :
    rest.length < s.length := by
  cases s with
  | nil => simp [next?] at h
  | cons c r =>
    simp only [next?] at h
    split at h
    · simp_all
    · split at h
      · simp only [Option.map_eq_some_iff, Prod.mk.injEq] at h
        obtain ⟨⟨body, rest'⟩, hb, -, rfl⟩ := h
        have := length_stringBody? hb
        simp only [List.length_cons]
        omega
      · simp only [Option.map_eq_some_iff, Prod.mk.injEq] at h
        obtain ⟨_, -, -, rfl⟩ := h
        have := (List.dropWhile_sublist (l := r) (continuesScalar c)).length_le
        simp only [List.length_cons]
        omega

/-- The tokens of a text. -/
def tokens? (s : List Char) : Option (List Token) :=
  if (s.dropWhile isSpace).isEmpty then some []
  else
    match _ : next? (s.dropWhile isSpace) with
    | none => none
    | some (t, rest) => (t :: ·) <$> tokens? rest
termination_by s.length
decreasing_by exact Nat.lt_of_lt_of_le (length_next? ‹_›) (List.dropWhile_sublist _).length_le

end PotExtract.Json
