import PotExtract.Json.Value

/-!
# JSON numerals

A numeral is read into a significand of 64 bits and an exponent of ten. A
digit that the significand has no room for is dropped.
-/

namespace PotExtract.Json

/-- A numeral in its parts. -/
structure Numeral where
  negative : Bool
  whole : List Char
  /-- The digits after the point, if there is one. -/
  fraction : Option (List Char)
  /-- The sign and the digits of the exponent, if there is one. -/
  exponent : Option (Bool × List Char)
  deriving DecidableEq, Repr

/-- The exponent part of a numeral, where one begins, and what follows. A letter with no digits
is an error. -/
def exponentPart (s : List Char) : Option (Option (Bool × List Char) × List Char) :=
  match s with
  | 'e' :: r | 'E' :: r =>
    let (negative, r) :=
      match r with
      | '-' :: r => (true, r)
      | '+' :: r => (false, r)
      | r => (false, r)
    let digits := r.takeWhile Char.isDigit
    if digits.isEmpty then none else some (some (negative, digits), r.dropWhile Char.isDigit)
  | _ => some (none, s)

/-- The fraction of a numeral, where one begins, and what follows. A point with no digits is an
error. -/
def fractionPart (s : List Char) : Option (Option (List Char) × List Char) :=
  match s with
  | '.' :: r =>
    let digits := r.takeWhile Char.isDigit
    if digits.isEmpty then none else some (some digits, r.dropWhile Char.isDigit)
  | _ => some (none, s)

/-- The digits before the point: a zero, or digits that begin with another one. -/
def wholePart (s : List Char) : Option (List Char × List Char) :=
  match s with
  | '0' :: r => some (['0'], r)
  | c :: r =>
    if c.isDigit then some (c :: r.takeWhile Char.isDigit, r.dropWhile Char.isDigit) else none
  | [] => none

/-- A text that is one numeral from its first character to its last. -/
def Numeral.parse? (s : List Char) : Option Numeral := do
  let (negative, s) :=
    match s with
    | '-' :: r => (true, r)
    | _ => (false, s)
  let (whole, s) ← wholePart s
  let (fraction, s) ← fractionPart s
  let (exponent, s) ← exponentPart s
  if s.isEmpty then some ⟨negative, whole, fraction, exponent⟩ else none

/-- The value of a digit. -/
def digitValue (c : Char) : Nat :=
  c.toNat - '0'.toNat

/-- Digits added to a number as long as it is at most `limit`, and those for which there is no
room. -/
def pushDigits (limit value : Nat) : List Char → Nat × List Char
  | [] => (value, [])
  | c :: r =>
    let next := value * 10 + digitValue c
    if next ≤ limit then pushDigits limit next r else (value, c :: r)

/-- The largest significand. -/
def greatestSignificand : Nat := Nat.pow 2 64 - 1

/-- The largest magnitude of an exponent that is written out. -/
def greatestExponent : Nat := Nat.pow 2 31 - 1

/-- An exponent kept within 32 bits. -/
def clampExponent (n : Int) : Int :=
  max (-Nat.pow 2 31) (min greatestExponent n)

/-- The magnitude of a numeral as a double. -/
def Numeral.magnitude? (n : Numeral) : Option Binary64 :=
  let (significand, dropped) := pushDigits greatestSignificand 0 n.whole
  let fraction := n.fraction.getD []
  let (significand, rest) := pushDigits greatestSignificand significand fraction
  let place : Int := dropped.length - (fraction.length - rest.length : Nat)
  match n.exponent with
  | none => Binary64.ofDecimal? significand place
  | some (negative, digits) =>
    match pushDigits greatestExponent 0 digits with
    | (e, []) =>
      Binary64.ofDecimal? significand (clampExponent (if negative then place - e else place + e))
    | (_, _ :: _) => if significand ≠ 0 ∧ !negative then none else some Binary64.zero

/-- The number of a numeral. An integer that needs more than 64 bits is a double, and so is a
negative zero. A double too large for its format is none. -/
def Numeral.number? (n : Numeral) : Option Number :=
  let whole :=
    match n.fraction, n.exponent, pushDigits greatestSignificand 0 n.whole with
    | none, none, (value, []) => some value
    | _, _, _ => none
  match whole, n.negative with
  | some value, false => some (.integer value)
  | some value, true =>
    if 0 < value ∧ value ≤ Nat.pow 2 63 then some (.integer (-value))
    else (Number.double true) <$> n.magnitude?
  | none, negative => (Number.double negative) <$> n.magnitude?

end PotExtract.Json
