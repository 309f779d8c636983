import PotExtract.Decimal.Binary64

/-!
# Shortest decimal text

A magnitude of the double format is written with the fewest digits that read
back as it, and of those with the nearest.
-/

namespace PotExtract.Binary64

/-- Decimal digits `digits` with the first of them at the place of `10 ^ exponent`. -/
structure Decimal where
  digits : Nat
  exponent : Int
  deriving DecidableEq, Repr

/-- The power of ten at or below a fraction that is not zero, searched downwards from `e`. -/
def tenPowBelow (num den : Nat) : Nat → Int → Int
  | 0, e => e
  | steps + 1, e =>
    let reached :=
      if e < 0 then den ≤ num * Nat.pow 10 e.natAbs else den * Nat.pow 10 e.natAbs ≤ num
    if reached then e else tenPowBelow num den steps (e - 1)

/-- Whether `digits * 10 ^ place` reads back as `x`: it lies between the points half way to the
neighbours of `x`, and may be one of them if the mantissa is even. -/
def readsBack (x : Binary64) (digits : Nat) (place : Int) : Bool :=
  let narrow := x.mantissa = Nat.pow 2 52 ∧ leastExponent < x.exponent
  let low := 4 * x.mantissa - (if narrow then 1 else 2)
  let high := 4 * x.mantissa + 2
  let (a, b) := scale 1 1 (2 - x.exponent)
  let (p, q) := if place < 0 then (1, Nat.pow 10 place.natAbs) else (Nat.pow 10 place.natAbs, 1)
  let value := digits * p * b
  if x.mantissa % 2 = 0 then low * a * q ≤ value && value ≤ high * a * q
  else low * a * q < value && value < high * a * q

/-- With `count` digits, the number nearest to `x` that reads back as it. -/
def withDigits? (x : Binary64) (top : Int) (count : Nat) : Option Decimal :=
  let (num, den) := x.ratio
  let place := top + 1 - count
  let (n, d) :=
    if place < 0 then (num * Nat.pow 10 place.natAbs, den)
    else (num, den * Nat.pow 10 place.natAbs)
  let below := n / d
  let near := roundDiv n d
  let far := if near = below then below + 1 else below
  let inRange := fun digits => readsBack x digits place
  (if inRange near then some near else if inRange far then some far else none).map fun digits =>
    if digits = Nat.pow 10 count then ⟨1, top + 1⟩ else ⟨digits, top⟩

/-- The shortest decimal of a magnitude that is not zero. Seventeen digits always suffice. -/
def shortest (x : Binary64) : Decimal :=
  let (num, den) := x.ratio
  let top := tenPowBelow num den 640 310
  ((List.range 17).findSome? fun i => withDigits? x top (i + 1)).getD ⟨0, top⟩

/-- How a magnitude is written: positionally from `10 ^ -5` up to below `10 ^ 16`, always with a
point, and otherwise with an exponent that has a sign. -/
def text (x : Binary64) : String :=
  if x.mantissa = 0 then "0.0"
  else
    let decimal := x.shortest
    let digits := Nat.toDigits 10 decimal.digits
    let e := decimal.exponent
    String.ofList <|
      if 0 ≤ e ∧ e ≤ 15 then
        let whole := e.natAbs + 1
        let fraction := digits.drop whole
        digits.take whole ++ List.replicate (whole - digits.length) '0' ++ '.' ::
          (if fraction.isEmpty then ['0'] else fraction)
      else if -5 ≤ e ∧ e < 0 then
        '0' :: '.' :: List.replicate (e.natAbs - 1) '0' ++ digits
      else
        digits.take 1 ++ (if digits.length > 1 then '.' :: digits.drop 1 else []) ++
          ['e', if e < 0 then '-' else '+'] ++ Nat.toDigits 10 e.natAbs

end PotExtract.Binary64
