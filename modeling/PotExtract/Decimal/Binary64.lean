/-!
# Binary floating point with 53 bits

Magnitudes of the double format as exact numbers `mantissa * 2 ^ exponent`,
and the operations that decimal numerals need, rounded to the nearest value,
a tie to the even one.

* `Binary64.ofRatio?`: the value nearest to a fraction;
* `Binary64.ofDecimal?`: a number with a power of ten, multiplied or divided
  in steps that each round.
-/

namespace PotExtract

/-- A magnitude of the double format: `mantissa * 2 ^ exponent`. -/
structure Binary64 where
  /-- At least `2 ^ 52` unless the exponent is the least, and less than `2 ^ 53`. -/
  mantissa : Nat
  exponent : Int
  deriving DecidableEq, Repr

namespace Binary64

/-- The exponent of the smallest magnitudes. -/
def leastExponent : Int := -1074

/-- The exponent of the largest magnitudes. -/
def greatestExponent : Int := 971

def zero : Binary64 := ⟨0, leastExponent⟩

/-- The fraction `num / (den * 2 ^ e)` as a numerator and a denominator. -/
def scale (num den : Nat) (e : Int) : Nat × Nat :=
  if e < 0 then (num * Nat.pow 2 e.natAbs, den) else (num, den * Nat.pow 2 e.natAbs)

/-- The integer nearest to a fraction, a tie to the even one. -/
def roundDiv (num den : Nat) : Nat :=
  let whole := num / den
  let rest := num % den
  if 2 * rest > den ∨ (2 * rest = den ∧ whole % 2 = 1) then whole + 1 else whole

/-- The magnitude nearest to `num / den`, if there is none above all of the format. -/
def ofRatio? (num den : Nat) : Option Binary64 :=
  if num = 0 then some zero
  else
    let guess : Int := (Nat.log2 num : Int) - (Nat.log2 den : Int) - 52
    let (n, d) := scale num den guess
    let exponent := max leastExponent (if n < Nat.pow 2 52 * d then guess - 1 else guess)
    let (n, d) := scale num den exponent
    let mantissa := roundDiv n d
    let rounded : Binary64 :=
      if mantissa = Nat.pow 2 53 then ⟨Nat.pow 2 52, exponent + 1⟩ else ⟨mantissa, exponent⟩
    if rounded.exponent ≤ greatestExponent then some rounded else none

/-- A magnitude as a fraction. -/
def ratio (x : Binary64) : Nat × Nat :=
  scale x.mantissa 1 (-x.exponent)

/-- The product of two magnitudes, rounded. -/
def mul? (x y : Binary64) : Option Binary64 :=
  let (a, b) := x.ratio
  let (c, d) := y.ratio
  ofRatio? (a * c) (b * d)

/-- The quotient of two magnitudes, rounded. -/
def div? (x y : Binary64) : Option Binary64 :=
  let (a, b) := x.ratio
  let (c, d) := y.ratio
  ofRatio? (a * d) (b * c)

/-- The largest exponent of ten that is applied in one step. -/
def greatestStep : Nat := 308

/-- A magnitude times a power of ten. -/
def timesTenPow? (x : Binary64) (n : Nat) : Option Binary64 :=
  if n ≤ greatestStep then (ofRatio? (Nat.pow 10 n) 1).bind x.mul?
  else if x.mantissa = 0 then some x
  else none

/-- A magnitude divided by a power of ten, in steps as large as can be. -/
def overTenPow? (x : Binary64) (n : Nat) : Option Binary64 :=
  if n ≤ greatestStep then (ofRatio? (Nat.pow 10 n) 1).bind x.div?
  else if x.mantissa = 0 then some x
  else (ofRatio? (Nat.pow 10 greatestStep) 1).bind x.div? |>.bind (overTenPow? · (n - greatestStep))
termination_by n
decreasing_by
  have : greatestStep = 308 := rfl
  omega

/-- The magnitude of `significand * 10 ^ exponent`, unless it is above all of the format. -/
def ofDecimal? (significand : Nat) (exponent : Int) : Option Binary64 :=
  (ofRatio? significand 1).bind fun x =>
    if exponent < 0 then x.overTenPow? exponent.natAbs else x.timesTenPow? exponent.natAbs

end Binary64

end PotExtract
