/-!
# Doubles as exact numbers

A double is read off its bit pattern as a sign and a magnitude `mantissa · 2 ^ exponent`, and all
later reasoning is exact arithmetic on natural numbers.

* `Shape.ofFloat` — what a double is: not a number, infinite, or a signed magnitude.
* `Magnitude.Rounds` — a fraction lies in the interval of reals that round to the magnitude, to
  nearest with ties to the even mantissa.
* `ofNat` — the double nearest to a natural number.
* `index?` — the index that a double addresses in a sequence.
-/

namespace ApplyLang.Number

/-- A power of two. -/
def pow2 (n : Nat) : Nat := Nat.pow 2 n

/-- A power of ten. -/
def pow10 (n : Nat) : Nat := Nat.pow 10 n

/-- A non-negative number `mantissa · 2 ^ exponent`. -/
structure Magnitude where
  mantissa : Nat
  exponent : Int
  deriving DecidableEq, Repr

/-- What a bit pattern stands for. -/
inductive Shape
  | nan
  | infinite (negative : Bool)
  | finite (negative : Bool) (magnitude : Magnitude)
  deriving DecidableEq, Repr

/-- The bits below the leading bit of a mantissa. -/
def fractionBits : Nat := 52

/-- The exponent of the smallest magnitudes. -/
def leastExponent : Int := -1074

/-- A bit pattern taken apart: one sign bit, eleven exponent bits, 52 fraction bits. The exponent
    field 0 has no implicit leading bit, the field 2047 marks infinities and what is not a number.
    -/
def Shape.ofBits (bits : Nat) : Shape :=
  let negative := bits / pow2 63 % 2 == 1
  let field := bits / pow2 fractionBits % pow2 11
  let fraction := bits % pow2 fractionBits
  if field = 2047 then
    if fraction = 0 then .infinite negative else .nan
  else if field = 0 then .finite negative ⟨fraction, leastExponent⟩
  else .finite negative ⟨pow2 fractionBits + fraction, leastExponent + (field - 1 : Nat)⟩

/-- What a double stands for. -/
def Shape.ofFloat (x : Float) : Shape :=
  .ofBits x.toBits.toNat

namespace Magnitude

/-- Numerator of the magnitude as a fraction. -/
def numerator (v : Magnitude) : Nat := v.mantissa * pow2 v.exponent.toNat

/-- Denominator of the magnitude as a fraction. -/
def denominator (v : Magnitude) : Nat := pow2 (-v.exponent).toNat

/-- Lower end of the rounding interval, in quarters of the last place. The magnitude below a power
    of two is only half as far away as the one above it, except at the least exponent. -/
def lowerQuarters (v : Magnitude) : Nat :=
  if v.mantissa = pow2 fractionBits ∧ v.exponent ≠ leastExponent then 4 * v.mantissa - 1
  else 4 * v.mantissa - 2

/-- Upper end of the rounding interval, in quarters of the last place. -/
def upperQuarters (v : Magnitude) : Nat :=
  4 * v.mantissa + 2

/-- A number of quarters of the last place, compared with the fraction `p / q` as two naturals. -/
def scaled (v : Magnitude) (quarters p q : Nat) : Nat × Nat :=
  (quarters * pow2 (v.exponent - 2).toNat * q, p * pow2 (2 - v.exponent).toNat)

/-- The fraction `p / q` rounds to the magnitude: it lies inside the rounding interval, or on an end
    of it and the mantissa is even. -/
def Rounds (v : Magnitude) (p q : Nat) : Prop :=
  let low := v.scaled v.lowerQuarters p q
  let high := v.scaled v.upperQuarters p q
  if v.mantissa % 2 = 0 then low.1 ≤ low.2 ∧ high.2 ≤ high.1 else low.1 < low.2 ∧ high.2 < high.1

instance (v : Magnitude) (p q : Nat) : Decidable (v.Rounds p q) := by
  unfold Rounds
  infer_instance

end Magnitude

/-! ## From natural numbers to doubles -/

/-- The quotient by a power of two, to nearest with ties to even. -/
def halfEvenShift (n shift : Nat) : Nat :=
  let quotient := n / pow2 shift
  let rest := 2 * (n % pow2 shift)
  if pow2 shift < rest ∨ (rest = pow2 shift ∧ quotient % 2 = 1) then quotient + 1 else quotient

/-- Bit pattern of the double nearest to a natural number. The implicit leading bit of the mantissa
    adds one to the exponent field, and so does a mantissa that rounds up to the next power of two:
    above the largest finite double that carry gives the pattern of infinity. -/
def bitsOfNat (n : Nat) : Nat :=
  if n = 0 then 0
  else
    let top := Nat.log2 n
    if 1024 ≤ top then 2047 * pow2 fractionBits
    else if top ≤ fractionBits then
      (top + 1022) * pow2 fractionBits + n * pow2 (fractionBits - top)
    else (top + 1022) * pow2 fractionBits + halfEvenShift n (top - fractionBits)

/-- The double nearest to a natural number, infinite if the number is too large. -/
def ofNat (n : Nat) : Float :=
  Float.ofBits (UInt64.ofNat (bitsOfNat n))

/-! ## Doubles as indices -/

/-- Whether the part of a double behind the point differs from zero. In an infinity and in what is
    not a number that part is no number either, so it does. -/
def hasFraction (x : Float) : Bool :=
  match Shape.ofFloat x with
  | .finite _ v => v.numerator % v.denominator != 0
  | _ => true

/-- The index that a double addresses in a sequence of a given length (`element`). The double is
    looked at as such: nothing may be behind the point, it may not be negative, and it must be less
    than the length, which is made a double for this. Only then it is cut. -/
def index? (x : Float) (length : Nat) : Option Nat :=
  if hasFraction x || x < 0 || ofNat length ≤ x then none else some x.toUInt64.toNat

end ApplyLang.Number
