import ApplyLang.Number.Binary

/-!
# Shortest decimal digits

The fewest decimal digits that read back as a given double, and of those the nearest to it.

* `Digits` — a decimal `coefficient · 10 ^ scale`.
* `Digits.ReadsBack` — the decimal rounds to the magnitude.
* `shortest` — for one, two, … digits the two neighbours of the magnitude on that decimal grid are
  tried; the first grid with a neighbour that reads back wins, and of two such neighbours the nearer
  one, upwards if they are equally near.
-/

namespace ApplyLang.Number

/-- The decimal `coefficient · 10 ^ scale`. -/
structure Digits where
  coefficient : Nat
  scale : Int
  deriving DecidableEq, Repr

namespace Digits

/-- Numerator of the decimal as a fraction. -/
def numerator (d : Digits) : Nat := d.coefficient * pow10 d.scale.toNat

/-- Denominator of the decimal as a fraction. -/
def denominator (d : Digits) : Nat := pow10 (-d.scale).toNat

/-- The decimal rounds to the magnitude. -/
def ReadsBack (d : Digits) (v : Magnitude) : Prop :=
  v.Rounds d.numerator d.denominator

instance (d : Digits) (v : Magnitude) : Decidable (d.ReadsBack v) := by
  unfold ReadsBack
  infer_instance

/-- Drops the zeros at the end of the coefficient; at most as many as the fuel. -/
def trimZeros : Nat → Digits → Digits
  | 0, d => d
  | fuel + 1, d =>
    if d.coefficient % 10 = 0 then trimZeros fuel ⟨d.coefficient / 10, d.scale + 1⟩ else d

end Digits

/-- Decimal digits of a natural number. -/
def digitCount (n : Nat) : Nat :=
  (Nat.toDigits 10 n).length

/-- The power of ten at or below a positive magnitude: `10 ^ e ≤ v < 10 ^ (e + 1)`. Below one, `e`
    is `-j` for the least `j` with `1 ≤ v · 10 ^ j`. -/
def Magnitude.decimalExponent (v : Magnitude) : Int :=
  let p := v.numerator
  let q := v.denominator
  if q ≤ p then (digitCount (p / q) : Int) - 1
  else
    let up := (q + p - 1) / p
    let j := if up ≤ 1 then 0 else digitCount (up - 1)
    Int.negOfNat j

/-- The largest decimal at or below the magnitude whose last digit is at `10 ^ scale`. -/
def Magnitude.floorAt (v : Magnitude) (scale : Int) : Digits :=
  ⟨v.numerator * pow10 (-scale).toNat / (v.denominator * pow10 scale.toNat), scale⟩

/-- Of the two neighbours `d` and `d + 1` on a grid, the upper one is at least as near to the
    magnitude. -/
def Magnitude.UpperNearer (v : Magnitude) (d : Digits) : Prop :=
  2 * v.numerator * d.denominator ≥
    (2 * d.coefficient + 1) * pow10 d.scale.toNat * v.denominator

instance (v : Magnitude) (d : Digits) : Decidable (v.UpperNearer d) := by
  unfold Magnitude.UpperNearer
  infer_instance

/-- The neighbour on the grid with the last digit at `10 ^ scale` that reads back. -/
def Magnitude.neighbour? (v : Magnitude) (scale : Int) : Option Digits :=
  let lower := v.floorAt scale
  let upper : Digits := ⟨lower.coefficient + 1, scale⟩
  match decide (lower.ReadsBack v), decide (upper.ReadsBack v) with
  | true, true => some (if v.UpperNearer lower then upper else lower)
  | true, false => some lower
  | false, true => some upper
  | false, false => none

/-- Tries grids from coarse to fine, starting at `10 ^ scale`. -/
def Magnitude.search (v : Magnitude) : Nat → Int → Digits
  | 0, scale => v.floorAt scale
  | finer + 1, scale =>
    match v.neighbour? scale with
    | some d => d
    | none => v.search finer (scale - 1)

/-- The shortest digits of a positive magnitude. Seventeen digits tell all doubles apart. -/
def Magnitude.shortest (v : Magnitude) : Digits :=
  (v.search 17 v.decimalExponent).trimZeros 18

end ApplyLang.Number
