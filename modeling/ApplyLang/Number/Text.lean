import ApplyLang.Number.Shortest

/-!
# Numbers as text

Two written forms of a double, both made of its shortest digits.

* `text` — the form that programs print: positional at every size, whole numbers without a point,
  both zeros as `0`.
* `annotated` — the form of a number in a description of a value: always with a point or an
  exponent, and with the sign of a zero.
-/

namespace ApplyLang.Number

/-- Zeros. -/
def zeros (n : Nat) : List Char := List.replicate n '0'

/-- Positional form of a decimal. -/
def Digits.positional (d : Digits) : List Char :=
  let digits := Nat.toDigits 10 d.coefficient
  if 0 ≤ d.scale then digits ++ zeros d.scale.toNat
  else
    let places := (-d.scale).toNat
    let padded := zeros (places + 1 - digits.length) ++ digits
    padded.take (padded.length - places) ++ '.' :: padded.drop (padded.length - places)

/-- Form with one digit before the point and an exponent. -/
def Digits.scientific (d : Digits) : List Char :=
  let digits := Nat.toDigits 10 d.coefficient
  let exponent := d.scale + (digits.length - 1 : Nat)
  let tail := match digits.drop 1 with
    | [] => []
    | rest => '.' :: rest
  let power := if exponent < 0 then '-' :: Nat.toDigits 10 (-exponent).toNat
    else Nat.toDigits 10 exponent.toNat
  digits.take 1 ++ tail ++ 'e' :: power

/-- A minus sign in front of negative numbers. -/
def signed (negative : Bool) (digits : List Char) : String :=
  String.ofList (if negative then '-' :: digits else digits)

/-- Printed form of a number (`format_number`). -/
def text (x : Float) : String :=
  match Shape.ofFloat x with
  | .nan => "NaN"
  | .infinite negative => signed negative "Infinity".toList
  | .finite negative v =>
    if v.mantissa = 0 then "0" else signed negative v.shortest.positional

/-- Whether the annotated form has an exponent: from `10 ^ 16` up and below `10 ^ -4`. -/
def usesExponent (v : Magnitude) : Bool :=
  let e := v.decimalExponent
  e < -4 || 16 ≤ e

/-- Annotated form of a number. -/
def annotated (x : Float) : String :=
  match Shape.ofFloat x with
  | .nan => "NaN"
  | .infinite negative => signed negative "inf".toList
  | .finite negative v =>
    if v.mantissa = 0 then signed negative "0.0".toList
    else
      let d := v.shortest
      if usesExponent v then signed negative d.scientific
      else if 0 ≤ d.scale then signed negative (d.positional ++ ".0".toList)
      else signed negative d.positional

end ApplyLang.Number
