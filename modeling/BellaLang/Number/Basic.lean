-- Bella's numbers are doubles. The exact value of a finite one is a sign, a
-- mantissa and a power of two; everything about integral numbers, remainders
-- and decimal text is decided on that exact value.

namespace BellaLang

/-- A number is a double. -/
abbrev Number := Float

namespace Number

/-- The number that is not a number. -/
def nan : Number := 0.0 / 0.0

/-- Positive infinity. -/
def infinity : Number := 1.0 / 0.0

end Number

/-! ## Exact values -/

/-- The value `± mantissa * 2 ^ exponent`; zero keeps its sign. -/
structure Exact where
  negative : Bool
  mantissa : Nat
  exponent : Int
  deriving DecidableEq, Repr

/-- The exact value of a finite number, and nothing for an infinity or a NaN. -/
def Number.exact? (x : Number) : Option Exact :=
  match x.toModel.unpack with
  | .zero sign => some ⟨sign matches .negative, 0, 0⟩
  | .finite sign mantissa exponent _ => some ⟨sign matches .negative, mantissa, exponent⟩
  | .infinity _ => none
  | .notANumber => none

/-- The number nearest to an exact value; a value that a double can hold is kept as it is. -/
def Exact.toNumber (x : Exact) : Number :=
  let sign := if x.negative then .negative else .positive
  .ofModel (.pack (
    if x.mantissa = 0 then .zero sign
    else Float.Model.UnpackedFloat.round .binary64 sign x.mantissa x.exponent))

/-! ## Integral numbers -/

/-- The natural number that the magnitude is, if it has no fractional part. -/
def Exact.magnitude? (x : Exact) : Option Nat :=
  if 0 ≤ x.exponent then some (x.mantissa <<< x.exponent.toNat)
  else
    let unit := 1 <<< (-x.exponent).toNat
    if x.mantissa % unit = 0 then some (x.mantissa / unit) else none

/-- The integer that a number is, if it is finite and has no fractional part. -/
def Number.toInt? (x : Number) : Option Int := do
  let e ← x.exact?
  let n ← e.magnitude?
  return if e.negative then -(n : Int) else n

/-- The number nearest to an integer, unless it lies beyond the finite numbers. -/
def Number.ofInt? (n : Int) : Option Number :=
  let x : Number := Float.ofScientific n.natAbs false 0
  if x.isFinite then some (if n < 0 then -x else x) else none

end BellaLang
