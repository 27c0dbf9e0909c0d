-- Decimals: a coefficient and a power of ten. A decimal denotes the number
-- nearest to it, and every finite number has a shortest decimal that denotes it.
import BellaLang.Number.Basic
import BellaLang.Text.Digit

namespace BellaLang

/-- The value `coefficient * 10 ^ exponent`. -/
structure Decimal where
  coefficient : Nat
  exponent : Int
  deriving DecidableEq, Repr

namespace Decimal

/-- The number nearest to a decimal, ties going to the even mantissa. -/
def toNumber (d : Decimal) : Number :=
  Float.ofScientific d.coefficient (decide (d.exponent < 0)) d.exponent.natAbs

/-- The decimal written with some digits, some digits after the point, and an exponent. -/
def ofParts (whole fraction : List Nat) (exponent : Int) : Decimal :=
  ⟨Text.ofDigits (whole ++ fraction), exponent - fraction.length⟩

end Decimal

/-! ## Fractions -/

/-- The positive fraction `num / den`. -/
structure Ratio where
  num : Nat
  den : Nat
  deriving DecidableEq, Repr

namespace Ratio

/-- The magnitude of an exact value as a fraction. -/
def ofExact (x : Exact) : Ratio :=
  if 0 ≤ x.exponent then ⟨x.mantissa <<< x.exponent.toNat, 1⟩
  else ⟨x.mantissa, 1 <<< (-x.exponent).toNat⟩

/-- The fraction times a power of ten. -/
def scale (r : Ratio) (power : Int) : Ratio :=
  if 0 ≤ power then ⟨r.num * Nat.pow 10 power.toNat, r.den⟩
  else ⟨r.num, r.den * Nat.pow 10 (-power).toNat⟩

/-- The power of ten of the first digit: the greatest `k` with `10 ^ k ≤ num / den`. -/
def magnitude (r : Ratio) : Int :=
  if r.den ≤ r.num then (Text.digitsOf (r.num / r.den)).length - 1
  else -((Text.digitsOf ((r.den - 1) / r.num)).length : Int)

/-- The two whole numbers around the fraction, the nearer one first; of two equally near ones
the even one is first. -/
def neighbours (r : Ratio) : List Nat :=
  let low := r.num / r.den
  let rest := 2 * (r.num % r.den)
  if rest < r.den ∨ (rest = r.den ∧ low % 2 = 0) then [low, low + 1] else [low + 1, low]

end Ratio

/-! ## The shortest decimal -/

namespace Decimal

/-- The decimals with `count` digits on the two sides of a fraction of the given magnitude, the
nearer one first. -/
def candidates (r : Ratio) (magnitude : Int) (count : Nat) : List Decimal :=
  let shift := (count : Int) - 1 - magnitude
  (r.scale shift).neighbours.map fun n => ⟨n, -shift⟩

/-- The decimal equal to an exact value. -/
def expansion (x : Exact) : Decimal :=
  if 0 ≤ x.exponent then ⟨x.mantissa <<< x.exponent.toNat, 0⟩
  else ⟨x.mantissa * Nat.pow 5 (-x.exponent).toNat, x.exponent⟩

/-- The decimal with the fewest digits that denotes the magnitude of `x`, and of those the
nearest one. Seventeen digits are enough for every double. -/
def shortest (x : Exact) : Decimal :=
  let target := { x with negative := false }.toNumber
  let r := Ratio.ofExact x
  let magnitude := r.magnitude
  let hit := (List.range 17).findSome? fun count =>
    (candidates r magnitude (count + 1)).find? fun d => d.toNumber = target
  hit.getD (expansion x)

end Decimal

end BellaLang
