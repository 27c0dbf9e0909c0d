-- The remainder of a division rounded toward zero. It is computed on the exact
-- values, so nothing is lost however far apart the two magnitudes are.
import BellaLang.Number.Basic

namespace BellaLang

/-- What is left of `x` after taking away the multiples of `y`, with the sign of `x`. -/
def Exact.rem (x y : Exact) : Exact :=
  let unit := min x.exponent y.exponent
  { negative := x.negative
    mantissa :=
      (x.mantissa <<< (x.exponent - unit).toNat) % (y.mantissa <<< (y.exponent - unit).toNat)
    exponent := unit }

/-- The remainder of `a` by `b`: a NaN for an infinite `a` or a zero `b`, and `a` itself for
an infinite `b`. -/
def Number.remainder (a b : Number) : Number :=
  match a.exact?, b.exact? with
  | some x, some y => if y.mantissa = 0 then nan else (x.rem y).toNumber
  | some _, none => if b.isNaN then nan else a
  | none, _ => nan

end BellaLang
