-- How numbers are written. The literal form has the fewest digits that read
-- back, in positional notation for moderate magnitudes and with an exponent
-- otherwise; the printed form shows an integral number without a point.
import BellaLang.Number.Decimal

namespace BellaLang

/-! ## The literal form -/

/-- The spellings that differ between the places where a number is written. -/
structure Spelling where
  nan : String
  infinity : String

def Spelling.printed : Spelling := ⟨"NaN", "Infinity"⟩

/-- Spellings inside the text of a compound value. -/
def Spelling.nested : Spelling := ⟨"nan", "inf"⟩

namespace Decimal

/-- The digits of the coefficient without its trailing zeros, and the power of ten of the
first digit. -/
def significant (d : Decimal) : List Nat × Int :=
  let digits := Text.digitsOf d.coefficient
  let kept := (digits.reverse.dropWhile (· = 0)).reverse
  (if kept.isEmpty then [0] else kept, d.exponent + digits.length - 1)

def exponentPart (power : Int) : List Char :=
  let digits := Text.decimal power.natAbs
  'e' :: (if power < 0 then '-' else '+') :: (List.replicate (2 - digits.length) '0' ++ digits)

/-- Digits in positional notation when the power of the first digit lies between −4 and 15,
always with a point; with an exponent otherwise. -/
def literal (d : Decimal) : List Char :=
  let (digits, power) := d.significant
  let chars := digits.map Text.digitChar
  if power < -4 ∨ 16 ≤ power then
    let fraction := chars.drop 1
    chars.take 1 ++ (if fraction.isEmpty then [] else '.' :: fraction) ++ exponentPart power
  else if power < 0 then
    '0' :: '.' :: (List.replicate ((-power).toNat - 1) '0' ++ chars)
  else
    let whole := power.toNat + 1
    let padded := chars ++ List.replicate (whole - chars.length) '0'
    let fraction := padded.drop whole
    padded.take whole ++ '.' :: (if fraction.isEmpty then ['0'] else fraction)

end Decimal

namespace Number

/-- The literal form of a number. -/
def literal (spelling : Spelling) (x : Number) : String :=
  match x.exact? with
  | some e =>
    let digits := if e.mantissa = 0 then ['0', '.', '0'] else (Decimal.shortest e).literal
    String.ofList (if e.negative then '-' :: digits else digits)
  | none =>
    if x.isNaN then spelling.nan
    else if x < 0 then "-" ++ spelling.infinity else spelling.infinity

/-- Integral numbers whose magnitude reaches this bound are written in literal form. -/
def wholeBound : Nat := Nat.pow 10 21

/-- The printed form of a number: integral numbers below the bound in full, all others in
literal form. -/
def text (x : Number) : String :=
  match x.toInt? with
  | some n =>
    if n.natAbs < wholeBound then String.ofList (Text.signedDecimal n)
    else literal .printed x
  | none => literal .printed x

end Number

end BellaLang
