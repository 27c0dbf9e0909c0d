-- Text in quotes, with the code points that cannot be shown written as escapes.
-- Single quotes are used unless the text holds one and no double quote.
import BellaLang.Text.CodePoint
import BellaLang.Text.Printable

namespace BellaLang.Text

/-! ## Hexadecimal -/

/-- The lower-case hexadecimal digit of a number below sixteen. -/
def hexChar (d : Nat) : Char :=
  if d < 10 then Char.ofNat ('0'.toNat + d) else Char.ofNat ('a'.toNat + (d - 10))

/-- The last `width` hexadecimal digits of a number, most significant first. -/
def hexDigits : Nat → Nat → List Char
  | 0, _ => []
  | width + 1, n => hexDigits width (n / 16) ++ [hexChar (n % 16)]

def hexDigit? (c : Char) : Option Nat :=
  let n := c.toNat
  if '0'.toNat ≤ n ∧ n ≤ '9'.toNat then some (n - '0'.toNat)
  else if 'a'.toNat ≤ n ∧ n ≤ 'f'.toNat then some (n - 'a'.toNat + 10)
  else if 'A'.toNat ≤ n ∧ n ≤ 'F'.toNat then some (n - 'A'.toNat + 10)
  else none

/-! ## Quoting -/

/-- The quote that encloses a text. -/
def quoteFor (text : Text) : Char :=
  if text.contains (.char '\'') && !text.contains (.char '"') then '"' else '\''

def escapeChar (quote c : Char) : List Char :=
  if c == quote || c == '\\' then ['\\', c]
  else if c == '\t' then ['\\', 't']
  else if c == '\n' then ['\\', 'n']
  else if c == '\r' then ['\\', 'r']
  else if isPrintable c then [c]
  else if c.toNat ≤ 0xff then '\\' :: 'x' :: hexDigits 2 c.toNat
  else if c.toNat ≤ 0xffff then '\\' :: 'u' :: hexDigits 4 c.toNat
  else '\\' :: 'U' :: hexDigits 8 c.toNat

def escapeHalf (index : Fin 2048) : List Char :=
  '\\' :: 'u' :: hexDigits 4 (CodePoint.half index).toNat

/-- One code point inside quotes. -/
def escapeCodePoint (quote : Char) : CodePoint → List Char
  | .char c => escapeChar quote c
  | .half index => escapeHalf index

def quoted (text : Text) : List Char :=
  let quote := quoteFor text
  quote :: text.flatMap (escapeCodePoint quote) ++ [quote]

end BellaLang.Text
