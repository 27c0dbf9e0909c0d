-- Text from bytes. A text is stored as UTF-8, and a line of it may end with a
-- carriage return, a newline, or both; the first bytes that are no character
-- are reported with their place.

namespace BellaLang.Text

/-! ## Flaws -/

/-- Why some bytes are not a character. -/
inductive ByteFlaw where
  | invalidStart
  | invalidContinuation
  | unexpectedEnd
  deriving DecidableEq, Repr

def ByteFlaw.message : ByteFlaw → String
  | invalidStart => "invalid start byte"
  | invalidContinuation => "invalid continuation byte"
  | unexpectedEnd => "unexpected end of data"

/-- The first bytes that are no character: what is wrong with them, where they start, how many
they are, and the first of them. -/
structure ByteError where
  flaw : ByteFlaw
  offset : Nat
  count : Nat
  first : Nat
  deriving DecidableEq, Repr

/-! ## Characters -/

/-- The number of bytes of a character by its first byte, and the least and greatest second
byte. The bounds leave out overlong forms, halves of pairs and what is no code point. -/
def leadOf? (b : Nat) : Option (Nat × Nat × Nat) :=
  if b < 0x80 then some (1, 0x80, 0xbf)
  else if b < 0xc2 then none
  else if b < 0xe0 then some (2, 0x80, 0xbf)
  else if b = 0xe0 then some (3, 0xa0, 0xbf)
  else if b = 0xed then some (3, 0x80, 0x9f)
  else if b < 0xf0 then some (3, 0x80, 0xbf)
  else if b = 0xf0 then some (4, 0x90, 0xbf)
  else if b < 0xf4 then some (4, 0x80, 0xbf)
  else if b = 0xf4 then some (4, 0x80, 0x8f)
  else none

def codePoint : List Nat → Nat
  | [] => 0
  | [a] => a
  | [a, b] => (a % 0x20) * 0x40 + b % 0x40
  | [a, b, c] => ((a % 0x10) * 0x40 + b % 0x40) * 0x40 + c % 0x40
  | a :: b :: c :: d :: _ =>
    (((a % 0x08) * 0x40 + b % 0x40) * 0x40 + c % 0x40) * 0x40 + d % 0x40

/-- How many of the bytes after the first fit into a character of `need` further bytes, the
first of them within the given bounds. -/
def fitting (low high : Nat) : Nat → List Nat → Nat
  | 0, _ => 0
  | _, [] => 0
  | need + 1, b :: bs =>
    if low ≤ b && b ≤ high then 1 + fitting 0x80 0xbf need bs else 0

/-- The characters of some bytes; `skip` bytes at the start belong to the character before. -/
def decodeFrom : Nat → Nat → List Nat → Except ByteError (List Char)
  | _, _, [] => .ok []
  | offset, skip + 1, _ :: bs => decodeFrom (offset + 1) skip bs
  | offset, 0, b :: bs =>
    match leadOf? b with
    | none => .error ⟨.invalidStart, offset, 1, b⟩
    | some (size, low, high) =>
      let fits := fitting low high (size - 1) bs
      if fits = size - 1 then do
        let rest ← decodeFrom (offset + 1) fits bs
        return Char.ofNat (codePoint ((b :: bs).take size)) :: rest
      else if fits = bs.length then .error ⟨.unexpectedEnd, offset, fits + 1, b⟩
      else .error ⟨.invalidContinuation, offset, fits + 1, b⟩

def decode (bytes : List Nat) : Except ByteError (List Char) :=
  decodeFrom 0 0 bytes

/-! ## Bytes -/

def encodeChar (c : Char) : List Nat :=
  let n := c.toNat
  if n < 0x80 then [n]
  else if n < 0x800 then [0xc0 + n / 0x40, 0x80 + n % 0x40]
  else if n < 0x10000 then [0xe0 + n / 0x1000, 0x80 + n / 0x40 % 0x40, 0x80 + n % 0x40]
  else [0xf0 + n / 0x40000, 0x80 + n / 0x1000 % 0x40, 0x80 + n / 0x40 % 0x40, 0x80 + n % 0x40]

def encode (text : List Char) : List Nat :=
  text.flatMap encodeChar

/-! ## Lines -/

/-- The text with every line end written as a newline. -/
def unifyLines : List Char → List Char
  | [] => []
  | '\r' :: '\n' :: cs => '\n' :: unifyLines cs
  | '\r' :: cs => '\n' :: unifyLines cs
  | c :: cs => c :: unifyLines cs

end BellaLang.Text
