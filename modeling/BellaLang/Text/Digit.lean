-- The decimal digits of every script: a digit's value is its distance from the
-- zero of its run, and every run is ten characters long.

namespace BellaLang.Text

/-! ## The table -/

/-- The code points of the zeros, one for each run of ten decimal digits. -/
def digitZeros : List Nat :=
  [0x30, 0x660, 0x6f0, 0x7c0, 0x966, 0x9e6, 0xa66, 0xae6, 0xb66, 0xbe6, 0xc66, 0xce6, 0xd66,
   0xde6, 0xe50, 0xed0, 0xf20, 0x1040, 0x1090, 0x17e0, 0x1810, 0x1946, 0x19d0, 0x1a80, 0x1a90,
   0x1b50, 0x1bb0, 0x1c40, 0x1c50, 0xa620, 0xa8d0, 0xa900, 0xa9d0, 0xa9f0, 0xaa50, 0xabf0, 0xff10,
   0x104a0, 0x10d30, 0x11066, 0x110f0, 0x11136, 0x111d0, 0x112f0, 0x11450, 0x114d0, 0x11650,
   0x116c0, 0x11730, 0x118e0, 0x11950, 0x11c50, 0x11d50, 0x11da0, 0x16a60, 0x16ac0, 0x16b50,
   0x1d7ce, 0x1d7d8, 0x1d7e2, 0x1d7ec, 0x1d7f6, 0x1e140, 0x1e2f0, 0x1e950, 0x1fbf0]

/-! ## Digits -/

/-- The value of a decimal digit of any script. -/
def digit? (c : Char) : Option Nat :=
  (digitZeros.find? fun z => z ≤ c.toNat && c.toNat < z + 10).map (c.toNat - ·)

/-- The value of one of the ten digits `0` to `9`. -/
def asciiDigit? (c : Char) : Option Nat :=
  if '0'.toNat ≤ c.toNat ∧ c.toNat ≤ '9'.toNat then some (c.toNat - '0'.toNat) else none

/-- The number a list of digits denotes, most significant digit first. -/
def ofDigits (ds : List Nat) : Nat :=
  ds.foldl (fun n d => 10 * n + d) 0

/-- The digits of a number, most significant first; zero has the one digit `0`. -/
def digitsOf (n : Nat) : List Nat :=
  if n < 10 then [n] else digitsOf (n / 10) ++ [n % 10]

theorem ofDigits_append_singleton (ds : List Nat) (d : Nat) :
    ofDigits (ds ++ [d]) = 10 * ofDigits ds + d := by
  simp [ofDigits, List.foldl_append]

/-- The digits of a number denote it. -/
theorem ofDigits_digitsOf (n : Nat) : ofDigits (digitsOf n) = n := by
  fun_induction digitsOf n with
  | case1 n h => simp [ofDigits]
  | case2 n h ih =>
    rw [ofDigits_append_singleton, ih]
    omega

theorem digitsOf_ne_nil (n : Nat) : digitsOf n ≠ [] := by
  rw [digitsOf]
  split <;> simp

/-- Every digit of a number is below ten. -/
theorem lt_ten_of_mem_digitsOf (n d : Nat) (h : d ∈ digitsOf n) : d < 10 := by
  fun_induction digitsOf n with
  | case1 n hn =>
    rw [List.mem_singleton] at h
    omega
  | case2 n hn ih =>
    rcases List.mem_append.1 h with h | h
    · exact ih h
    · rw [List.mem_singleton] at h
      omega

/-- The character of a digit below ten. -/
def digitChar (d : Nat) : Char :=
  Char.ofNat ('0'.toNat + d)

/-- A number in decimal. -/
def decimal (n : Nat) : List Char :=
  (digitsOf n).map digitChar

/-- An integer in decimal, with a minus sign when it is negative. -/
def signedDecimal (n : Int) : List Char :=
  if n < 0 then '-' :: decimal n.natAbs else decimal n.natAbs

end BellaLang.Text
