-- How numbers are read from text: a number in the source of a program, and the
-- freer form in which a document may spell a number as a string.
import BellaLang.Number.Decimal
import BellaLang.Text.Blank

namespace BellaLang.Number

/-! ## Runs of digits -/

/-- The longest run of digits at the start of a text, and what follows it. -/
def digitRun (digit? : Char → Option Nat) : List Char → List Nat × List Char
  | [] => ([], [])
  | c :: cs =>
    match digit? c with
    | some d =>
      let (ds, rest) := digitRun digit? cs
      (d :: ds, rest)
    | none => ([], c :: cs)

/-- A run of digits with single underscores allowed between two of them. -/
def groupedRun : List Char → List Nat × List Char
  | [] => ([], [])
  | [c] =>
    match Text.digit? c with
    | some d => ([d], [])
    | none => ([], [c])
  | c :: next :: cs =>
    match Text.digit? c with
    | none => ([], c :: next :: cs)
    | some d =>
      if next = '_' then
        match groupedRun cs with
        | ([], _) => ([d], next :: cs)
        | (ds, rest) => (d :: ds, rest)
      else
        let (ds, rest) := groupedRun (next :: cs)
        (d :: ds, rest)

/-- An optional sign: whether it is a minus, and what follows it. -/
def signOf : List Char → Bool × List Char
  | '-' :: cs => (true, cs)
  | '+' :: cs => (false, cs)
  | cs => (false, cs)

/-- The integer with the given sign and digits. -/
def signed (negative : Bool) (digits : List Nat) : Int :=
  if negative then -(Text.ofDigits digits : Int) else Text.ofDigits digits

/-! ## Numbers in the source of a program -/

/-- The fraction part: a point and at least one digit. -/
def fractionPart (digit? : Char → Option Nat) (cs : List Char) : List Nat × List Char :=
  match cs with
  | '.' :: rest =>
    match digitRun digit? rest with
    | ([], _) => ([], cs)
    | run => run
  | _ => ([], cs)

/-- The exponent part: a mark, an optional sign and at least one digit. -/
def exponentPart (digit? : Char → Option Nat) (cs : List Char) : Option Int × List Char :=
  match cs with
  | mark :: rest =>
    if mark = 'e' ∨ mark = 'E' then
      let (negative, rest) := signOf rest
      match digitRun digit? rest with
      | ([], _) => (none, cs)
      | (digits, rest) => (some (signed negative digits), rest)
    else (none, cs)
  | [] => (none, cs)

/-- A number as it is spelled: its digits, those after the point, and its exponent. -/
structure Spelled where
  whole : List Nat
  fraction : List Nat
  exponent : Option Int
  deriving DecidableEq, Repr

/-- The number that a spelling denotes. -/
def Spelled.toNumber (s : Spelled) : Number :=
  (Decimal.ofParts s.whole s.fraction (s.exponent.getD 0)).toNumber

/-- The longest number at the start of a text, and what follows it: digits, then an optional
fraction, then an optional exponent. -/
def scan? (digit? : Char → Option Nat) (cs : List Char) : Option (Spelled × List Char) :=
  match digitRun digit? cs with
  | ([], _) => none
  | (whole, rest) =>
    let (fraction, rest) := fractionPart digit? rest
    let (exponent, rest) := exponentPart digit? rest
    some (⟨whole, fraction, exponent⟩, rest)

/-! ## Scanning takes a character at least -/

theorem digitRun_length (digit? : Char → Option Nat) (cs : List Char) :
    (digitRun digit? cs).2.length + (digitRun digit? cs).1.length = cs.length := by
  fun_induction digitRun digit? cs with
  | case1 => rfl
  | case2 c cs d hd ds rest hrun ih => simp_all; omega
  | case3 c cs hd => simp

theorem fractionPart_length (digit? : Char → Option Nat) (cs : List Char) :
    (fractionPart digit? cs).2.length ≤ cs.length := by
  unfold fractionPart
  split
  · rename_i rest
    have := digitRun_length digit? rest
    split <;> simp_all
    omega
  · simp

theorem signOf_length (cs : List Char) : (signOf cs).2.length ≤ cs.length := by
  unfold signOf
  split <;> simp

theorem exponentPart_length (digit? : Char → Option Nat) (cs : List Char) :
    (exponentPart digit? cs).2.length ≤ cs.length := by
  unfold exponentPart
  split
  · rename_i mark rest
    split
    · have := signOf_length rest
      have := digitRun_length digit? (signOf rest).2
      simp only
      split <;> simp_all
      omega
    · simp
  · simp

theorem scan?_length {digit? : Char → Option Nat} {cs rest : List Char} {s : Spelled}
    (h : scan? digit? cs = some (s, rest)) : rest.length < cs.length := by
  unfold scan? at h
  have hrun := digitRun_length digit? cs
  split at h
  · simp at h
  · rename_i whole after hne heq
    have hf := fractionPart_length digit? after
    have he := exponentPart_length digit? (fractionPart digit? after).2
    simp only [Option.some.injEq, Prod.mk.injEq] at h
    rw [heq] at hrun
    have : 0 < whole.length := by
      cases whole with
      | nil => exact (hne rfl).elim
      | cons d ds => simp
    rw [← h.2]
    simp at hrun
    omega

/-! ## Numbers spelled as strings -/

/-- The magnitude of a number spelled as a string. A point needs a digit on one side only. -/
def unsignedText? (cs : List Char) : Option Number :=
  let lower := String.ofList (cs.map Char.toLower)
  if lower = "inf" ∨ lower = "infinity" then some infinity
  else if lower = "nan" then some nan
  else
    let (whole, rest) := groupedRun cs
    let (fraction, rest) :=
      match rest with
      | '.' :: rest => groupedRun rest
      | rest => ([], rest)
    if whole.isEmpty && fraction.isEmpty then none
    else
      match rest with
      | [] => some (Decimal.ofParts whole fraction 0).toNumber
      | mark :: rest =>
        if mark = 'e' ∨ mark = 'E' then
          let (negative, rest) := signOf rest
          match groupedRun rest with
          | ([], _) => none
          | (digits, []) => some (Decimal.ofParts whole fraction (signed negative digits)).toNumber
          | _ => none
        else none

/-- The number a string spells: blanks around it are ignored, a sign may stand before it,
single underscores may stand between digits, and the digits may be of any script. -/
def ofText? (text : List Char) : Option Number :=
  let (negative, cs) := signOf (Text.trim text)
  (unsignedText? cs).map fun x => if negative then -x else x

/-- The integer a string spells, with the same blanks, sign, underscores and digits. It may
have at most `most` digits, and leading zeros count. -/
def intOfText? (most : Nat) (text : List Char) : Option Int :=
  let (negative, cs) := signOf (Text.trim text)
  match groupedRun cs with
  | ([], _) => none
  | (digits, []) => if digits.length ≤ most then some (signed negative digits) else none
  | _ => none

end BellaLang.Number
