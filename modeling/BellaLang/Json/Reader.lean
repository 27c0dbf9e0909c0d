-- Reading JSON text. The first offending place is reported with its line,
-- column and offset. Beside the standard form the reader takes `NaN`,
-- `Infinity` and `-Infinity`; of two members with one name the later value wins.
import BellaLang.Json.Basic
import BellaLang.Number.Read
import BellaLang.Text.Position

namespace BellaLang.Json

/-! ## Flaws -/

/-- What can be wrong with a text at one place. -/
inductive Flaw where
  | expectingValue
  | expectingName
  | expectingColon
  | expectingComma
  | unterminatedString
  | controlCharacter
  | invalidEscape
  | invalidUnicodeEscape
  | extraData
  | byteOrderMark
  deriving DecidableEq, Repr

def Flaw.message : Flaw → String
  | expectingValue => "Expecting value"
  | expectingName => "Expecting property name enclosed in double quotes"
  | expectingColon => "Expecting ':' delimiter"
  | expectingComma => "Expecting ',' delimiter"
  | unterminatedString => "Unterminated string starting at"
  | controlCharacter => "Invalid control character at"
  | invalidEscape => "Invalid \\escape"
  | invalidUnicodeEscape => "Invalid \\uXXXX escape"
  | extraData => "Extra data"
  | byteOrderMark => "Unexpected UTF-8 BOM (decode using utf-8-sig)"

/-- Why a text is not read. A place is given by the number of characters from it to the end. -/
inductive Refusal where
  | flawed (flaw : Flaw) (remaining : Nat)
  | tooManyDigits (count : Nat)
  deriving DecidableEq, Repr

/-- Integers with more digits than this are not read. -/
def digitLimit : Nat := 4300

def Refusal.message (text : List Char) : Refusal → String
  | flawed flaw remaining =>
    let offset := text.length - remaining
    let place := Text.Position.ofOffset text offset
    flaw.message ++ ": line " ++ intText place.line ++ " column " ++ intText place.column
      ++ " (char " ++ intText offset ++ ")"
  | tooManyDigits count =>
    "Exceeds the limit (" ++ intText digitLimit
      ++ " digits) for integer string conversion: value has " ++ intText count
      ++ " digits; use sys.set_int_max_str_digits() to increase the limit"

/-! ## Blanks -/

def isSpace (c : Char) : Bool :=
  c == ' ' || c == '\t' || c == '\n' || c == '\r'

def skipSpace (cs : List Char) : List Char :=
  cs.dropWhile isSpace

/-! ## Strings

A reader returns what it read and the text that follows. -/

/-- The unit that four hexadecimal digits give; at least one more character must follow them. -/
def escapeUnit? : List Char → Option Nat
  | a :: b :: c :: d :: _ :: _ => do
    let a ← Text.hexDigit? a
    let b ← Text.hexDigit? b
    let c ← Text.hexDigit? c
    let d ← Text.hexDigit? d
    return ((a * 16 + b) * 16 + c) * 16 + d
  | _ => none

def isLeading (unit : Nat) : Bool := 0xd800 ≤ unit && unit ≤ 0xdbff

def isTrailing (unit : Nat) : Bool := 0xdc00 ≤ unit && unit ≤ 0xdfff

def pairChar (leading trailing : Nat) : Char :=
  Char.ofNat (0x10000 + (leading - 0xd800) * 0x400 + (trailing - 0xdc00))

/-- The character that a one-letter escape stands for. -/
def simpleEscape? : Char → Option Char
  | '"' => some '"'
  | '\\' => some '\\'
  | '/' => some '/'
  | 'b' => some '\x08'
  | 'f' => some '\x0c'
  | 'n' => some '\n'
  | 'r' => some '\r'
  | 't' => some '\t'
  | _ => none

def consRead (p : CodePoint) :
    Except Refusal (Text × List Char) → Except Refusal (Text × List Char)
  | .ok (text, rest) => .ok (p :: text, rest)
  | .error e => .error e

/-- The rest of a string after its opening quote, which has `opening` characters from it to
the end of the text. Two escapes that are the halves of one pair give one character. -/
def readString (opening : Nat) (cs : List Char) : Except Refusal (Text × List Char) :=
  match cs with
  | [] => .error (.flawed .unterminatedString opening)
  | '"' :: rest => .ok ([], rest)
  | '\\' :: [] => .error (.flawed .unterminatedString opening)
  | '\\' :: 'u' :: tail =>
    match escapeUnit? tail with
    | none => .error (.flawed .invalidUnicodeEscape (tail.length + 1))
    | some unit =>
      let after := tail.drop 4
      if isLeading unit && 6 < after.length && after.take 2 == ['\\', 'u'] then
        match escapeUnit? (after.drop 2) with
        | none => .error (.flawed .invalidUnicodeEscape (after.length - 1))
        | some second =>
          if isTrailing second then
            consRead (.char (pairChar unit second)) (readString opening (after.drop 6))
          else consRead (.ofUnit unit) (readString opening after)
      else consRead (.ofUnit unit) (readString opening after)
  | '\\' :: c :: rest =>
    match simpleEscape? c with
    | none => .error (.flawed .invalidEscape (rest.length + 2))
    | some e => consRead (.char e) (readString opening rest)
  | c :: rest =>
    if c.toNat ≤ 0x1f then .error (.flawed .controlCharacter (rest.length + 1))
    else consRead (.char c) (readString opening rest)
termination_by cs.length
decreasing_by all_goals simp_all <;> omega

/-! ## Numbers -/

/-- The number at the start of a text: an integer unless it has a fraction or an exponent. -/
def readNumber (cs : List Char) : Except Refusal (Json × List Char) :=
  let (negative, digits) :=
    match cs with
    | '-' :: rest => (true, rest)
    | rest => (false, rest)
  let (whole, rest) :=
    match digits with
    | '0' :: rest => ([0], rest)
    | rest => Number.digitRun Text.asciiDigit? rest
  if whole.isEmpty then .error (.flawed .expectingValue cs.length)
  else
    let (fraction, rest) := Number.fractionPart Text.asciiDigit? rest
    let (exponent, rest) := Number.exponentPart Text.asciiDigit? rest
    if fraction.isEmpty && exponent.isNone then
      if digitLimit < whole.length then .error (.tooManyDigits whole.length)
      else .ok (int (Number.signed negative whole), rest)
    else
      let x := (Number.Spelled.mk whole fraction exponent).toNumber
      .ok (float (if negative then -x else x), rest)

/-! ## Values -/

/-- The words that stand for a value. -/
def words : List (String × Json) :=
  [("null", null), ("true", bool true), ("false", bool false), ("NaN", float .nan),
   ("Infinity", float .infinity), ("-Infinity", float (-.infinity))]

/-- The word at the start of a text. -/
def readWord? (cs : List Char) : Option (Json × List Char) :=
  (words.find? fun w => w.1.toList.isPrefixOf cs).map fun w => (w.2, cs.drop w.1.length)

mutual

/-- The value at the start of a text. -/
def readValue : Nat → List Char → Except Refusal (Json × List Char)
  | 0, cs => .error (.flawed .expectingValue cs.length)
  | fuel + 1, cs =>
    match cs with
    | '"' :: rest => do
      let (s, rest) ← readString cs.length rest
      return (str s, rest)
    | '\x7b' :: rest =>
      match skipSpace rest with
      | '\x7d' :: rest => .ok (obj [], rest)
      | rest => readMembers fuel [] rest
    | '[' :: rest =>
      match skipSpace rest with
      | ']' :: rest => .ok (arr [], rest)
      | rest => readItems fuel [] rest
    | _ =>
      match readWord? cs with
      | some found => .ok found
      | none => readNumber cs

/-- The items of a list from one that is due, after those read so far, newest first. -/
def readItems : Nat → List Json → List Char → Except Refusal (Json × List Char)
  | 0, _, cs => .error (.flawed .expectingValue cs.length)
  | fuel + 1, done, cs => do
    let (item, rest) ← readValue fuel cs
    match skipSpace rest with
    | ']' :: rest => return (arr (item :: done).reverse, rest)
    | ',' :: rest => readItems fuel (item :: done) (skipSpace rest)
    | rest => .error (.flawed .expectingComma rest.length)

/-- The members of an object from one that is due, after those read so far. -/
def readMembers :
    Nat → List (Text × Json) → List Char → Except Refusal (Json × List Char)
  | 0, _, cs => .error (.flawed .expectingValue cs.length)
  | fuel + 1, done, cs =>
    match cs with
    | '"' :: rest => do
      let (name, rest) ← readString cs.length rest
      match skipSpace rest with
      | ':' :: rest => do
        let (value, rest) ← readValue fuel (skipSpace rest)
        let members := setMember name value done
        match skipSpace rest with
        | '\x7d' :: rest => return (obj members, rest)
        | ',' :: rest => readMembers fuel members (skipSpace rest)
        | rest => .error (.flawed .expectingComma rest.length)
      | rest => .error (.flawed .expectingColon rest.length)
    | _ => .error (.flawed .expectingName cs.length)

end

/-- The value that a whole text denotes. Every call made while reading consumes a character,
so the length of the text bounds their nesting. -/
def read (text : List Char) : Except Refusal Json :=
  if text.head? = some '\ufeff' then .error (.flawed .byteOrderMark text.length)
  else do
    let (value, rest) ← readValue (2 * text.length + 2) (skipSpace text)
    match skipSpace rest with
    | [] => return value
    | rest => .error (.flawed .extraData rest.length)

/-! ## Nesting

Reading goes one level deeper with each bracket, and so does everything that is done with the
value along its structure. What stands in a string does not count. -/

/-- The greatest number of brackets that are open at once, from a place on where `depth` of them
are open and which may stand inside a string. -/
def deepest (depth : Nat) (quoted : Bool) : List Char → Nat
  | [] => depth
  | '\\' :: _ :: rest => deepest depth quoted rest
  | '"' :: rest => deepest depth (!quoted) rest
  | c :: rest =>
    if quoted then deepest depth quoted rest
    else if c == '[' || c == '\x7b' then deepest (depth + 1) quoted rest
    else if c == ']' || c == '\x7d' then max depth (deepest (depth - 1) quoted rest)
    else deepest depth quoted rest

/-- How deeply the brackets of a text are nested. -/
def nesting (text : List Char) : Nat := deepest 0 false text

end BellaLang.Json
