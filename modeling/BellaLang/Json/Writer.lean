-- Writing JSON text, on one line or with one member or item to a line.
import BellaLang.Json.Basic

namespace BellaLang.Json

/-! ## Scalars -/

/-- One character of a string: quotes, backslashes and control characters are escaped. -/
def writeChar (c : Char) : List Char :=
  if c = '"' then ['\\', '"']
  else if c = '\\' then ['\\', '\\']
  else if c = '\n' then ['\\', 'n']
  else if c = '\r' then ['\\', 'r']
  else if c = '\t' then ['\\', 't']
  else if c = '\x08' then ['\\', 'b']
  else if c = '\x0c' then ['\\', 'f']
  else if c.toNat < 0x20 then '\\' :: 'u' :: Text.hexDigits 4 c.toNat
  else [c]

/-- One code point of a string: half of a pair is escaped too. -/
def writeCodePoint : CodePoint → List Char
  | .char c => writeChar c
  | .half index => Text.escapeHalf index

def writeString (s : Text) : List Char :=
  '"' :: (s.flatMap writeCodePoint ++ ['"'])

/-! ## Layout -/

/-- How the parts of a list or an object are set: what stands before each part and before the
closing bracket at a given depth, and what stands after a comma and a colon. -/
structure Layout where
  lineBreak : Nat → List Char
  afterComma : List Char
  afterColon : List Char

/-- All on one line, with no blank. -/
def Layout.compact : Layout := ⟨fun _ => [], [], []⟩

/-- One part to a line, two spaces deeper for each bracket. -/
def Layout.indented : Layout :=
  ⟨fun depth => '\n' :: List.replicate (2 * depth) ' ', [], [' ']⟩

mutual

/-- A value at the given depth. -/
def writeAt (layout : Layout) (depth : Nat) : Json → List Char
  | null => "null".toList
  | bool b => (if b then "true" else "false").toList
  | int n => Text.signedDecimal n
  | float x => (x.literal .printed).toList
  | str s => writeString s
  | arr [] => ['[', ']']
  | arr (item :: items) =>
    '[' :: (layout.lineBreak (depth + 1) ++ writeAt layout (depth + 1) item
      ++ writeItems layout (depth + 1) items ++ layout.lineBreak depth ++ [']'])
  | obj [] => ['\x7b', '\x7d']
  | obj ((name, value) :: members) =>
    '\x7b' :: (layout.lineBreak (depth + 1)
      ++ (writeString name ++ ':' :: (layout.afterColon ++ writeAt layout (depth + 1) value))
      ++ writeMembers layout (depth + 1) members ++ layout.lineBreak depth ++ ['\x7d'])

/-- The items after the first, each after a comma. -/
def writeItems (layout : Layout) (depth : Nat) : List Json → List Char
  | [] => []
  | item :: items =>
    ',' :: (layout.afterComma ++ layout.lineBreak depth ++ writeAt layout depth item
      ++ writeItems layout depth items)

def writeMembers (layout : Layout) (depth : Nat) : List (Text × Json) → List Char
  | [] => []
  | (name, value) :: members =>
    ',' :: (layout.afterComma ++ layout.lineBreak depth
      ++ (writeString name ++ ':' :: (layout.afterColon ++ writeAt layout depth value))
      ++ writeMembers layout depth members)

end

def write (layout : Layout) (value : Json) : String :=
  String.ofList (writeAt layout 0 value)

end BellaLang.Json
