-- Text as a list of code points. A string of a document may hold half of a
-- surrogate pair on its own, which is a code point and no character, so a text
-- is more than a list of characters.

namespace BellaLang

/-! ## Code points -/

/-- A character, or one of the halves of surrogate pairs: the first 1024 of them lead a pair
and the others end one. -/
inductive CodePoint where
  | char (c : Char)
  | half (index : Fin 2048)
  deriving DecidableEq, Repr

namespace CodePoint

/-- The number of a code point; the halves stand between two ranges of characters. -/
def toNat : CodePoint → Nat
  | char c => c.toNat
  | half index => 0xd800 + index.val

/-- The code point of a sixteen-bit unit that stands on its own. -/
def ofUnit (unit : Nat) : CodePoint :=
  if h : 0xd800 ≤ unit ∧ unit < 0xe000 then half ⟨unit - 0xd800, by omega⟩
  else char (Char.ofNat unit)

def isHalf : CodePoint → Bool
  | char _ => false
  | half _ => true

/-- A code point where only characters can stand: the replacement character is put for half of
a pair. -/
def toChar : CodePoint → Char
  | char c => c
  | half _ => '\ufffd'

end CodePoint

/-! ## Texts -/

/-- A text is a list of code points. -/
abbrev Text := List CodePoint

namespace Text

def ofChars (cs : List Char) : Text := cs.map .char

def ofString (s : String) : Text := ofChars s.toList

instance : Coe String Text := ⟨ofString⟩

/-- The characters of a text, with the replacement character for half of a pair. -/
def chars (text : Text) : List Char := text.map CodePoint.toChar

def string (text : Text) : String := String.ofList text.chars

/-- Some texts with another one between each two of them. -/
def join (separator : Text) (texts : List Text) : Text :=
  List.intercalate separator texts

/-- A text of characters has these characters. -/
theorem chars_ofChars (cs : List Char) : (ofChars cs).chars = cs := by
  simp [ofChars, chars, CodePoint.toChar, Function.comp_def]

/-- A string is given back by its text. -/
theorem string_ofString (s : String) : (ofString s).string = s := by
  simp [ofString, string, chars_ofChars]

/-- Different strings are different texts. -/
theorem ofString_inj {s t : String} : ofString s = ofString t ↔ s = t :=
  ⟨fun h => by rw [← string_ofString s, h, string_ofString], fun h => h ▸ rfl⟩

/-! ## Halves in a text -/

/-- The first halves in a row in a text: where they start, how many they are, and the first of
them. -/
structure Halves where
  offset : Nat
  count : Nat
  first : Fin 2048
  deriving DecidableEq, Repr

/-- The first halves in a text. A text that has some cannot be stored as bytes. -/
def halves? (text : Text) : Option Halves :=
  match text.dropWhile (!·.isHalf) with
  | .half index :: rest =>
    some ⟨(text.takeWhile (!·.isHalf)).length, (rest.takeWhile (·.isHalf)).length + 1, index⟩
  | _ => none

/-- A text of characters holds no halves. -/
theorem halves?_ofChars (cs : List Char) : (ofChars cs).halves? = none := by
  have : (ofChars cs).dropWhile (!·.isHalf) = [] := by
    induction cs with
    | nil => rfl
    | cons c cs ih => exact ih
  simp [halves?, this]

end Text

end BellaLang
