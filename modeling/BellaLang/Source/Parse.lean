-- From source text to tree. Lexemes are taken in the context of the reader and
-- given to it one by one; the first one that it refuses is reported.
import BellaLang.Source.Reader
import BellaLang.Text.Position

namespace BellaLang.Source

/-! ## Refusals -/

/-- What stands where the text goes wrong. -/
inductive Offender where
  /-- A lexeme that no program has there. -/
  | lexeme (lexeme : Lexeme)
  /-- The end of the text. -/
  | endOfText
  /-- A code point that starts no lexeme. -/
  | codePoint (p : CodePoint)
  deriving DecidableEq, Repr

/-- The first offender of a text, with the number of characters from its place to the end.
The place of the end of the text is the start of the last lexeme. -/
structure Refusal where
  offender : Offender
  remaining : Nat
  deriving DecidableEq, Repr

/-! ## Reading -/

/-- Reads the text from a state on. `last` is the number of characters from the last lexeme
to the end. Where no terminal of the context stands, the terminal that any context would take
is the offender, if there is one. -/
def readFrom (r : Reader) (last : Nat) (cs : List Char) : Except Refusal Node :=
  match hs : skipLayout false cs with
  | [] =>
    match r.finish? with
    | some program => .ok program
    | none => .error ⟨.endOfText, last⟩
  | c :: tail =>
    let place := tail.length + 1
    match hl : lexeme? r.context.accepts (c :: tail) with
    | some (lexeme, rest) =>
      have : rest.length < cs.length := lexeme?_after_layout hs hl
      match r.step lexeme with
      | some next => readFrom next place rest
      | none => .error ⟨.lexeme lexeme, place⟩
    | none =>
      match lexeme? (fun _ => true) (c :: tail) with
      | some (lexeme, _) => .error ⟨.lexeme lexeme, place⟩
      | none => .error ⟨.codePoint (.char c), place⟩
termination_by cs.length

def read (text : List Char) : Except Refusal Node :=
  readFrom .start text.length text

/-! ## Syntax errors -/

/-- What is said of a lexeme, or of the end of the text, that is not expected. -/
def unexpected (place : Text.Position) (name : String) (text : List Char) : String :=
  "Unexpected token Token('" ++ name ++ "', " ++ Json.quotedText (.ofChars text)
    ++ ") at line " ++ Json.intText place.line ++ ", column " ++ Json.intText place.column ++ "."

def Offender.reason (place : Text.Position) : Offender → Text
  | .lexeme l => unexpected place l.terminal.name l.text
  | .endOfText => unexpected place "$END" []
  | .codePoint p =>
    "No terminal matches '" ++ [p] ++ "' in the current parser context, at line "
      ++ Json.intText place.line ++ " col " ++ Json.intText place.column

structure SyntaxError where
  offender : Offender
  position : Text.Position
  deriving DecidableEq, Repr

def SyntaxError.message (e : SyntaxError) : Text :=
  "syntax error at " ++ Json.intText e.position.line ++ ":" ++ Json.intText e.position.column
    ++ ": " ++ e.offender.reason e.position

/-- What offends at the start of a text that was read as characters: where half of a pair
stands there, it is the offender. -/
def Offender.seenIn (text : Text) : Offender → Offender
  | .codePoint p => .codePoint (text.headD p)
  | other => other

/-- The tree of a program, or the first error of its text. Half of a pair starts no lexeme and
goes on with none, just as the character that replaces it. -/
def parse (text : Text) : Except SyntaxError Node :=
  match read text.chars with
  | .ok program => .ok program
  | .error refusal =>
    let offset := text.length - refusal.remaining
    .error ⟨refusal.offender.seenIn (text.drop offset), Text.Position.ofOffset text.chars offset⟩

end BellaLang.Source
