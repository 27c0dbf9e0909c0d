-- The terminals of the grammar: their names in messages, their spellings, and
-- the contexts that decide which of them are looked for at a place.
import BellaLang.Operator

namespace BellaLang.Source

inductive Terminal where
  | ident
  | number
  | letWord
  | funcWord
  | printWord
  | whileWord
  | trueWord
  | falseWord
  | or
  | and
  | equal
  | notEqual
  | atMost
  | atLeast
  | less
  | greater
  | plus
  | minus
  | star
  | slash
  | percent
  | bang
  | semicolon
  | becomes
  | openBrace
  | closeBrace
  | question
  | colon
  | openBracket
  | closeBracket
  | openParen
  | closeParen
  | comma
  deriving DecidableEq, Repr

namespace Terminal

def name : Terminal → String
  | ident => "IDENT"
  | number => "NUMBER"
  | letWord => "LET"
  | funcWord => "FUNC"
  | printWord => "PRINT"
  | whileWord => "WHILE"
  | trueWord => "TRUE"
  | falseWord => "FALSE"
  | or => "OR"
  | and => "AND"
  | equal => "EQ"
  | notEqual => "NE"
  | atMost => "LE"
  | atLeast => "GE"
  | less => "LT"
  | greater => "GT"
  | plus => "PLUS"
  | minus => "MINUS"
  | star => "STAR"
  | slash => "SLASH"
  | percent => "PERCENT"
  | bang => "BANG"
  | semicolon => "_SEMI"
  | becomes => "EQUAL"
  | openBrace => "LBRACE"
  | closeBrace => "RBRACE"
  | question => "QMARK"
  | colon => "COLON"
  | openBracket => "LSQB"
  | closeBracket => "RSQB"
  | openParen => "LPAR"
  | closeParen => "RPAR"
  | comma => "COMMA"

/-- The words that may be terminals of their own. -/
def keywords : List (List Char × Terminal) :=
  [(['l', 'e', 't'], letWord), (['f', 'u', 'n', 'c'], funcWord),
   (['p', 'r', 'i', 'n', 't'], printWord), (['w', 'h', 'i', 'l', 'e'], whileWord),
   (['t', 'r', 'u', 'e'], trueWord), (['f', 'a', 'l', 's', 'e'], falseWord)]

/-- The terminals spelled with signs, in the order in which they are tried: those of two
signs come first. -/
def symbols : List (List Char × Terminal) :=
  [(['|', '|'], or), (['&', '&'], and), (['=', '='], equal), (['!', '='], notEqual),
   (['<', '='], atMost), (['>', '='], atLeast), (['<'], less), (['>'], greater), (['+'], plus),
   (['-'], minus), (['*'], star), (['/'], slash), (['%'], percent), (['!'], bang),
   ([';'], semicolon), (['='], becomes), (['\x7b'], openBrace), (['\x7d'], closeBrace),
   (['?'], question), ([':'], colon), (['['], openBracket), ([']'], closeBracket),
   (['('], openParen), ([')'], closeParen), ([','], comma)]

def unary? : Terminal → Option UnaryOp
  | minus => some .negate
  | plus => some .plus
  | bang => some .not
  | _ => none

def binary? : Terminal → Option BinaryOp
  | or => some .or
  | and => some .and
  | equal => some .equal
  | notEqual => some .notEqual
  | less => some .less
  | greater => some .greater
  | atMost => some .atMost
  | atLeast => some .atLeast
  | plus => some .add
  | minus => some .subtract
  | star => some .multiply
  | slash => some .divide
  | percent => some .remainder
  | _ => none

end Terminal

/-! ## Contexts -/

/-- What may come next, as far as the choice of terminals depends on it. -/
inductive Context where
  /-- A statement, a separator or the end of a block. -/
  | statement
  /-- The name that a declaration introduces. -/
  | name
  /-- The sign between a name and its expression. -/
  | becomes
  /-- A further parameter, or the sign before the body. -/
  | parameter
  /-- An operand, or the bracket that closes an empty list. -/
  | operand
  /-- Whatever may follow a complete operand. -/
  | operator
  deriving DecidableEq, Repr

/-- The terminals that are looked for in a context. A word is a keyword only where the
keyword is looked for; elsewhere it is a name. -/
def Context.accepts (context : Context) (t : Terminal) : Bool :=
  match context with
  | statement =>
    (t matches .ident | .letWord | .funcWord | .printWord | .whileWord | .semicolon | .closeBrace)
  | name => (t matches .ident)
  | becomes => (t matches .becomes)
  | parameter => (t matches .ident | .becomes)
  | operand =>
    (t matches .ident | .number | .trueWord | .falseWord | .bang | .minus | .plus | .openParen
      | .openBracket | .closeParen | .closeBracket)
  | operator => !(t matches .number | .trueWord | .falseWord | .bang | .becomes)

end BellaLang.Source
