-- The operators of the language, their spellings and how tightly they bind.
import BellaLang.Json.Basic

namespace BellaLang

/-- The operators before one operand. -/
inductive UnaryOp where
  | negate
  | plus
  | not
  deriving DecidableEq, Repr

/-- The operators between two operands. -/
inductive BinaryOp where
  | or
  | and
  | equal
  | notEqual
  | less
  | greater
  | atMost
  | atLeast
  | add
  | subtract
  | multiply
  | divide
  | remainder
  deriving DecidableEq, Repr

namespace UnaryOp

def all : List UnaryOp := [negate, plus, not]

def symbol : UnaryOp → String
  | negate => "-"
  | plus => "+"
  | not => "!"

def named : List (Text × UnaryOp) := all.map fun op => (op.symbol, op)

/-- The operator that a name spells. -/
def ofJson? : Json → Option UnaryOp
  | .str s => (named.find? (·.1 = s)).map (·.2)
  | _ => none

def toJson (op : UnaryOp) : Json := .str op.symbol

end UnaryOp

namespace BinaryOp

def all : List BinaryOp :=
  [or, and, equal, notEqual, less, greater, atMost, atLeast, add, subtract, multiply, divide,
   remainder]

def symbol : BinaryOp → String
  | or => "||"
  | and => "&&"
  | equal => "=="
  | notEqual => "!="
  | less => "<"
  | greater => ">"
  | atMost => "<="
  | atLeast => ">="
  | add => "+"
  | subtract => "-"
  | multiply => "*"
  | divide => "/"
  | remainder => "%"

/-- How tightly an operator binds; all operators of one level group to the left. -/
def level : BinaryOp → Nat
  | or => 1
  | and => 2
  | equal | notEqual => 3
  | less | greater | atMost | atLeast => 4
  | add | subtract => 5
  | multiply | divide | remainder => 6

def named : List (Text × BinaryOp) := all.map fun op => (op.symbol, op)

/-- The operator that a name spells. -/
def ofJson? : Json → Option BinaryOp
  | .str s => (named.find? (·.1 = s)).map (·.2)
  | _ => none

def toJson (op : BinaryOp) : Json := .str op.symbol

end BinaryOp

end BellaLang
