-- What ends a run early: a fault of the program, a defect of a tree that is not
-- well formed, calls nested too deeply, or loops that outlast their bound.
import BellaLang.Value

namespace BellaLang

/-! ## Faults of a program -/

inductive FaultKind where
  | duplicateDeclaration
  | undeclaredIdentifier
  | typeMismatch
  | arityMismatch
  | notCallable
  | indexOutOfRange
  | unknownOperator
  deriving DecidableEq, Repr

def FaultKind.name : FaultKind → String
  | duplicateDeclaration => "DuplicateDeclaration"
  | undeclaredIdentifier => "UndeclaredIdentifier"
  | typeMismatch => "TypeMismatch"
  | arityMismatch => "ArityMismatch"
  | notCallable => "NotCallable"
  | indexOutOfRange => "IndexOutOfRange"
  | unknownOperator => "UnknownOperator"

/-- What a program can do wrong. Kinds of values are given by their words, and numbers that
stand in a message by their texts. -/
inductive Fault where
  | alreadyDeclared (name : Json)
  | repeatedParameter (param function : Json)
  | undeclared (name : Json)
  | assignedFunction (name : Json)
  | functionAsValue (name : Json)
  | notFunction (name : Json)
  | wrongArity (function : Json) (expected got : Nat)
  | wrongArgument (function : Json) (position : Nat) (kind : String)
  | notBoolean (op : Json) (kind : String)
  | notNumber (op : Json) (kind : String)
  | incomparable (op : Json) (left right : String)
  | unknownUnary (op : Json)
  | unknownBinary (op : Json)
  | loopTest (kind : String)
  | conditionalTest (kind : String)
  | notIndexable (kind : String)
  | indexNotIntegral (index : Text)
  | indexOutOfRange (index : Text) (length : Nat)

namespace Fault

def kind : Fault → FaultKind
  | alreadyDeclared _ => .duplicateDeclaration
  | repeatedParameter _ _ => .duplicateDeclaration
  | undeclared _ => .undeclaredIdentifier
  | assignedFunction _ => .typeMismatch
  | functionAsValue _ => .typeMismatch
  | notFunction _ => .notCallable
  | wrongArity _ _ _ => .arityMismatch
  | wrongArgument _ _ _ => .typeMismatch
  | notBoolean _ _ => .typeMismatch
  | notNumber _ _ => .typeMismatch
  | incomparable _ _ _ => .typeMismatch
  | unknownUnary _ => .unknownOperator
  | unknownBinary _ => .unknownOperator
  | loopTest _ => .typeMismatch
  | conditionalTest _ => .typeMismatch
  | notIndexable _ => .typeMismatch
  | indexNotIntegral _ => .typeMismatch
  | indexOutOfRange _ _ => .indexOutOfRange

/-- The name or operator at fault, if there is one. -/
def name? : Fault → Option Json
  | alreadyDeclared name => some name
  | repeatedParameter param _ => some param
  | undeclared name => some name
  | assignedFunction name => some name
  | functionAsValue name => some name
  | notFunction name => some name
  | wrongArity function _ _ => some function
  | wrongArgument function _ _ => some function
  | notBoolean op _ => some op
  | notNumber op _ => some op
  | incomparable op _ _ => some op
  | unknownUnary op => some op
  | unknownBinary op => some op
  | loopTest _ => none
  | conditionalTest _ => none
  | notIndexable _ => none
  | indexNotIntegral _ => none
  | indexOutOfRange _ _ => none

/-- What is said of a fault after its kind. -/
def detail : Fault → Text
  | alreadyDeclared name => name.text ++ " already declared"
  | repeatedParameter param function =>
    "parameter " ++ param.text ++ " repeated in function " ++ function.text
  | undeclared name => "variable " ++ name.text ++ " not declared"
  | assignedFunction name => "cannot assign to function " ++ name.text
  | functionAsValue name => "function " ++ name.text ++ " cannot be used as a value"
  | notFunction name => name.text ++ " is not a function"
  | wrongArity function expected got =>
    function.text ++ " expects " ++ Json.intText expected ++ " arguments, got "
      ++ Json.intText got
  | wrongArgument function position kind =>
    "argument " ++ Json.intText position ++ " of " ++ function.text
      ++ " must be a Number, got " ++ kind
  | notBoolean op kind => "operator " ++ op.text ++ " expects Boolean operands, got " ++ kind
  | notNumber op kind => "operator " ++ op.text ++ " expects Number operands, got " ++ kind
  | incomparable op left right =>
    "cannot compare " ++ left ++ " and " ++ right ++ " with " ++ op.text
  | unknownUnary op => "unknown unary operator " ++ op.text
  | unknownBinary op => "unknown binary operator " ++ op.text
  | loopTest kind => "while test must be Boolean, got " ++ kind
  | conditionalTest kind => "conditional test must be Boolean, got " ++ kind
  | notIndexable kind => "cannot index type " ++ kind
  | indexNotIntegral index => "array index must be an integral Number, got " ++ index
  | indexOutOfRange index length =>
    "array index " ++ index ++ " out of range for length " ++ Json.intText length

def message (f : Fault) : Text :=
  f.kind.name ++ ": " ++ f.detail

end Fault

/-! ## Defects of a tree -/

/-- What shows, while it runs, that a tree is not well formed. -/
inductive Defect where
  /-- A name that cannot be a name. -/
  | unusableName (sort : String)
  /-- A parameter that cannot be written in a trace line. -/
  | unwritableParameter (index : Nat) (sort : String)
  /-- A trace line that cannot be stored, because half of a pair has no bytes. -/
  | unwritableLine (halves : Text.Halves)
  | notStatement (type : String)
  | notExpression (type : String)
  | notProgram (type : String)
  | notBlock (type : String)
  deriving DecidableEq, Repr

def Defect.message : Defect → String
  | unusableName sort => "unhashable type: '" ++ sort ++ "'"
  | unwritableParameter index sort =>
    "sequence item " ++ Json.intText index ++ ": expected str instance, " ++ sort ++ " found"
  | unwritableLine halves =>
    let place :=
      if halves.count = 1 then
        " '" ++ String.ofList (Text.escapeHalf halves.first) ++ "' in position "
          ++ Json.intText halves.offset
      else
        "s in position " ++ Json.intText halves.offset ++ "-"
          ++ Json.intText (halves.offset + halves.count - 1)
    "'utf-8' codec can't encode character" ++ place ++ ": surrogates not allowed"
  | notStatement type => "execute: unexpected node type " ++ type
  | notExpression type => "evaluate: unexpected node type " ++ type
  | notProgram type => "'" ++ type ++ "' object has no attribute 'block'"
  | notBlock type => "'" ++ type ++ "' object has no attribute 'statements'"

/-! ## Ends of a run -/

/-- Why a run ends before its program does. -/
inductive Stop where
  | fault (f : Fault)
  | defect (d : Defect)
  /-- Calls are nested beyond the limit. -/
  | tooDeep
  /-- A loop ran through all the rounds it was given; the run has no result yet. -/
  | outOfFuel

end BellaLang
