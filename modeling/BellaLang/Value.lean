-- Runtime values: numbers, booleans and arrays, the descriptors of declared
-- functions, and foreign values that a caller may hand in but no program makes.
import BellaLang.Node.Basic

namespace BellaLang

/-- A value that is none of the language's own. -/
inductive Foreign where
  | null
  | integer (n : Int)
  | text (s : Text)

/-- A declared function: its name, its parameters and the expression it stands for. -/
structure Function where
  name : Json
  params : List Json
  body : Node

/-- The number of arguments that a function takes. -/
def Function.arity (f : Function) : Nat := f.params.length

inductive Value where
  | number (x : Number)
  | boolean (b : Bool)
  | array (items : List Value)
  | function (f : Function)
  | foreign (v : Foreign)
  deriving Inhabited

namespace Value

/-! ## Kinds -/

def isNumber : Value → Bool
  | number _ => true
  | _ => false

def isBoolean : Value → Bool
  | boolean _ => true
  | _ => false

/-- The word for the kind of a value. -/
def kind : Value → String
  | number _ => "Number"
  | boolean _ => "Boolean"
  | array _ => "Array"
  | function _ => "Function"
  | foreign .null => "NoneType"
  | foreign (.integer _) => "int"
  | foreign (.text _) => "str"

/-! ## Text -/

/-- How a function is shown. -/
def functionText (f : Function) : Text :=
  "<function " ++ f.name.text ++ ">"

mutual

/-- The text that a print statement writes. -/
def text : Value → Text
  | number x => x.text
  | boolean b => if b then "true" else "false"
  | array items => "[" ++ Text.join ", " (texts items) ++ "]"
  | function f => functionText f
  | foreign .null => "None"
  | foreign (.integer n) => Json.intText n
  | foreign (.text s) => s

def texts : List Value → List Text
  | [] => []
  | value :: values => text value :: texts values

end

mutual

/-- How a value is shown for inspection: an array names its kind, numbers are in literal form
and texts are quoted. -/
def inspected : Value → Text
  | number x => x.literal .nested
  | boolean b => if b then "True" else "False"
  | array items => "Array([" ++ Text.join ", " (inspectedItems items) ++ "])"
  | function f => functionText f
  | foreign .null => "None"
  | foreign (.integer n) => Json.intText n
  | foreign (.text s) => Json.quotedText s

def inspectedItems : List Value → List Text
  | [] => []
  | value :: values => inspected value :: inspectedItems values

end

end Value

end BellaLang
