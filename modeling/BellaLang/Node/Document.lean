-- A tree as a document: every node is an object whose member `type` names the
-- node's type. Writing gives one form; reading is freer, takes numerals and
-- truth values in other forms, and reports the first thing that is wrong.
import BellaLang.Node.Basic
import BellaLang.Number.Read

namespace BellaLang

/-! ## What can be wrong -/

/-- Why a document is not a tree. -/
inductive Malformed where
  | notObject
  | unknownType (shown : Text)
  | missing (field : String)
  | notNumeric (sort : String)
  | notSpelled (text : Text)
  | tooLarge
  | notIterable (sort : String)
  | notTree (sort : String)
  deriving DecidableEq, Repr

/-- The wording of what is wrong. -/
def Malformed.message : Malformed → Text
  | notObject => "Invalid AST object"
  | unknownType shown => "Unknown AST node type: " ++ shown
  | missing field => Json.quotedText field
  | notNumeric sort => "float() argument must be a string or a real number, not '" ++ sort ++ "'"
  | notSpelled text => "could not convert string to float: " ++ Json.quotedText text
  | tooLarge => "int too large to convert to float"
  | notIterable sort => "'" ++ sort ++ "' object is not iterable"
  | notTree sort => "Unsupported node for serialization: " ++ sort

namespace Node

/-! ## Writing -/

/-- An object with the given type and further members. -/
def typed (type : String) (members : List (Text × Json)) : Json :=
  .obj (("type", .str type) :: members)

mutual

/-- The document of a tree. -/
def toJson : Node → Json
  | program b => typed "Program" [("block", toJson b)]
  | block statements => typed "Block" [("statements", .arr (toJsonItems statements))]
  | variableDeclaration name expr =>
    typed "VariableDeclaration" [("name", name), ("expr", toJson expr)]
  | functionDeclaration name params body =>
    typed "FunctionDeclaration" [("name", name), ("params", .arr params), ("body", toJson body)]
  | assignment name expr => typed "Assignment" [("name", name), ("expr", toJson expr)]
  | printStatement expr => typed "PrintStatement" [("expr", toJson expr)]
  | whileStatement test body =>
    typed "WhileStatement" [("test", toJson test), ("body", toJson body)]
  | numeral value => typed "Numeral" [("value", .float value)]
  | booleanLiteral value => typed "BooleanLiteral" [("value", .bool value)]
  | identifier name => typed "Identifier" [("name", name)]
  | unary op operand => typed "UnaryExpression" [("op", op), ("operand", toJson operand)]
  | binary op left right =>
    typed "BinaryExpression" [("op", op), ("left", toJson left), ("right", toJson right)]
  | call callee args =>
    typed "CallExpression" [("callee", callee), ("args", .arr (toJsonItems args))]
  | conditional test consequent alternate =>
    typed "ConditionalExpression"
      [("test", toJson test), ("consequent", toJson consequent), ("alternate", toJson alternate)]
  | arrayLiteral elements => typed "ArrayLiteral" [("elements", .arr (toJsonItems elements))]
  | subscript array index =>
    typed "SubscriptExpression" [("array", toJson array), ("index", toJson index)]

/-- The documents of some trees. -/
def toJsonItems : List Node → List Json
  | [] => []
  | node :: nodes => toJson node :: toJsonItems nodes

end

/-! ## Reading the parts of a node -/

/-- The number that a JSON value stands for. -/
def numberOf : Json → Except Malformed Number
  | .bool b => .ok (if b then 1 else 0)
  | .int n =>
    match Number.ofInt? n with
    | some x => .ok x
    | none => .error .tooLarge
  | .float x => .ok x
  | .str s =>
    match Number.ofText? s.chars with
    | some x => .ok x
    | none => .error (.notSpelled s)
  | other => .error (.notNumeric other.sortName)

/-- The values that a JSON value runs through: the items of a list, the code points of a text
or the names of an object. -/
def itemsOf : Json → Except Malformed (List Json)
  | .arr items => .ok items
  | .str s => .ok (s.map fun p => .str [p])
  | .obj members => .ok (members.map fun m => .str m.1)
  | other => .error (.notIterable other.sortName)

theorem sizeOf_member? {name : Text} {members : List (Text × Json)} {value : Json}
    (h : Json.member? name members = some value) : sizeOf value < sizeOf members := by
  unfold Json.member? at h
  obtain ⟨m, hm, rfl⟩ := Option.map_eq_some_iff.1 h
  have := List.sizeOf_lt_of_mem (List.mem_of_find?_eq_some hm)
  have : sizeOf m = 1 + sizeOf m.1 + sizeOf m.2 := by cases m; rfl
  omega

/-- The value of a member that must be there; it is smaller than the object that holds it. -/
def field (name : String) (members : List (Text × Json)) :
    Except Malformed { value : Json // sizeOf value < sizeOf members } :=
  match h : Json.member? name members with
  | some value => .ok ⟨value, sizeOf_member? h⟩
  | none => .error (.missing name)

/-! ## Reading -/

/-- The word that names the type of a node. No type has the replacement character in its word,
so half of a pair makes the word unknown. -/
def typeWord? (members : List (Text × Json)) : Option String :=
  match Json.member? "type" members with
  | some (.str s) => some s.string
  | _ => none

mutual

/-- The tree of a document. The members of a node are read in the order in which they are
written, and the first one that is missing or wrong is reported. -/
def ofJson : Json → Except Malformed Node
  | .obj members =>
    match typeWord? members with
    | some "Program" => do
      let ⟨b, _⟩ ← field "block" members
      return program (← ofJson b)
    | some "Block" => do
      let ⟨statements, _⟩ ← field "statements" members
      return block (← ofJsonItems statements)
    | some "VariableDeclaration" => do
      let ⟨name, _⟩ ← field "name" members
      let ⟨expr, _⟩ ← field "expr" members
      return variableDeclaration name (← ofJson expr)
    | some "FunctionDeclaration" => do
      let ⟨name, _⟩ ← field "name" members
      let ⟨params, _⟩ ← field "params" members
      let params ← itemsOf params
      let ⟨body, _⟩ ← field "body" members
      return functionDeclaration name params (← ofJson body)
    | some "Assignment" => do
      let ⟨name, _⟩ ← field "name" members
      let ⟨expr, _⟩ ← field "expr" members
      return assignment name (← ofJson expr)
    | some "PrintStatement" => do
      let ⟨expr, _⟩ ← field "expr" members
      return printStatement (← ofJson expr)
    | some "WhileStatement" => do
      let ⟨test, _⟩ ← field "test" members
      let test ← ofJson test
      let ⟨body, _⟩ ← field "body" members
      return whileStatement test (← ofJson body)
    | some "Numeral" => do
      let ⟨value, _⟩ ← field "value" members
      return numeral (← numberOf value)
    | some "BooleanLiteral" => do
      let ⟨value, _⟩ ← field "value" members
      return booleanLiteral value.truthy
    | some "Identifier" => do
      let ⟨name, _⟩ ← field "name" members
      return identifier name
    | some "UnaryExpression" => do
      let ⟨op, _⟩ ← field "op" members
      let ⟨operand, _⟩ ← field "operand" members
      return unary op (← ofJson operand)
    | some "BinaryExpression" => do
      let ⟨op, _⟩ ← field "op" members
      let ⟨left, _⟩ ← field "left" members
      let left ← ofJson left
      let ⟨right, _⟩ ← field "right" members
      return binary op left (← ofJson right)
    | some "CallExpression" => do
      let ⟨callee, _⟩ ← field "callee" members
      let ⟨args, _⟩ ← field "args" members
      return call callee (← ofJsonItems args)
    | some "ConditionalExpression" => do
      let ⟨test, _⟩ ← field "test" members
      let test ← ofJson test
      let ⟨consequent, _⟩ ← field "consequent" members
      let consequent ← ofJson consequent
      let ⟨alternate, _⟩ ← field "alternate" members
      return conditional test consequent (← ofJson alternate)
    | some "ArrayLiteral" => do
      let ⟨elements, _⟩ ← field "elements" members
      return arrayLiteral (← ofJsonItems elements)
    | some "SubscriptExpression" => do
      let ⟨array, _⟩ ← field "array" members
      let array ← ofJson array
      let ⟨index, _⟩ ← field "index" members
      return subscript array (← ofJson index)
    | _ => .error (.unknownType ((Json.member? "type" members).getD .null).text)
  | _ => .error .notObject
termination_by json => sizeOf json

/-- The trees of the values that a JSON value runs through. A code point and a name are no
trees, so only a list, an empty text and an empty object are accepted. -/
def ofJsonItems : Json → Except Malformed (List Node)
  | .arr items => ofJsonList items
  | .str s => if s.isEmpty then .ok [] else .error .notObject
  | .obj members => if members.isEmpty then .ok [] else .error .notObject
  | other => .error (.notIterable other.sortName)
termination_by json => sizeOf json

/-- The trees of a list of documents. -/
def ofJsonList : List Json → Except Malformed (List Node)
  | [] => .ok []
  | json :: rest => do
    let node ← ofJson json
    return node :: (← ofJsonList rest)
termination_by items => sizeOf items

end

end Node

end BellaLang
