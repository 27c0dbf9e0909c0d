-- The tree of a program. A tree may also come from a document, so it need not
-- be well sorted, and its names and operators may be any JSON values.
import BellaLang.Json.Basic

namespace BellaLang

/-- A node of a program's tree. -/
inductive Node where
  | program (block : Node)
  | block (statements : List Node)
  | variableDeclaration (name : Json) (expr : Node)
  | functionDeclaration (name : Json) (params : List Json) (body : Node)
  | assignment (name : Json) (expr : Node)
  | printStatement (expr : Node)
  | whileStatement (test body : Node)
  | numeral (value : Number)
  | booleanLiteral (value : Bool)
  | identifier (name : Json)
  | unary (op : Json) (operand : Node)
  | binary (op : Json) (left right : Node)
  | call (callee : Json) (args : List Node)
  | conditional (test consequent alternate : Node)
  | arrayLiteral (elements : List Node)
  | subscript (array index : Node)
  deriving Inhabited

namespace Node

/-- The word for the type of a node. -/
def typeName : Node → String
  | program _ => "Program"
  | block _ => "Block"
  | variableDeclaration _ _ => "VariableDeclaration"
  | functionDeclaration _ _ _ => "FunctionDeclaration"
  | assignment _ _ => "Assignment"
  | printStatement _ => "PrintStatement"
  | whileStatement _ _ => "WhileStatement"
  | numeral _ => "Numeral"
  | booleanLiteral _ => "BooleanLiteral"
  | identifier _ => "Identifier"
  | unary _ _ => "UnaryExpression"
  | binary _ _ _ => "BinaryExpression"
  | call _ _ => "CallExpression"
  | conditional _ _ _ => "ConditionalExpression"
  | arrayLiteral _ => "ArrayLiteral"
  | subscript _ _ => "SubscriptExpression"

end Node

end BellaLang
