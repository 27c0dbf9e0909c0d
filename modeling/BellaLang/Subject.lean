-- What may be asked for its document. A tree has one; a runtime value has none.
import BellaLang.Node.Document
import BellaLang.Value

namespace BellaLang

/-- The word for the sort of a runtime value, as it is held. -/
def Value.sortName : Value → String
  | .number _ => "float"
  | .boolean _ => "bool"
  | .array _ => "ArrayVal"
  | .function _ => "FunctionVal"
  | .foreign v => (Value.foreign v).kind

/-- A tree or a runtime value. -/
inductive Subject where
  | tree (node : Node)
  | value (v : Value)

/-- The document of a tree; a runtime value is refused by its sort. -/
def Subject.toJson : Subject → Except Malformed Json
  | tree node => .ok node.toJson
  | value v => .error (.notTree v.sortName)

end BellaLang
