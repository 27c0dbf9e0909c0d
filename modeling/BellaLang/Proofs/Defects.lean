-- The defects of a tree: nodes that stand where no node of their sort may stand, and
-- names that cannot be names. They are there whether a run comes upon them or not.
import BellaLang.Fault

namespace BellaLang

/-! ## Names -/

/-- The defect of a name that cannot be one. -/
def nameDefects (name : Json) : List Defect :=
  match name.key? with
  | some _ => []
  | none => [.unusableName name.sortName]

theorem mem_nameDefects {name : Json} (h : name.key? = none) :
    .unusableName name.sortName ∈ nameDefects name := by
  simp [nameDefects, h]

/-! ## Trees -/

namespace Node

mutual

/-- The defects of a tree that stands where an expression is due. -/
def exprDefects : Node → List Defect
  | .numeral _ => []
  | .booleanLiteral _ => []
  | .identifier name => nameDefects name
  | .unary _ operand => operand.exprDefects
  | .binary _ left right => left.exprDefects ++ right.exprDefects
  | .call callee args => nameDefects callee ++ exprDefectsOfAll args
  | .conditional test consequent alternate =>
    test.exprDefects ++ (consequent.exprDefects ++ alternate.exprDefects)
  | .arrayLiteral elements => exprDefectsOfAll elements
  | .subscript array index => array.exprDefects ++ index.exprDefects
  | other => [.notExpression other.typeName]

def exprDefectsOfAll : List Node → List Defect
  | [] => []
  | node :: nodes => node.exprDefects ++ exprDefectsOfAll nodes

end

mutual

/-- The defects of a tree that stands where a statement is due. -/
def statementDefects : Node → List Defect
  | .variableDeclaration name expr => nameDefects name ++ expr.exprDefects
  | .functionDeclaration name params body =>
    nameDefects name ++ (params.flatMap nameDefects ++ body.exprDefects)
  | .assignment name expr => nameDefects name ++ expr.exprDefects
  | .printStatement expr => expr.exprDefects
  | .whileStatement test body => test.exprDefects ++ body.blockDefects
  | other => [.notStatement other.typeName]

/-- The defects of a tree that stands where a block is due. -/
def blockDefects : Node → List Defect
  | .block statements => statementDefectsOfAll statements
  | other => [.notBlock other.typeName]

def statementDefectsOfAll : List Node → List Defect
  | [] => []
  | node :: nodes => node.statementDefects ++ statementDefectsOfAll nodes

end

/-- The defects of a tree that is run as a program. -/
def programDefects : Node → List Defect
  | .program inner => inner.blockDefects
  | other => [.notProgram other.typeName]

section lists

variable {node : Node} {nodes : List Node}

theorem exprDefects_subset (h : node ∈ nodes) : node.exprDefects ⊆ exprDefectsOfAll nodes := by
  induction nodes with
  | nil => cases h
  | cons first nodes ih =>
    rcases List.mem_cons.1 h with rfl | h
    · exact List.subset_append_left _ _
    · exact List.Subset.trans (ih h) (List.subset_append_right _ _)

theorem statementDefects_subset (h : node ∈ nodes) :
    node.statementDefects ⊆ statementDefectsOfAll nodes := by
  induction nodes with
  | nil => cases h
  | cons first nodes ih =>
    rcases List.mem_cons.1 h with rfl | h
    · exact List.subset_append_left _ _
    · exact List.Subset.trans (ih h) (List.subset_append_right _ _)

end lists

end Node

end BellaLang
