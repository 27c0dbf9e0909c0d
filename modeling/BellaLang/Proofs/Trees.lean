-- Trees by induction: what holds of a node whenever it holds of its parts holds
-- of every tree. The parts in a list are taken one by one.
import BellaLang.Node.Basic

namespace BellaLang.Node

@[elab_as_elim, induction_eliminator]
theorem inductionOn {motive : Node → Prop}
    (program : ∀ block, motive block → motive (.program block))
    (block : ∀ statements, (∀ s ∈ statements, motive s) → motive (.block statements))
    (variableDeclaration : ∀ name expr, motive expr → motive (.variableDeclaration name expr))
    (functionDeclaration : ∀ name params body, motive body →
      motive (.functionDeclaration name params body))
    (assignment : ∀ name expr, motive expr → motive (.assignment name expr))
    (printStatement : ∀ expr, motive expr → motive (.printStatement expr))
    (whileStatement : ∀ test body, motive test → motive body →
      motive (.whileStatement test body))
    (numeral : ∀ value, motive (.numeral value))
    (booleanLiteral : ∀ value, motive (.booleanLiteral value))
    (identifier : ∀ name, motive (.identifier name))
    (unary : ∀ op operand, motive operand → motive (.unary op operand))
    (binary : ∀ op left right, motive left → motive right → motive (.binary op left right))
    (call : ∀ callee args, (∀ a ∈ args, motive a) → motive (.call callee args))
    (conditional : ∀ test consequent alternate, motive test → motive consequent →
      motive alternate → motive (.conditional test consequent alternate))
    (arrayLiteral : ∀ elements, (∀ e ∈ elements, motive e) → motive (.arrayLiteral elements))
    (subscript : ∀ array index, motive array → motive index → motive (.subscript array index)) :
    ∀ node, motive node := by
  have all : ∀ n, ∀ node : Node, sizeOf node ≤ n → motive node := by
    intro n
    induction n with
    | zero => intro node h; cases node <;> simp at h
    | succ n ih =>
      -- The parts of a node are smaller than it, and so are the members of a list of parts.
      have among : ∀ nodes : List Node, sizeOf nodes ≤ n → ∀ a ∈ nodes, motive a :=
        fun nodes h a ha => ih a (Nat.le_trans (Nat.le_of_lt (List.sizeOf_lt_of_mem ha)) h)
      intro node h
      cases node with simp at h
      | program b => exact program b (ih b (by omega))
      | block statements => exact block statements (among statements (by omega))
      | variableDeclaration name expr => exact variableDeclaration name expr (ih expr (by omega))
      | functionDeclaration name params body =>
        exact functionDeclaration name params body (ih body (by omega))
      | assignment name expr => exact assignment name expr (ih expr (by omega))
      | printStatement expr => exact printStatement expr (ih expr (by omega))
      | whileStatement test body =>
        exact whileStatement test body (ih test (by omega)) (ih body (by omega))
      | numeral value => exact numeral value
      | booleanLiteral value => exact booleanLiteral value
      | identifier name => exact identifier name
      | unary op operand => exact unary op operand (ih operand (by omega))
      | binary op left right =>
        exact binary op left right (ih left (by omega)) (ih right (by omega))
      | call callee args => exact call callee args (among args (by omega))
      | conditional test consequent alternate =>
        exact conditional test consequent alternate (ih test (by omega)) (ih consequent (by omega))
          (ih alternate (by omega))
      | arrayLiteral elements => exact arrayLiteral elements (among elements (by omega))
      | subscript array index =>
        exact subscript array index (ih array (by omega)) (ih index (by omega))
  exact fun node => all (sizeOf node) node (Nat.le_refl _)

end BellaLang.Node
