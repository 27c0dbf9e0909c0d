-- Well-sorted trees: statements where statements are due, expressions where
-- expressions are due, and texts for names and operators. Which texts and
-- numbers may stand where is a parameter.
import BellaLang.Node.Basic

namespace BellaLang

/-- What may stand for the names, the operators and the numbers of a tree. -/
structure Vocabulary where
  /-- Names that are declared, those of parameters among them. -/
  declared : Text → Prop
  assigned : Text → Prop
  /-- Names in expressions, of variables and of functions. -/
  used : Text → Prop
  unary : Text → Prop
  binary : Text → Prop
  numeral : Number → Prop

namespace Node

variable (v : Vocabulary)

inductive IsExpr : Node → Prop
  | numeral {x : Number} (hx : v.numeral x) : IsExpr (.numeral x)
  | booleanLiteral (b : Bool) : IsExpr (.booleanLiteral b)
  | identifier {x : Text} (hx : v.used x) : IsExpr (.identifier (.str x))
  | unary {op : Text} {operand : Node} (hop : v.unary op) (h : IsExpr operand) :
      IsExpr (.unary (.str op) operand)
  | binary {op : Text} {left right : Node} (hop : v.binary op) (hl : IsExpr left)
      (hr : IsExpr right) : IsExpr (.binary (.str op) left right)
  | call {callee : Text} {args : List Node} (hc : v.used callee) (h : ∀ a ∈ args, IsExpr a) :
      IsExpr (.call (.str callee) args)
  | conditional {test consequent alternate : Node} (ht : IsExpr test) (hc : IsExpr consequent)
      (ha : IsExpr alternate) : IsExpr (.conditional test consequent alternate)
  | arrayLiteral {elements : List Node} (h : ∀ e ∈ elements, IsExpr e) :
      IsExpr (.arrayLiteral elements)
  | subscript {array index : Node} (ha : IsExpr array) (hi : IsExpr index) :
      IsExpr (.subscript array index)

/-- The statements over a vocabulary. -/
inductive IsStatement : Node → Prop
  | variableDeclaration {x : Text} {expr : Node} (hx : v.declared x) (h : IsExpr v expr) :
      IsStatement (.variableDeclaration (.str x) expr)
  | functionDeclaration {x : Text} {ps : List Text} {body : Node} (hx : v.declared x)
      (hp : ∀ p ∈ ps, v.declared p) (h : IsExpr v body) :
      IsStatement (.functionDeclaration (.str x) (ps.map .str) body)
  | assignment {x : Text} {expr : Node} (hx : v.assigned x) (h : IsExpr v expr) :
      IsStatement (.assignment (.str x) expr)
  | printStatement {expr : Node} (h : IsExpr v expr) : IsStatement (.printStatement expr)
  | whileStatement {test : Node} {statements : List Node} (ht : IsExpr v test)
      (h : ∀ s ∈ statements, IsStatement s) :
      IsStatement (.whileStatement test (.block statements))

inductive IsProgram : Node → Prop
  | program {statements : List Node} (h : ∀ s ∈ statements, IsStatement v s) :
      IsProgram (.program (.block statements))

/-- The parameters of a declared function are the texts they are written with. -/
theorem IsStatement.of_functionDeclaration {v : Vocabulary} {x : Text} {ps : List Text}
    {body : Node} (h : IsStatement v (.functionDeclaration (.str x) (ps.map .str) body)) :
    v.declared x ∧ (∀ p ∈ ps, v.declared p) ∧ IsExpr v body := by
  generalize hparams : ps.map Json.str = params at h
  cases h with
  | functionDeclaration hx hp hb =>
    have hps := (List.map_inj_right fun _ _ h => Json.str.inj h).1 hparams
    rw [hps]
    exact ⟨hx, hp, hb⟩

end Node

/-! ## Vocabularies within each other -/

/-- What one vocabulary allows, the other allows too. -/
structure Vocabulary.Within (v w : Vocabulary) : Prop where
  declared : ∀ x, v.declared x → w.declared x
  assigned : ∀ x, v.assigned x → w.assigned x
  used : ∀ x, v.used x → w.used x
  unary : ∀ op, v.unary op → w.unary op
  binary : ∀ op, v.binary op → w.binary op
  numeral : ∀ x, v.numeral x → w.numeral x

section within

variable {v w : Vocabulary} {node : Node}

theorem Node.IsExpr.mono (hvw : v.Within w) (h : node.IsExpr v) : node.IsExpr w := by
  induction h with
  | numeral hx => exact .numeral (hvw.numeral _ hx)
  | booleanLiteral b => exact .booleanLiteral b
  | identifier hx => exact .identifier (hvw.used _ hx)
  | unary hop _ ih => exact .unary (hvw.unary _ hop) ih
  | binary hop _ _ ihl ihr => exact .binary (hvw.binary _ hop) ihl ihr
  | call hc _ ih => exact .call (hvw.used _ hc) ih
  | conditional _ _ _ iht ihc iha => exact .conditional iht ihc iha
  | arrayLiteral _ ih => exact .arrayLiteral ih
  | subscript _ _ iha ihi => exact .subscript iha ihi

theorem Node.IsStatement.mono (hvw : v.Within w) (h : node.IsStatement v) :
    node.IsStatement w := by
  induction h with
  | variableDeclaration hx he => exact .variableDeclaration (hvw.declared _ hx) (he.mono hvw)
  | functionDeclaration hx hp he =>
    exact .functionDeclaration (hvw.declared _ hx) (fun p hmem => hvw.declared _ (hp p hmem))
      (he.mono hvw)
  | assignment hx he => exact .assignment (hvw.assigned _ hx) (he.mono hvw)
  | printStatement he => exact .printStatement (he.mono hvw)
  | whileStatement ht _ ih => exact .whileStatement (ht.mono hvw) ih

theorem Node.IsProgram.mono (hvw : v.Within w) (h : node.IsProgram v) : node.IsProgram w := by
  obtain ⟨hstatements⟩ := h
  exact .program fun s hs => (hstatements s hs).mono hvw

end within

end BellaLang
