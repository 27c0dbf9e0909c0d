-- Programs as text. A tree is printed with single spaces between its words and
-- with parentheses only where an expression binds less tightly than its place
-- demands; reading such a text gives the tree back.
import BellaLang.Proofs.Decimals
import BellaLang.Proofs.Operators
import BellaLang.Proofs.Wording

namespace BellaLang.Node

open Source

/-! ## The words of a tree -/

/-- How tightly the operator that a name spells binds. -/
def operatorLevel (op : Json) : Nat := ((BinaryOp.ofJson? op).map BinaryOp.level).getD 1

/-- How tightly an expression binds: conditionals least, then binary operators by their level,
unary operators and subscripts. All other expressions need no parentheses anywhere. -/
def level : Node → Nat
  | conditional _ _ _ => 0
  | binary op _ _ => operatorLevel op
  | unary _ _ => 7
  | subscript _ _ => 8
  | _ => 9

/-- The words of an expression where one of a level is due: in parentheses if the expression
binds less tightly. -/
def grouped (due : Nat) (expr : Node) (words : List Text) : List Text :=
  if expr.level < due then fixed "(" ++ words ++ fixed ")" else words

mutual

/-- The words of a tree in their order. An operator takes operands of its own level on its
left and of tighter levels on its right. -/
def words : Node → List Text
  | program body => words body
  | block statements => sequenceWords statements
  | variableDeclaration name expr => fixed "let" ++ [name.text] ++ fixed "=" ++ words expr
  | functionDeclaration name params body =>
    fixed "func" ++ [name.text] ++ params.map Json.text ++ fixed "=" ++ words body
  | assignment name expr => [name.text] ++ fixed "=" ++ words expr
  | printStatement expr => fixed "print" ++ words expr
  | whileStatement test body =>
    fixed "while" ++ words test ++ (fixed "\x7b" ++ words body ++ fixed "\x7d")
  | numeral value => fixed (value.literal .printed)
  | booleanLiteral value => [if value then "true" else "false"]
  | identifier name => [name.text]
  | unary op operand => [op.text] ++ grouped 7 operand (words operand)
  | binary op left right =>
    grouped (operatorLevel op) left (words left) ++ [op.text] ++
      grouped (operatorLevel op + 1) right (words right)
  | call callee args => [callee.text] ++ fixed "(" ++ argWords args ++ fixed ")"
  | conditional test consequent alternate =>
    grouped 1 test (words test) ++ fixed "?" ++ words consequent ++ fixed ":" ++ words alternate
  | arrayLiteral elements => fixed "[" ++ argWords elements ++ fixed "]"
  | subscript array index =>
    grouped 8 array (words array) ++ fixed "[" ++ words index ++ fixed "]"

/-- Statements follow each other with nothing between them. -/
def sequenceWords : List Node → List Text
  | [] => []
  | statement :: statements => words statement ++ sequenceWords statements

def argWords : List Node → List Text
  | [] => []
  | arg :: args => words arg ++ moreWords args

/-- The words of further arguments, with a comma before each. -/
def moreWords : List Node → List Text
  | [] => []
  | arg :: args => fixed "," ++ words arg ++ moreWords args

end

/-- A tree as text. -/
def printed (node : Node) : Text := Text.join " " (words node)

end BellaLang.Node

namespace BellaLang.Source

open Node

/-- What a tree may hold for its text to give it back: the names and the operators that a source
text may hold, and finite numbers without a sign. -/
def printable : Vocabulary :=
  { vocabulary with numeral := fun x => x.isFinite = true ∧ 0.0 ≤ x ∧ x ≠ -0.0 }

/-! ## Expressions -/

section expressions

variable {e : Node}

@[simp] theorem operatorLevel_symbol (op : BinaryOp) :
    operatorLevel (.str op.symbol) = op.level := by
  rw [operatorLevel, BinaryOp.ofJson?_symbol]
  rfl

theorem level_le_nine (e : Node) : e.level ≤ 9 := by
  have hop : ∀ op, operatorLevel op ≤ 9 := by
    intro op
    unfold operatorLevel
    rcases BinaryOp.ofJson? op with _ | b
    · decide
    · cases b <;> decide
  cases e with
  | binary op left right => exact hop op
  | _ => exact Nat.le_of_ble_eq_true rfl

/-- Parentheses are put where they are needed, so a printed expression is one of any level. -/
theorem writes_grouped {due : Nat} (hd : due ≤ 9) (h : Writes (.expr e.level) e.words e) :
    Writes (.expr due) (grouped due e e.words) e := by
  have h9 := level_le_nine e
  unfold grouped
  split
  · exact (writes_group (h.lower (Nat.zero_le _) h9)).lower hd (Nat.le_refl 9)
  · exact h.lower (by omega) h9

theorem writes_moreArgs {args : List Node} (h : ∀ a ∈ args, Writes (.expr a.level) a.words a) :
    Writes .moreArgs (moreWords args) args := by
  induction args with
  | nil => exact writes_lastArg
  | cons arg args ih =>
    rw [List.forall_mem_cons] at h
    exact writes_nextArg (h.1.lower (Nat.zero_le _) (level_le_nine arg)) (ih h.2)

theorem writes_args {args : List Node} (h : ∀ a ∈ args, Writes (.expr a.level) a.words a) :
    Writes .args (argWords args) args := by
  rcases args with _ | ⟨arg, args⟩
  · exact writes_noArgs
  · rw [List.forall_mem_cons] at h
    exact writes_someArgs (h.1.lower (Nat.zero_le _) (level_le_nine arg)) (writes_moreArgs h.2)

/-- The words of an expression are those of a tree of its level. -/
theorem writes_expr (h : e.IsExpr printable) : Writes (.expr e.level) e.words e := by
  induction h with
  | numeral hx =>
    obtain ⟨s, hs, hvalue⟩ := spells_numeral hx.1 hx.2.1 hx.2.2 .printed
    have hnumeral := writes_numeral hs
    rwa [hvalue] at hnumeral
  | booleanLiteral b => exact writes_booleanLiteral b
  | identifier hx => exact writes_identifier hx
  | unary hop _ ih =>
    obtain ⟨op, rfl⟩ := hop
    exact writes_unary op (writes_grouped (by decide) ih)
  | binary hop _ _ ihl ihr =>
    obtain ⟨op, rfl⟩ := hop
    have hbounds := level_bounds op
    rw [level, words, operatorLevel_symbol]
    -- Operators group to the left, so only the left operand may be of the same level.
    exact writes_binary op (writes_grouped (by omega) ihl) (writes_grouped (by omega) ihr)
  | call hc _ ih => exact writes_call hc (writes_args ih)
  | @conditional test consequent alternate _ _ _ iht ihc iha =>
    have hlower : ∀ {e : Node}, Writes (.expr e.level) e.words e → Writes (.expr 0) e.words e :=
      fun h => h.lower (Nat.zero_le _) (level_le_nine _)
    exact writes_conditional (writes_grouped (by decide) iht) (hlower ihc) (hlower iha)
  | arrayLiteral _ ih => exact writes_arrayLiteral (writes_args ih)
  | subscript _ _ iha ihi =>
    exact writes_subscript (writes_grouped (by decide) iha)
      (ihi.lower (Nat.zero_le _) (level_le_nine _))

end expressions

/-! ## Statements and programs -/

section statements

variable {e statement program : Node} {statements : List Node}

theorem writes_params {params : List Text} (h : ∀ p ∈ params, IsName [] p) :
    Writes .params params params := by
  induction params with
  | nil => exact writes_noParams
  | cons p params ih =>
    rw [List.forall_mem_cons] at h
    exact writes_param h.1 (ih h.2)

theorem writes_items (h : ∀ s ∈ statements, Writes .statement s.words s) :
    Writes .items (sequenceWords statements) statements := by
  induction statements with
  | nil => exact writes_noItems
  | cons statement statements ih =>
    rw [List.forall_mem_cons] at h
    exact writes_statementItem h.1 (ih h.2)

theorem writes_statement (h : statement.IsStatement printable) :
    Writes .statement statement.words statement := by
  have hexpr : ∀ {e : Node}, e.IsExpr printable → Writes (.expr 0) e.words e :=
    fun h => (writes_expr h).lower (Nat.zero_le _) (level_le_nine _)
  induction h with
  | variableDeclaration hx h => exact writes_variableDeclaration hx (hexpr h)
  | @functionDeclaration x ps body hx hp h =>
    have hfunction := writes_functionDeclaration hx (writes_params hp) (hexpr h)
    simpa [words, Json.text, Function.comp_def] using hfunction
  | assignment hx h => exact writes_assignment hx (hexpr h)
  | printStatement h => exact writes_printStatement (hexpr h)
  | whileStatement ht _ ih =>
    exact writes_whileStatement (hexpr ht) (writes_block (writes_items ih))

end statements

/-- Reading the text of a program gives the program back. -/
theorem parsing_undoes_printing {program : Node} (h : program.IsProgram printable) :
    parse program.printed = .ok program := by
  obtain ⟨hstatements⟩ := h
  exact parse_of_writes (writes_program (writes_items fun s hs => writes_statement
    (hstatements s hs))) (laid_join _)

theorem isName_of_letters {reserved : List Terminal} {s : String} (hne : s.toList ≠ [])
    (hs : s.toList.all isWordStart = true)
    (hk : ∀ k ∈ Terminal.keywords, k.2 ∈ reserved → k.1 ≠ s.toList) : IsName reserved s := by
  obtain ⟨c, tail, hc⟩ := List.exists_cons_of_ne_nil hne
  rw [hc, List.all_eq_true, List.forall_mem_cons] at hs
  exact ⟨s.toList, rfl, ⟨c, tail, hc, hs.1, fun d hd => by simp [isWordPart, hs.2 d hd]⟩, hk⟩

/-- Keywords are names where they are not looked for, and what groups to the right keeps its
parentheses. -/
theorem parsing_undoes_printing_of_groups :
    let program : Node := .program (.block
      [.variableDeclaration (.str "true") (.binary (.str "-") (.numeral 1.5)
        (.binary (.str "-") (.numeral 2.0) (.identifier (.str "let")))),
       .assignment (.str "x") (.subscript (.unary (.str "-") (.identifier (.str "f")))
         (.conditional (.booleanLiteral true) (.numeral 0.0) (.numeral 1e22)))])
    program.printed =
      "let true = 1.5 - ( 2.0 - let ) x = ( - f ) [ true ? 0.0 : 1e+22 ]" ∧
    parse program.printed = .ok program := by
  have hnumeral : ∀ x ∈ [1.5, 2.0, 0.0, 1e22], printable.numeral x := by
    have hnumbers : ∀ x ∈ [1.5, 2.0, 0.0, (1e22 : Number)],
      x.isFinite = true ∧ 0.0 ≤ x ∧ x ≠ -0.0 := by decide +kernel
    exact hnumbers
  refine ⟨by decide +kernel, parsing_undoes_printing (.program ?_)⟩
  rw [List.forall_mem_cons, List.forall_mem_singleton]
  constructor
  · refine .variableDeclaration ?_ (.binary ⟨.subtract, rfl⟩ (.numeral (hnumeral _ (by simp)))
      (.binary ⟨.subtract, rfl⟩ (.numeral (hnumeral _ (by simp))) (.identifier ?_)))
    · exact isName_of_letters (by decide) (by decide) (by decide)
    · exact isName_of_letters (by decide) (by decide) (by decide)
  · refine .assignment ?_ (.subscript (.unary ⟨.negate, rfl⟩ (.identifier ?_))
      (.conditional (.booleanLiteral true) (.numeral (hnumeral _ (by simp)))
        (.numeral (hnumeral _ (by simp)))))
    · exact isName_of_letters (by decide) (by decide) (by decide)
    · exact isName_of_letters (by decide) (by decide) (by decide)

end BellaLang.Source
