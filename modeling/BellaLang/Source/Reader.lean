-- The reader of programs. It takes one lexeme at a time and keeps what it has
-- read so far: the open blocks, the statements done, and the expression under
-- way as a stack of what still waits for an operand. Each lexeme either leads
-- to the next state or is refused at once.
import BellaLang.Node.Basic
import BellaLang.Source.Lexeme

namespace BellaLang.Source

/-! ## States -/

/-- What an expression under way waits for, innermost first on a stack. Lists are kept with
the newest part first. -/
inductive Pending where
  /-- An operator before its operand. -/
  | unary (op : UnaryOp)
  /-- An operator after its left operand. -/
  | binary (left : Node) (op : BinaryOp)
  | group
  | call (callee : Text) (args : List Node)
  | array (elements : List Node)
  | subscript (base : Node)
  /-- A conditional after its question mark. -/
  | consequent (test : Node)
  /-- A conditional after its colon. -/
  | alternate (test consequent : Node)

inductive Head where
  | variableDeclaration (name : Text)
  | functionDeclaration (name : Text) (params : List Text)
  | assignment (name : Text)
  | printStatement
  | whileStatement

/-- Where in a statement the reader stands. -/
inductive Mode where
  | statement
  | variableName
  /-- After the name of a variable declaration. -/
  | variableBecomes (name : Text)
  | functionName
  /-- After the name of a function declaration or one of its parameters, newest first. -/
  | parameters (name : Text) (params : List Text)
  /-- After the name of an assignment. -/
  | assignmentBecomes (name : Text)
  | operand (head : Head) (pending : List Pending)
  /-- After a name in an expression. -/
  | named (head : Head) (pending : List Pending) (name : Text)
  /-- After any other operand. -/
  | operator (head : Head) (pending : List Pending) (expr : Node)

/-- The state of the reader. Each open block comes with the test of its loop and the
statements before the loop, newest first; `done` holds the statements of the innermost
block. -/
structure Reader where
  outer : List (Node × List Node)
  done : List Node
  mode : Mode

def Reader.start : Reader := ⟨[], [], .statement⟩

/-- The context in which the next lexeme is looked for. -/
def Reader.context (r : Reader) : Context :=
  match r.mode with
  | .statement => .statement
  | .variableName => .name
  | .variableBecomes _ => .becomes
  | .functionName => .name
  | .parameters _ _ => .parameter
  | .assignmentBecomes _ => .becomes
  | .operand _ _ => .operand
  | .named _ _ _ => .operator
  | .operator _ _ _ => .operator

/-! ## Completing what is pending -/

/-- The operators that bind at least as tightly as the given level take the expression as
their last operand. -/
def reduce (level : Nat) : List Pending → Node → List Pending × Node
  | .unary op :: pending, expr => reduce level pending (.unary op.toJson expr)
  | .binary left op :: pending, expr =>
    if level ≤ op.level then reduce level pending (.binary op.toJson left expr)
    else (.binary left op :: pending, expr)
  | pending, expr => (pending, expr)

/-- Everything down to the innermost open bracket or question mark takes the expression as
its last part. -/
def close : List Pending → Node → List Pending × Node
  | .unary op :: pending, expr => close pending (.unary op.toJson expr)
  | .binary left op :: pending, expr => close pending (.binary op.toJson left expr)
  | .alternate test consequent :: pending, expr =>
    close pending (.conditional test consequent expr)
  | pending, expr => (pending, expr)

/-- The statement that a head and its expression make; a loop still needs its block. -/
def Head.complete? : Head → Node → Option Node
  | .variableDeclaration name, expr => some (.variableDeclaration (.str name) expr)
  | .functionDeclaration name params, expr =>
    some (.functionDeclaration (.str name) (params.map .str) expr)
  | .assignment name, expr => some (.assignment (.str name) expr)
  | .printStatement, expr => some (.printStatement expr)
  | .whileStatement, _ => none

/-! ## Steps -/

namespace Reader

def wordOf (lexeme : Lexeme) : Text := .ofChars lexeme.text

def stepStatement (r : Reader) (lexeme : Lexeme) : Option Reader :=
  match lexeme.terminal with
  | .semicolon => some { r with mode := .statement }
  | .letWord => some { r with mode := .variableName }
  | .funcWord => some { r with mode := .functionName }
  | .printWord => some { r with mode := .operand .printStatement [] }
  | .whileWord => some { r with mode := .operand .whileStatement [] }
  | .ident => some { r with mode := .assignmentBecomes (wordOf lexeme) }
  | .closeBrace =>
    match r.outer with
    | [] => none
    | (test, before) :: outer =>
      some ⟨outer, .whileStatement test (.block r.done.reverse) :: before, .statement⟩
  | _ => none

/-- The mode after a lexeme read where an operand is due. -/
def stepOperand (head : Head) (pending : List Pending) (lexeme : Lexeme) : Option Mode :=
  match lexeme.terminal.unary? with
  | some op => some (.operand head (.unary op :: pending))
  | none =>
    match lexeme.terminal, pending with
    | .ident, _ => some (.named head pending (wordOf lexeme))
    | .number, _ => some (.operator head pending (.numeral lexeme.number))
    | .trueWord, _ => some (.operator head pending (.booleanLiteral true))
    | .falseWord, _ => some (.operator head pending (.booleanLiteral false))
    | .openParen, _ => some (.operand head (.group :: pending))
    | .openBracket, _ => some (.operand head (.array [] :: pending))
    | .closeParen, .call callee [] :: pending =>
      some (.operator head pending (.call (.str callee) []))
    | .closeBracket, .array [] :: pending => some (.operator head pending (.arrayLiteral []))
    | _, _ => none

def stepOperator (r : Reader) (head : Head) (pending : List Pending) (expr : Node)
    (lexeme : Lexeme) : Option Reader :=
  match lexeme.terminal.binary? with
  | some op =>
    let (pending, left) := reduce op.level pending expr
    some { r with mode := .operand head (.binary left op :: pending) }
  | none =>
    match lexeme.terminal with
    | .openBracket => some { r with mode := .operand head (.subscript expr :: pending) }
    | .question =>
      let (pending, test) := reduce 0 pending expr
      some { r with mode := .operand head (.consequent test :: pending) }
    | .colon =>
      match close pending expr with
      | (.consequent test :: pending, consequent) =>
        some { r with mode := .operand head (.alternate test consequent :: pending) }
      | _ => none
    | .comma =>
      match close pending expr with
      | (.call callee args :: pending, arg) =>
        some { r with mode := .operand head (.call callee (arg :: args) :: pending) }
      | (.array elements :: pending, element) =>
        some { r with mode := .operand head (.array (element :: elements) :: pending) }
      | _ => none
    | .closeParen =>
      match close pending expr with
      | (.group :: pending, inner) => some { r with mode := .operator head pending inner }
      | (.call callee args :: pending, arg) =>
        some { r with
          mode := .operator head pending (.call (.str callee) (arg :: args).reverse) }
      | _ => none
    | .closeBracket =>
      match close pending expr with
      | (.array elements :: pending, element) =>
        some { r with
          mode := .operator head pending (.arrayLiteral (element :: elements).reverse) }
      | (.subscript base :: pending, index) =>
        some { r with mode := .operator head pending (.subscript base index) }
      | _ => none
    | .openBrace =>
      match head, close pending expr with
      | .whileStatement, ([], test) => some ⟨(test, r.done) :: r.outer, [], .statement⟩
      | _, _ => none
    | _ =>
      match close pending expr with
      | ([], expr) => do
        let statement ← head.complete? expr
        stepStatement ⟨r.outer, statement :: r.done, .statement⟩ lexeme
      | _ => none

/-- The state after one more lexeme, unless no program continues with it. -/
def step (r : Reader) (lexeme : Lexeme) : Option Reader :=
  match r.mode with
  | .statement => stepStatement r lexeme
  | .variableName =>
    match lexeme.terminal with
    | .ident => some { r with mode := .variableBecomes (wordOf lexeme) }
    | _ => none
  | .variableBecomes name =>
    match lexeme.terminal with
    | .becomes => some { r with mode := .operand (.variableDeclaration name) [] }
    | _ => none
  | .functionName =>
    match lexeme.terminal with
    | .ident => some { r with mode := .parameters (wordOf lexeme) [] }
    | _ => none
  | .parameters name params =>
    match lexeme.terminal with
    | .ident => some { r with mode := .parameters name (wordOf lexeme :: params) }
    | .becomes => some { r with mode := .operand (.functionDeclaration name params.reverse) [] }
    | _ => none
  | .assignmentBecomes name =>
    match lexeme.terminal with
    | .becomes => some { r with mode := .operand (.assignment name) [] }
    | _ => none
  | .operand head pending => do
    let mode ← stepOperand head pending lexeme
    return { r with mode }
  | .named head pending name =>
    match lexeme.terminal with
    | .openParen => some { r with mode := .operand head (.call name [] :: pending) }
    | _ => stepOperator r head pending (.identifier (.str name)) lexeme
  | .operator head pending expr => stepOperator r head pending expr lexeme

def endAfter (done : List Node) (head : Head) (pending : List Pending) (expr : Node) :
    Option (List Node) :=
  match close pending expr with
  | ([], expr) => (head.complete? expr).map (· :: done)
  | _ => none

/-- The program that was read, if the text may end here. -/
def finish? (r : Reader) : Option Node := do
  let done ←
    match r.outer, r.mode with
    | [], .statement => some r.done
    | [], .named head pending name => endAfter r.done head pending (.identifier (.str name))
    | [], .operator head pending expr => endAfter r.done head pending expr
    | _, _ => none
  return .program (.block done.reverse)

end Reader

end BellaLang.Source
