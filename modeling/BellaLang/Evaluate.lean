-- The evaluation of expressions. Evaluation is by recursion on the expression,
-- given how calls are answered; calls are answered by evaluating the body of
-- the function, up to a limit on their nesting.
import BellaLang.Machine
import BellaLang.Number.Remainder
import BellaLang.Operator

namespace BellaLang

/-! ## Operators -/

/-- The number that an operand of an operator must be. -/
def asNumber (op : Json) : Value → Except Fault Number
  | .number x => .ok x
  | other => .error (.notNumber op other.kind)

def asBoolean (op : Json) : Value → Except Fault Bool
  | .boolean b => .ok b
  | other => .error (.notBoolean op other.kind)

def applyUnary (op : Json) (operand : Value) : Except Fault Value :=
  match UnaryOp.ofJson? op with
  | some .negate => do return .number (-(← asNumber op operand))
  | some .plus => do return .number (← asNumber op operand)
  | some .not => do return .boolean (!(← asBoolean op operand))
  | none => .error (.unknownUnary op)

def equalValues (op : Json) : Value → Value → Except Fault Bool
  | .number x, .number y => .ok (x == y)
  | .boolean x, .boolean y => .ok (x == y)
  | a, b => .error (.incomparable op a.kind b.kind)

/-- A function of two numbers applied to two values, the left one checked first. -/
def onNumbers (op : Json) (f : Number → Number → Value) (a b : Value) : Except Fault Value := do
  let x ← asNumber op a
  let y ← asNumber op b
  return f x y

/-- A binary operator applied to two values. The logical operators do not take two values:
they decide from the left operand whether there is a right one. -/
def applyBinary (op : Json) (a b : Value) : Except Fault Value :=
  match BinaryOp.ofJson? op with
  | some .add => onNumbers op (fun x y => .number (x + y)) a b
  | some .subtract => onNumbers op (fun x y => .number (x - y)) a b
  | some .multiply => onNumbers op (fun x y => .number (x * y)) a b
  | some .divide => onNumbers op (fun x y => .number (x / y)) a b
  | some .remainder => onNumbers op (fun x y => .number (x.remainder y)) a b
  | some .less => onNumbers op (fun x y => .boolean (x < y)) a b
  | some .greater => onNumbers op (fun x y => .boolean (y < x)) a b
  | some .atMost => onNumbers op (fun x y => .boolean (x ≤ y)) a b
  | some .atLeast => onNumbers op (fun x y => .boolean (y ≤ x)) a b
  | some .equal => do return .boolean (← equalValues op a b)
  | some .notEqual => do return .boolean (!(← equalValues op a b))
  | some .and => .error (.unknownBinary op)
  | some .or => .error (.unknownBinary op)
  | none => .error (.unknownBinary op)

/-- The value on which a logical operator ends without its right operand. -/
def shortCircuit? (op : Json) : Option Bool :=
  match BinaryOp.ofJson? op with
  | some .and => some false
  | some .or => some true
  | _ => none

/-- The integer that an index must be. -/
def asIndex (index : Value) : Except Fault Int :=
  match index with
  | .number x =>
    match x.toInt? with
    | some k => .ok k
    | none => .error (.indexNotIntegral index.text)
  | _ => .error (.indexNotIntegral index.text)

def applySubscript (target index : Value) : Except Fault Value :=
  match target with
  | .array items => do
    let k ← asIndex index
    if k < 0 then .error (.indexOutOfRange index.text items.length)
    else
      match items[k.toNat]? with
      | some item => .ok item
      | none => .error (.indexOutOfRange index.text items.length)
  | other => .error (.notIndexable other.kind)

/-! ## Expressions -/

/-- How a call of a function on the values of its arguments is answered. -/
abbrev Caller := Function → List Value → Action Value

def asTest : Value → Except Fault Bool
  | .boolean b => .ok b
  | other => .error (.conditionalTest other.kind)

mutual

/-- The value of an expression. Operands, arguments and elements are evaluated from left to
right, and a function is looked up before its arguments are evaluated. -/
def evaluateWith (t : Tracing) (call : Caller) : Node → Action Value
  | .numeral value => pure (.number value)
  | .booleanLiteral value => pure (.boolean value)
  | .identifier name => Action.query (·.get name)
  | .unary op operand => do
    let value ← evaluateWith t call operand
    Action.ofExcept (applyUnary op value)
  | .binary op left right => do
    let a ← evaluateWith t call left
    match shortCircuit? op with
    | some final => do
      let test ← Action.ofExcept (asBoolean op a)
      if test = final then return .boolean final
      else do
        let b ← evaluateWith t call right
        let result ← Action.ofExcept (asBoolean op b)
        return .boolean result
    | none => do
      let b ← evaluateWith t call right
      Action.ofExcept (applyBinary op a b)
  | .conditional test consequent alternate => do
    let value ← evaluateWith t call test
    let holds ← Action.ofExcept (asTest value)
    Action.note t (.conditionalTest holds)
    if holds then evaluateWith t call consequent else evaluateWith t call alternate
  | .arrayLiteral elements => do
    let values ← evaluateAllWith t call elements
    return .array values
  | .subscript array index => do
    let target ← evaluateWith t call array
    let position ← evaluateWith t call index
    Action.ofExcept (applySubscript target position)
  | .call callee args => do
    let f ← Action.query (·.getFunction callee)
    let values ← evaluateAllWith t call args
    call f values
  | other => Action.stop (.defect (.notExpression other.typeName))

def evaluateAllWith (t : Tracing) (call : Caller) : List Node → Action (List Value)
  | [] => pure []
  | node :: nodes => do
    let value ← evaluateWith t call node
    let values ← evaluateAllWith t call nodes
    return value :: values

end

/-! ## Calls -/

/-- Refuses the first argument that is no number; `position` counts from one. -/
def checkArguments (function : Json) : Nat → List Value → Except Fault Unit
  | _, [] => .ok ()
  | position, arg :: args =>
    if arg.isNumber then checkArguments function (position + 1) args
    else .error (.wrongArgument function position arg.kind)

/-- Refuses arguments that a function does not take: their number is checked first. -/
def checkCall (f : Function) (args : List Value) : Except Fault Unit :=
  if args.length = f.arity then checkArguments f.name 1 args
  else .error (.wrongArity f.name f.arity args.length)

/-- Answers a call by the body of the function, with `depth` calls left to nest. -/
def invoke (t : Tracing) : Nat → Caller
  | 0, _, _ => Action.stop .tooDeep
  | depth + 1, f, args => do
    Action.ofExcept (checkCall f args)
    Action.note t (.called f.name args)
    let result ← Action.inside f args (evaluateWith t (invoke t depth) f.body)
    Action.note t (.returned f.name result)
    return result

/-- The value of an expression, with `depth` calls to nest. -/
def evaluate (t : Tracing) (depth : Nat) (node : Node) : Action Value :=
  evaluateWith t (invoke t depth) node

end BellaLang
