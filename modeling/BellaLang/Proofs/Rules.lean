-- The language by its rules: what an expression comes to and what statements do,
-- as relations of their own, with no bound on calls or rounds. Each rule has the
-- order of evaluation in its premises: a part may fail only where all the parts
-- before it have values.
import BellaLang.Fault
import BellaLang.Number.Remainder

namespace BellaLang.Rules

/-! ## Bindings and results -/

/-- What a global name is bound to. -/
inductive Binding where
  | value (v : Value)
  | function (params : List Text) (body : Node)

/-- The globals, in the order of their declaration. -/
abbrev Globals := List (Text × Binding)

/-- The parameters of the call under way, with their values. -/
abbrev Frame := List (Text × Value)

abbrev Result := Except Fault Value

def NotNumber (v : Value) : Prop := ∀ x, v ≠ .number x

def NotBoolean (v : Value) : Prop := ∀ b, v ≠ .boolean b

/-! ## Names -/

/-- What a name stands for: a parameter before a global. -/
inductive Stands (g : Globals) (fr : Frame) (x : Text) : Result → Prop
  | parameter {v : Value} (h : fr.lookup x = some v) : Stands g fr x (.ok v)
  | value {v : Value} (hp : fr.lookup x = none) (h : g.lookup x = some (.value v)) :
      Stands g fr x (.ok v)
  | function {ps : List Text} {body : Node} (hp : fr.lookup x = none)
      (h : g.lookup x = some (.function ps body)) :
      Stands g fr x (.error (.functionAsValue (.str x)))
  | nothing (hp : fr.lookup x = none) (h : g.lookup x = none) :
      Stands g fr x (.error (.undeclared (.str x)))

/-! ## Operators -/

/-- The operators on numbers. -/
def numeric : List (Text × (Number → Number → Value)) :=
  [("+", fun x y => .number (x + y)),
   ("-", fun x y => .number (x - y)),
   ("*", fun x y => .number (x * y)),
   ("/", fun x y => .number (x / y)),
   ("%", fun x y => .number (x.remainder y)),
   ("<", fun x y => .boolean (x < y)),
   (">", fun x y => .boolean (y < x)),
   ("<=", fun x y => .boolean (x ≤ y)),
   (">=", fun x y => .boolean (y ≤ x))]

/-- The operators on values of one kind, with what they say of equal ones. -/
def equality : List (Text × Bool) := [("==", true), ("!=", false)]

/-- The operators that may leave their right operand alone, with the left one that decides. -/
def logical : List (Text × Bool) := [("&&", false), ("||", true)]

inductive Unary : Text → Value → Result → Prop
  | negate (x : Number) : Unary "-" (.number x) (.ok (.number (-x)))
  | plus (x : Number) : Unary "+" (.number x) (.ok (.number x))
  | not (b : Bool) : Unary "!" (.boolean b) (.ok (.boolean (!b)))
  | notNumber {op : Text} {v : Value} (hop : op ∈ ([("-" : Text), "+"])) (hv : NotNumber v) :
      Unary op v (.error (.notNumber (.str op) v.kind))
  | notBoolean {v : Value} (hv : NotBoolean v) :
      Unary "!" v (.error (.notBoolean (.str "!") v.kind))
  | unknown {op : Text} {v : Value} (hop : op ∉ ([("-" : Text), "+", "!"])) :
      Unary op v (.error (.unknownUnary (.str op)))

/-- A binary operator on the values of both operands. -/
inductive Binary : Text → Value → Value → Result → Prop
  | numbers {op : Text} {f : Number → Number → Value} (hop : (op, f) ∈ numeric) (x y : Number) :
      Binary op (.number x) (.number y) (.ok (f x y))
  | leftKind {op : Text} {a b : Value} (hop : op ∈ numeric.map (·.1)) (ha : NotNumber a) :
      Binary op a b (.error (.notNumber (.str op) a.kind))
  | rightKind {op : Text} {b : Value} (hop : op ∈ numeric.map (·.1)) (x : Number)
      (hb : NotNumber b) : Binary op (.number x) b (.error (.notNumber (.str op) b.kind))
  | equalNumbers {op : Text} {same : Bool} (hop : (op, same) ∈ equality) (x y : Number) :
      Binary op (.number x) (.number y) (.ok (.boolean ((x == y) == same)))
  | equalBooleans {op : Text} {same : Bool} (hop : (op, same) ∈ equality) (x y : Bool) :
      Binary op (.boolean x) (.boolean y) (.ok (.boolean ((x == y) == same)))
  | incomparable {op : Text} {a b : Value} (hop : op ∈ equality.map (·.1))
      (hn : NotNumber a ∨ NotNumber b) (hb : NotBoolean a ∨ NotBoolean b) :
      Binary op a b (.error (.incomparable (.str op) a.kind b.kind))
  | unknown {op : Text} {a b : Value} (hn : op ∉ numeric.map (·.1))
      (he : op ∉ equality.map (·.1)) : Binary op a b (.error (.unknownBinary (.str op)))

/-- An array at an index, once both are known. -/
inductive Subscript : Value → Value → Result → Prop
  | element {items : List Value} {x : Number} {k : Nat} {v : Value} (hx : x.toInt? = some k)
      (hv : items[k]? = some v) : Subscript (.array items) (.number x) (.ok v)
  | targetKind {target index : Value} (h : ∀ items, target ≠ .array items) :
      Subscript target index (.error (.notIndexable target.kind))
  | indexKind {items : List Value} {index : Value} (h : NotNumber index) :
      Subscript (.array items) index (.error (.indexNotIntegral index.text))
  | fraction {items : List Value} {x : Number} (hx : x.toInt? = none) :
      Subscript (.array items) (.number x) (.error (.indexNotIntegral (Value.number x).text))
  | range {items : List Value} {x : Number} {k : Int} (hx : x.toInt? = some k)
      (hk : k < 0 ∨ items.length ≤ k) :
      Subscript (.array items) (.number x)
        (.error (.indexOutOfRange (Value.number x).text items.length))

/-! ## Expressions -/

/-- What an expression comes to, given the globals and the frame of the call under way. -/
inductive Evaluates (g : Globals) : Frame → Node → Result → Prop
  | numeral {fr : Frame} (x : Number) : Evaluates g fr (.numeral x) (.ok (.number x))
  | booleanLiteral {fr : Frame} (b : Bool) :
      Evaluates g fr (.booleanLiteral b) (.ok (.boolean b))
  | identifier {fr : Frame} {x : Text} {r : Result} (h : Stands g fr x r) :
      Evaluates g fr (.identifier (.str x)) r
  | unary {fr : Frame} {op : Text} {e : Node} {v : Value} {r : Result}
      (he : Evaluates g fr e (.ok v)) (h : Unary op v r) :
      Evaluates g fr (.unary (.str op) e) r
  | unaryFails {fr : Frame} {op : Text} {e : Node} {f : Fault}
      (he : Evaluates g fr e (.error f)) : Evaluates g fr (.unary (.str op) e) (.error f)
  -- Both operands, unless the operator is a logical one.
  | leftFails {fr : Frame} {op : Text} {a b : Node} {f : Fault}
      (ha : Evaluates g fr a (.error f)) : Evaluates g fr (.binary (.str op) a b) (.error f)
  | binary {fr : Frame} {op : Text} {a b : Node} {v w : Value} {r : Result}
      (hop : op ∉ logical.map (·.1)) (ha : Evaluates g fr a (.ok v))
      (hb : Evaluates g fr b (.ok w)) (h : Binary op v w r) :
      Evaluates g fr (.binary (.str op) a b) r
  | rightFails {fr : Frame} {op : Text} {a b : Node} {v : Value} {f : Fault}
      (hop : op ∉ logical.map (·.1)) (ha : Evaluates g fr a (.ok v))
      (hb : Evaluates g fr b (.error f)) : Evaluates g fr (.binary (.str op) a b) (.error f)
  -- The left operand decides, or is no Boolean, or the right one has the last word.
  | decided {fr : Frame} {op : Text} {a b : Node} {final : Bool}
      (hop : (op, final) ∈ logical) (ha : Evaluates g fr a (.ok (.boolean final))) :
      Evaluates g fr (.binary (.str op) a b) (.ok (.boolean final))
  | logicalLeft {fr : Frame} {op : Text} {a b : Node} {v : Value}
      (hop : op ∈ logical.map (·.1)) (ha : Evaluates g fr a (.ok v)) (hv : NotBoolean v) :
      Evaluates g fr (.binary (.str op) a b) (.error (.notBoolean (.str op) v.kind))
  | undecided {fr : Frame} {op : Text} {a b : Node} {final c : Bool}
      (hop : (op, final) ∈ logical) (ha : Evaluates g fr a (.ok (.boolean !final)))
      (hb : Evaluates g fr b (.ok (.boolean c))) :
      Evaluates g fr (.binary (.str op) a b) (.ok (.boolean c))
  | logicalRight {fr : Frame} {op : Text} {a b : Node} {final : Bool} {v : Value}
      (hop : (op, final) ∈ logical) (ha : Evaluates g fr a (.ok (.boolean !final)))
      (hb : Evaluates g fr b (.ok v)) (hv : NotBoolean v) :
      Evaluates g fr (.binary (.str op) a b) (.error (.notBoolean (.str op) v.kind))
  | logicalRightFails {fr : Frame} {op : Text} {a b : Node} {final : Bool} {f : Fault}
      (hop : (op, final) ∈ logical) (ha : Evaluates g fr a (.ok (.boolean !final)))
      (hb : Evaluates g fr b (.error f)) : Evaluates g fr (.binary (.str op) a b) (.error f)
  -- One branch only.
  | consequent {fr : Frame} {test c a : Node} {r : Result}
      (ht : Evaluates g fr test (.ok (.boolean true))) (h : Evaluates g fr c r) :
      Evaluates g fr (.conditional test c a) r
  | alternate {fr : Frame} {test c a : Node} {r : Result}
      (ht : Evaluates g fr test (.ok (.boolean false))) (h : Evaluates g fr a r) :
      Evaluates g fr (.conditional test c a) r
  | testKind {fr : Frame} {test c a : Node} {v : Value} (ht : Evaluates g fr test (.ok v))
      (hv : NotBoolean v) :
      Evaluates g fr (.conditional test c a) (.error (.conditionalTest v.kind))
  | testFails {fr : Frame} {test c a : Node} {f : Fault}
      (ht : Evaluates g fr test (.error f)) :
      Evaluates g fr (.conditional test c a) (.error f)
  | arrayLiteral {fr : Frame} {es : List Node} {vs : List Value} (hl : es.length = vs.length)
      (h : ∀ p ∈ es.zip vs, Evaluates g fr p.1 (.ok p.2)) :
      Evaluates g fr (.arrayLiteral es) (.ok (.array vs))
  | elementFails {fr : Frame} {before after : List Node} {e : Node} {vs : List Value} {f : Fault}
      (hl : before.length = vs.length) (h : ∀ p ∈ before.zip vs, Evaluates g fr p.1 (.ok p.2))
      (he : Evaluates g fr e (.error f)) :
      Evaluates g fr (.arrayLiteral (before ++ e :: after)) (.error f)
  -- Both parts are evaluated before either is looked at.
  | subscript {fr : Frame} {array index : Node} {v w : Value} {r : Result}
      (ha : Evaluates g fr array (.ok v)) (hi : Evaluates g fr index (.ok w))
      (h : Subscript v w r) : Evaluates g fr (.subscript array index) r
  | targetFails {fr : Frame} {array index : Node} {f : Fault}
      (ha : Evaluates g fr array (.error f)) :
      Evaluates g fr (.subscript array index) (.error f)
  | indexFails {fr : Frame} {array index : Node} {v : Value} {f : Fault}
      (ha : Evaluates g fr array (.ok v)) (hi : Evaluates g fr index (.error f)) :
      Evaluates g fr (.subscript array index) (.error f)
  -- The callee is a global, and it is looked up first; then all the arguments, their number
  -- and their kinds.
  | notCallable {fr : Frame} {callee : Text} {args : List Node}
      (hf : ∀ ps body, g.lookup callee ≠ some (.function ps body)) :
      Evaluates g fr (.call (.str callee) args) (.error (.notFunction (.str callee)))
  | argumentFails {fr : Frame} {callee : Text} {ps : List Text} {body e : Node}
      {before after : List Node} {vs : List Value} {f : Fault}
      (hf : g.lookup callee = some (.function ps body)) (hl : before.length = vs.length)
      (h : ∀ p ∈ before.zip vs, Evaluates g fr p.1 (.ok p.2))
      (he : Evaluates g fr e (.error f)) :
      Evaluates g fr (.call (.str callee) (before ++ e :: after)) (.error f)
  | arity {fr : Frame} {callee : Text} {ps : List Text} {body : Node} {args : List Node}
      {vs : List Value} (hf : g.lookup callee = some (.function ps body))
      (hl : args.length = vs.length) (h : ∀ p ∈ args.zip vs, Evaluates g fr p.1 (.ok p.2))
      (hn : vs.length ≠ ps.length) :
      Evaluates g fr (.call (.str callee) args)
        (.error (.wrongArity (.str callee) ps.length vs.length))
  | argumentKind {fr : Frame} {callee : Text} {ps : List Text} {body : Node} {args : List Node}
      {xs : List Number} {v : Value} {rest : List Value}
      (hf : g.lookup callee = some (.function ps body))
      (hl : args.length = (xs.map Value.number ++ v :: rest).length)
      (h : ∀ p ∈ args.zip (xs.map Value.number ++ v :: rest), Evaluates g fr p.1 (.ok p.2))
      (hn : (xs.map Value.number ++ v :: rest).length = ps.length) (hv : NotNumber v) :
      Evaluates g fr (.call (.str callee) args)
        (.error (.wrongArgument (.str callee) (xs.length + 1) v.kind))
  | call {fr : Frame} {callee : Text} {ps : List Text} {body : Node} {args : List Node}
      {xs : List Number} {r : Result} (hf : g.lookup callee = some (.function ps body))
      (hl : args.length = (xs.map Value.number).length)
      (h : ∀ p ∈ args.zip (xs.map Value.number), Evaluates g fr p.1 (.ok p.2))
      (hn : (xs.map Value.number).length = ps.length)
      (hb : Evaluates g (ps.zip (xs.map .number)) body r) :
      Evaluates g fr (.call (.str callee) args) r

/-! ## Statements -/

/-- What a run shows and leaves, and the fault it ends with, if it does. -/
structure Outcome where
  printed : List Text
  globals : Globals
  failure : Option Fault

/-- The globals with a new value for one name, which keeps its place. -/
def reassign (g : Globals) (x : Text) (v : Value) : Globals :=
  g.map fun b => if b.1 = x then (x, .value v) else b

/-- The first parameter that repeats one before it. -/
def Repeats (ps : List Text) (p : Text) : Prop :=
  ∃ before after, ps = before ++ p :: after ∧ p ∈ before ∧ before.Nodup

/-- What statements do, one after the other, from some globals on. -/
inductive Executes : Globals → List Node → Outcome → Prop
  | done {g : Globals} : Executes g [] ⟨[], g, none⟩
  -- A variable is evaluated before its name is looked at.
  | letValue {g : Globals} {x : Text} {e : Node} {v : Value} {rest : List Node} {o : Outcome}
      (he : Evaluates g [] e (.ok v)) (hx : g.lookup x = none)
      (h : Executes (g ++ [(x, .value v)]) rest o) :
      Executes g (.variableDeclaration (.str x) e :: rest) o
  | letTwice {g : Globals} {x : Text} {e : Node} {v : Value} {b : Binding} {rest : List Node}
      (he : Evaluates g [] e (.ok v)) (hx : g.lookup x = some b) :
      Executes g (.variableDeclaration (.str x) e :: rest)
        ⟨[], g, some (.alreadyDeclared (.str x))⟩
  | letFails {g : Globals} {x : Text} {e : Node} {f : Fault} {rest : List Node}
      (he : Evaluates g [] e (.error f)) :
      Executes g (.variableDeclaration (.str x) e :: rest) ⟨[], g, some f⟩
  | define {g : Globals} {x : Text} {ps : List Text} {body : Node} {rest : List Node} {o : Outcome}
      (hx : g.lookup x = none) (hp : ps.Nodup)
      (h : Executes (g ++ [(x, .function ps body)]) rest o) :
      Executes g (.functionDeclaration (.str x) (ps.map .str) body :: rest) o
  | defineTwice {g : Globals} {x : Text} {ps : List Text} {body : Node} {b : Binding}
      {rest : List Node} (hx : g.lookup x = some b) :
      Executes g (.functionDeclaration (.str x) (ps.map .str) body :: rest)
        ⟨[], g, some (.alreadyDeclared (.str x))⟩
  | parameterTwice {g : Globals} {x p : Text} {ps : List Text} {body : Node} {rest : List Node}
      (hx : g.lookup x = none) (hp : Repeats ps p) :
      Executes g (.functionDeclaration (.str x) (ps.map .str) body :: rest)
        ⟨[], g, some (.repeatedParameter (.str p) (.str x))⟩
  | assign {g : Globals} {x : Text} {e : Node} {v old : Value} {rest : List Node} {o : Outcome}
      (he : Evaluates g [] e (.ok v)) (hx : g.lookup x = some (.value old))
      (h : Executes (reassign g x v) rest o) : Executes g (.assignment (.str x) e :: rest) o
  | assignFunction {g : Globals} {x : Text} {e : Node} {v : Value} {ps : List Text} {body : Node}
      {rest : List Node} (he : Evaluates g [] e (.ok v))
      (hx : g.lookup x = some (.function ps body)) :
      Executes g (.assignment (.str x) e :: rest) ⟨[], g, some (.assignedFunction (.str x))⟩
  | assignNothing {g : Globals} {x : Text} {e : Node} {v : Value} {rest : List Node}
      (he : Evaluates g [] e (.ok v)) (hx : g.lookup x = none) :
      Executes g (.assignment (.str x) e :: rest) ⟨[], g, some (.undeclared (.str x))⟩
  | assignFails {g : Globals} {x : Text} {e : Node} {f : Fault} {rest : List Node}
      (he : Evaluates g [] e (.error f)) :
      Executes g (.assignment (.str x) e :: rest) ⟨[], g, some f⟩
  | print {g g' : Globals} {e : Node} {v : Value} {rest : List Node} {lines : List Text}
      {failure : Option Fault} (he : Evaluates g [] e (.ok v))
      (h : Executes g rest ⟨lines, g', failure⟩) :
      Executes g (.printStatement e :: rest) ⟨v.text :: lines, g', failure⟩
  | printFails {g : Globals} {e : Node} {f : Fault} {rest : List Node}
      (he : Evaluates g [] e (.error f)) :
      Executes g (.printStatement e :: rest) ⟨[], g, some f⟩
  -- The test is evaluated anew before each round, and after a round the loop is due again.
  | whileTrue {g : Globals} {test : Node} {body rest : List Node} {o : Outcome}
      (ht : Evaluates g [] test (.ok (.boolean true)))
      (h : Executes g (body ++ .whileStatement test (.block body) :: rest) o) :
      Executes g (.whileStatement test (.block body) :: rest) o
  | whileFalse {g : Globals} {test : Node} {body rest : List Node} {o : Outcome}
      (ht : Evaluates g [] test (.ok (.boolean false))) (h : Executes g rest o) :
      Executes g (.whileStatement test (.block body) :: rest) o
  | whileKind {g : Globals} {test : Node} {body rest : List Node} {v : Value}
      (ht : Evaluates g [] test (.ok v)) (hv : NotBoolean v) :
      Executes g (.whileStatement test (.block body) :: rest) ⟨[], g, some (.loopTest v.kind)⟩
  | whileFails {g : Globals} {test : Node} {body rest : List Node} {f : Fault}
      (ht : Evaluates g [] test (.error f)) :
      Executes g (.whileStatement test (.block body) :: rest) ⟨[], g, some f⟩

/-- What a program does from the start. -/
inductive Runs : Node → Outcome → Prop
  | program {statements : List Node} {o : Outcome} (h : Executes [] statements o) :
      Runs (.program (.block statements)) o

end BellaLang.Rules
