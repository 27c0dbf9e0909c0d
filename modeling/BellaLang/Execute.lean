-- The execution of statements and programs. A failing statement ends the run
-- and leaves what was done before it.
import BellaLang.Evaluate

namespace BellaLang

/-- The bounds of a run and what it traces. -/
structure Settings extends Tracing where
  /-- How deeply calls may nest. -/
  depth : Nat := 1000
  /-- How many rounds each loop may go. -/
  rounds : Nat := 1 <<< 62

/-! ## Statements -/

/-- The parameters as they are written in a trace line; each must be a text. -/
def writtenParams : Nat → List Json → Except Defect (List Text)
  | _, [] => .ok []
  | index, .str s :: params => do return s :: (← writtenParams (index + 1) params)
  | index, other :: _ => .error (.unwritableParameter index other.sortName)

/-- Takes the note of a function declaration, if the trace asks for it. -/
def noteDefined (t : Tracing) (name : Json) (params : List Json) : Action Unit :=
  if t.takes (.defined name []) then
    match writtenParams 0 params with
    | .ok written => Action.note t (.defined name written)
    | .error d => Action.stop (.defect d)
  else pure ()

def asLoopTest : Value → Except Fault Bool
  | .boolean b => .ok b
  | other => .error (.loopTest other.kind)

/-- Repeats an action as long as a test holds, for at most the given number of rounds. -/
def repeatWhile : Nat → Action Bool → Action Unit → Action Unit
  | 0, _, _ => Action.stop .outOfFuel
  | rounds + 1, test, body => do
    if ← test then do
      body
      repeatWhile rounds test body
    else pure ()

def loopTest (s : Settings) (test : Node) : Action Bool := do
  let value ← evaluate s.toTracing s.depth test
  let holds ← Action.ofExcept (asLoopTest value)
  Action.note s.toTracing (.loopTest holds)
  return holds

mutual

def execute (s : Settings) : Node → Action Unit
  | .variableDeclaration name expr => do
    let value ← evaluate s.toTracing s.depth expr
    Action.update (·.declareVariable name value)
    Action.note s.toTracing (.declared name value)
  | .functionDeclaration name params body => do
    Action.update fun store => (store.declareFunction name params body).map (·.2)
    noteDefined s.toTracing name params
  | .assignment name expr => do
    let value ← evaluate s.toTracing s.depth expr
    Action.update (·.assign name value)
    Action.note s.toTracing (.assigned name value)
  | .printStatement expr => do
    let value ← evaluate s.toTracing s.depth expr
    Action.record (.printed value.text)
  | .whileStatement test body => repeatWhile s.rounds (loopTest s test) (executeBlock s body)
  | other => Action.stop (.defect (.notStatement other.typeName))

def executeBlock (s : Settings) : Node → Action Unit
  | .block statements => executeAll s statements
  | other => Action.stop (.defect (.notBlock other.typeName))

/-- Executes statements one after the other. -/
def executeAll (s : Settings) : List Node → Action Unit
  | [] => pure ()
  | statement :: statements => do
    execute s statement
    executeAll s statements

end

/-! ## Programs -/

def executeProgram (s : Settings) : Node → Action Unit
  | .program block => executeBlock s block
  | other => Action.stop (.defect (.notProgram other.typeName))

/-- Executes a program between the notes of its start and its end. -/
def runProgram (s : Settings) (program : Node) : Action Unit := do
  Action.note s.toTracing .runStart
  executeProgram s program
  Action.note s.toTracing .runFinished

/-- Runs a program from the start: how it ends, and the state it leaves. A file for the trace is
taken to be open; the command sees to that before it runs a program. -/
def run (s : Settings) (program : Node) : Except Stop Unit × Machine :=
  runProgram s program .start

end BellaLang
