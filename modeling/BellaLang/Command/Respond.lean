-- What the command does: it runs a program, runs a stored tree, or stores the
-- tree of a program. The answer is the texts it shows, the files it writes and
-- how it ends.
import BellaLang.Command.Options
import BellaLang.Command.Path
import BellaLang.Execute
import BellaLang.Json.Writer
import BellaLang.Node.Document
import BellaLang.Source.Parse
import BellaLang.Text.Utf8

namespace BellaLang.Command

/-! ## Reports -/

/-- What the command does not handle itself. -/
inductive Crash where
  | limitTooLow
  | limitTooLarge
  | isDirectory (path : Path)
  | notText (e : Text.ByteError)
  /-- A numeral of a stored tree that is beyond all numbers. -/
  | numeralTooLarge
  | defect (d : Defect)
  /-- A run that was given up. -/
  | outOfFuel

def Crash.message : Crash → Text
  | limitTooLow => "recursion limit must be greater or equal than 1"
  | limitTooLarge => "Python int too large to convert to C int"
  | isDirectory path => "[Errno 21] Is a directory: " ++ Json.quotedText path.text
  | notText e =>
    let place :=
      if e.count = 1 then
        "byte 0x" ++ String.ofList (Text.hexDigits 2 e.first) ++ " in position "
          ++ Json.intText e.offset
      else
        "bytes in position " ++ Json.intText e.offset ++ "-"
          ++ Json.intText (e.offset + e.count - 1)
    "'utf-8' codec can't decode " ++ place ++ ": " ++ e.flaw.message
  | numeralTooLarge => Malformed.tooLarge.message
  | defect d => d.message
  | outOfFuel => "out of fuel"

inductive Ending where
  | exit (status : Nat)
  | crash (c : Crash)

/-- What the command leaves. -/
structure Report where
  ending : Ending
  output : Text := []
  errors : Text := []
  /-- The files written, in order, with their texts. -/
  writes : List (Path × String) := []

def Report.ofCrash (c : Crash) : Report := { ending := .crash c }

/-- The report of a command that ends with a message. -/
def Report.failure (status : Nat) (message : Text) : Report :=
  { ending := .exit status, errors := message ++ "\n" }

/-! ## Usage -/

def usage : String :=
  "usage: bella [-h] [-v] [--recursion-limit N]\n"
    ++ "             [--emit-ast BELLA_FILE | --ast AST_JSON_FILE]\n"
    ++ "             [program]\n"

def helpText : String :=
  usage ++ "\n"
    ++ "Bella language interpreter\n"
    ++ "\n"
    ++ "positional arguments:\n"
    ++ "  program               Bella program file (.bella) to execute\n"
    ++ "\n"
    ++ "options:\n"
    ++ "  -h, --help            show this help message and exit\n"
    ++ "  -v                    increase debug verbosity (can be repeated)\n"
    ++ "  --recursion-limit N   set the host recursion limit\n"
    ++ "  --emit-ast BELLA_FILE\n"
    ++ "                        emit AST JSON for the given .bella file\n"
    ++ "  --ast AST_JSON_FILE   execute AST from a JSON file\n"

def Report.misuse (e : UsageError) : Report :=
  { ending := .exit 2, errors := usage ++ "bella: error: " ++ e.message ++ "\n" }

/-! ## Files -/

def readText (disk : Disk) (path : Path) : Except Report (List Char) :=
  match disk path with
  | none => .error (.failure 1 ("Error: file " ++ path.text ++ " not found"))
  | some .directory => .error (.ofCrash (.isDirectory path))
  | some (.file bytes) =>
    match Text.decode bytes with
    | .ok text => .ok (Text.unifyLines text)
    | .error e => .error (.ofCrash (.notText e))

/-- Refuses to write where a directory stands. -/
def checkWritable (disk : Disk) (path : Path) : Except Report Unit :=
  match disk path with
  | some .directory => .error (.ofCrash (.isDirectory path))
  | _ => .ok ()

def readProgram (disk : Disk) (path : Path) : Except Report Node := do
  let text ← readText disk path
  match Source.parse (.ofChars text) with
  | .ok program => return program
  | .error e => .error (.failure 1 ("Syntax error: " ++ e.message))

def readTree (disk : Disk) (path : Path) : Except Report Node := do
  let text ← readText disk path
  match Json.read text with
  | .error e => .error (.failure 1 ("Error: invalid AST file: " ++ e.message text))
  | .ok json =>
    match Node.ofJson json with
    | .ok node => return node
    | .error .tooLarge => .error (.ofCrash .numeralTooLarge)
    | .error e => .error (.failure 1 ("Error: invalid AST file: " ++ e.message))

/-! ## Running -/

/-- Where the trace of a run is written. -/
def traceFile : Path := ⟨"", ["debug.txt"]⟩

/-- The lines of a text, each with its end. -/
def unlines (lines : List Text) : Text :=
  lines.flatMap (· ++ "\n")

def runReport (disk : Disk) (level : Nat) (program : Node) : Except Report Report := do
  if 0 < level then checkWritable disk traceFile
  let (result, m) := run { level } program
  let (ending, errors) : Ending × Text :=
    match result with
    | .ok () => (.exit 0, [])
    | .error (.fault f) => (.exit 1, "Runtime error: " ++ f.message ++ "\n")
    | .error .tooDeep => (.exit 2, "Fatal error: maximum recursion depth exceeded\n")
    | .error (.defect d) => (.crash (.defect d), [])
    | .error .outOfFuel => (.crash .outOfFuel, [])
  return {
    ending, errors
    output := unlines m.printed
    writes := if 0 < level then [(traceFile, (unlines m.trace).string)] else [] }

def treeFile (path : Path) : Path := path.extend ".ast.json"

/-- Stores the tree of a source file beside it. -/
def emitReport (disk : Disk) (path : Path) : Except Report Report := do
  let program ← readProgram disk path
  checkWritable disk (treeFile path)
  return {
    ending := .exit 0
    output := (treeFile path).text ++ "\n"
    writes := [(treeFile path, program.toJson.write .indented)] }

/-! ## The command -/

/-- The least number beyond a signed word of thirty-two bits. -/
def wordBound : Int := 0x80000000

/-- Refuses a recursion limit that no word holds, and one below zero; zero sets none. -/
def checkLimit : Option Int → Except Report Unit
  | none => .ok ()
  | some n =>
    if n < -wordBound ∨ wordBound ≤ n then .error (.ofCrash .limitTooLarge)
    else if n < 0 then .error (.ofCrash .limitTooLow)
    else .ok ()

/-- An argument that is given and not empty. -/
def given (argument : Option Text) : Option Text :=
  argument.filter (!·.isEmpty)

def perform (disk : Disk) (options : Options) : Except Report Report := do
  checkLimit options.recursionLimit
  match given options.emitTree, given options.runTree, given options.program with
  | some file, _, _ => emitReport disk (.ofText file)
  | none, some file, _ => do
    let tree ← readTree disk (.ofText file)
    runReport disk options.verbosity tree
  | none, none, some file => do
    let program ← readProgram disk (.ofText file)
    runReport disk options.verbosity program
  | none, none, none => .error (.misuse .missingProgram)

/-- The paths that the command may look at. -/
def pathsOf (arguments : List Text) : List Path :=
  match Options.ofArguments arguments with
  | .error _ => []
  | .ok options =>
    let sources := [options.emitTree, options.runTree, options.program].filterMap given
    let paths := sources.map Path.ofText
    traceFile :: (paths ++ paths.map treeFile)

def respond (disk : Disk) (arguments : List Text) : Report :=
  match Options.ofArguments arguments with
  | .error .help => { ending := .exit 0, output := helpText }
  | .error (.refused e) => .misuse e
  | .ok options =>
    match perform disk options with
    | .ok report => report
    | .error report => report

/-! ## Hosts

Above, a tree file is read however deeply its text is nested. A host has limited room for calls
inside calls. Running out of it during a run is handled and ends the command; running out of it
earlier, while the text is read or its tree is built, is not handled. -/

/-- How a host copes with nested texts. Which ones use up its room is left open, except that a text
that is nested no deeper than there is room for does not. -/
structure Host where
  room : Nat
  exhaustedBy : List Char → Bool
  nested : ∀ text, exhaustedBy text = true → room < Json.nesting text

/-- The text that the command is to read as a tree, if it comes to that. -/
def treeDocument? (disk : Disk) (arguments : List Text) : Option (List Char) :=
  match Options.ofArguments arguments with
  | .error _ => none
  | .ok options =>
    match checkLimit options.recursionLimit, given options.emitTree, given options.runTree with
    | .ok (), none, some file => (readText disk (.ofText file)).toOption
    | _, _, _ => none

/-- The answer of the command on a host. There is none if the host runs out of room before there
is a tree to run. -/
def respondOn (host : Host) (disk : Disk) (arguments : List Text) : Option Report :=
  if (treeDocument? disk arguments).any host.exhaustedBy then none
  else some (respond disk arguments)

end BellaLang.Command
