-- The arguments of the command and what they ask for. Options may be shortened
-- to a prefix that no other one shares, options of one letter may be joined, and
-- after `--` every argument is a plain one.
import BellaLang.Json.Reader

namespace BellaLang.Command

/-! ## Options -/

inductive Flag where
  | help
  | verbose
  | recursionLimit
  | emitTree
  | runTree
  deriving DecidableEq, Repr

namespace Flag

/-- The spellings of the options, in the order in which they are listed. -/
def spellings : List (Text × Flag) :=
  [("-h", help), ("--help", help), ("-v", verbose), ("--recursion-limit", recursionLimit),
   ("--emit-ast", emitTree), ("--ast", runTree)]

def ofSpelling? (s : Text) : Option Flag :=
  (spellings.find? (·.1 = s)).map (·.2)

/-- The name of an option in messages. -/
def title : Flag → String
  | help => "-h/--help"
  | verbose => "-v"
  | recursionLimit => "--recursion-limit"
  | emitTree => "--emit-ast"
  | runTree => "--ast"

def takesValue : Flag → Bool
  | help => false
  | verbose => false
  | recursionLimit => true
  | emitTree => true
  | runTree => true

/-- The option that may not stand together with this one. -/
def rival? : Flag → Option Flag
  | emitTree => some runTree
  | runTree => some emitTree
  | _ => none

end Flag

/-- What the arguments ask for. -/
structure Options where
  verbosity : Nat := 0
  recursionLimit : Option Int := none
  emitTree : Option Text := none
  runTree : Option Text := none
  program : Option Text := none
  deriving Repr

/-! ## Usage errors -/

inductive UsageError where
  | ambiguous (argument : Text) (candidates : List Text)
  | ignoredValue (flag : Flag) (value : Text)
  | missingValue (flag : Flag)
  | notInteger (flag : Flag) (value : Text)
  | conflicting (flag other : Flag)
  | unrecognized (arguments : List Text)
  | missingProgram

def UsageError.message : UsageError → Text
  | ambiguous argument candidates =>
    "ambiguous option: " ++ argument ++ " could match " ++ Text.join ", " candidates
  | ignoredValue flag value =>
    "argument " ++ flag.title ++ ": ignored explicit argument " ++ Json.quotedText value
  | missingValue flag => "argument " ++ flag.title ++ ": expected one argument"
  | notInteger flag value =>
    "argument " ++ flag.title ++ ": invalid int value: " ++ Json.quotedText value
  | conflicting flag other =>
    "argument " ++ flag.title ++ ": not allowed with argument " ++ other.title
  | unrecognized arguments => "unrecognized arguments: " ++ Text.join " " arguments
  | missingProgram => "missing program file; or use --emit-ast/--ast"

/-! ## Words -/

inductive Word where
  | plain (text : Text)
  /-- The first `--`. -/
  | divider
  | option (flag : Flag) (value : Option Text)
  /-- An option of one letter, with more letters joined to it, directly or by an equals sign. -/
  | cluster (flag : Flag) (letters : Text)
  /-- What looks like an option and is none. -/
  | unknown (text : Text)

/-- The argument as it was given; options are never asked for theirs. -/
def Word.text : Word → Text
  | plain text => text
  | divider => "--"
  | option flag _ => flag.title
  | cluster flag _ => flag.title
  | unknown text => text

def Word.isOption : Word → Bool
  | plain _ => false
  | divider => false
  | option _ _ => true
  | cluster _ _ => true
  | unknown _ => true

def isEnd (cs : List Char) : Bool := cs.isEmpty || cs == ['\n']

/-- Whether a text is a minus sign and a number, with or without a point; a newline may
follow. -/
def isNegativeNumber : List Char → Bool
  | '-' :: cs =>
    let (whole, rest) := Number.digitRun Text.digit? cs
    match rest with
    | '.' :: rest =>
      let (fraction, rest) := Number.digitRun Text.digit? rest
      !fraction.isEmpty && isEnd rest
    | rest => !whole.isEmpty && isEnd rest
  | _ => false

/-- A text before its first equals sign and after it. -/
def splitEquals (text : Text) : Text × Option Text :=
  match text.dropWhile (· ≠ .char '=') with
  | [] => (text, none)
  | _ :: value => (text.takeWhile (· ≠ .char '='), some value)

def Flag.ofLetter? (letter : CodePoint) : Option Flag :=
  Flag.ofSpelling? [.char '-', letter]

/-- The role of an argument before any `--`. -/
def wordOf (text : Text) : Except UsageError Word :=
  match Flag.ofSpelling? text with
  | some flag => .ok (.option flag none)
  | none =>
    match text with
    | .char '-' :: .char '-' :: _ =>
      let (name, value) := splitEquals text
      match Flag.ofSpelling? name with
      | some flag => .ok (.option flag value)
      | none =>
        match Flag.spellings.filter fun s => name.isPrefixOf s.1 with
        | [] => .ok (if text.contains (.char ' ') then .plain text else .unknown text)
        | [(_, flag)] => .ok (.option flag value)
        | several => .error (.ambiguous text (several.map (·.1)))
    | .char '-' :: letter :: rest =>
      match Flag.ofLetter? letter with
      | some flag =>
        match rest with
        | .char '=' :: letters => .ok (.cluster flag letters)
        | letters => .ok (.cluster flag letters)
      | none =>
        if isNegativeNumber text.chars || text.contains (.char ' ') then .ok (.plain text)
        else .ok (.unknown text)
    | _ => .ok (.plain text)

def wordsOf : List Text → Except UsageError (List Word)
  | [] => .ok []
  | text :: texts =>
    if text = "--" then .ok (.divider :: texts.map .plain)
    else do
      let word ← wordOf text
      return word :: (← wordsOf texts)

/-! ## Reading the words -/

structure Progress where
  options : Options := {}
  /-- The options that were given a value, as far as they have rivals. -/
  given : List Flag := []
  positioned : Bool := false
  /-- The arguments that mean nothing, newest first. -/
  extras : List Text := []

inductive Halt where
  | help
  | refused (e : UsageError)

def Progress.take (p : Progress) : Flag → Except Halt Progress
  | .help => .error .help
  | .verbose => .ok { p with options.verbosity := p.options.verbosity + 1 }
  | _ => .ok p

def Progress.takeAll (p : Progress) (flags : List Flag) : Except Halt Progress :=
  flags.foldlM Progress.take p

/-- The options with the value of one of them set, or with none for it. -/
def Options.set (o : Options) (flag : Flag) (value : Option Text) :
    Except UsageError Options :=
  match flag, value with
  | .recursionLimit, some text =>
    match Number.intOfText? Json.digitLimit text.chars with
    | some n => .ok { o with recursionLimit := some n }
    | none => .error (.notInteger flag text)
  | .recursionLimit, none => .ok { o with recursionLimit := none }
  | .emitTree, value => .ok { o with emitTree := value }
  | .runTree, value => .ok { o with runTree := value }
  | .help, _ => .ok o
  | .verbose, _ => .ok o

/-- Takes an option with its value. Two dashes are a value that says nothing, but the option
counts as given. -/
def Progress.takeValue (p : Progress) (flag : Flag) (value : Text) : Except Halt Progress := do
  let options ←
    match p.options.set flag (if value = "--" then none else some value) with
    | .ok options => pure options
    | .error e => .error (.refused e)
  match flag.rival? with
  | some rival =>
    if p.given.contains rival then .error (.refused (.conflicting flag rival))
    else return { p with options, given := flag :: p.given }
  | none => return { p with options }

/-- The options of a cluster: every letter must be one. -/
def clusterFlags : Flag → Text → Except UsageError (List Flag)
  | flag, [] => .ok [flag]
  | flag, letter :: letters =>
    match Flag.ofLetter? letter with
    | some next => do return flag :: (← clusterFlags next letters)
    | none => .error (.ignoredValue flag (letter :: letters))

/-- The program argument and the divider next to it, at the end of the words. -/
def Progress.finish (p : Progress) (words : List Word) : Progress :=
  let (program, rest) :=
    if p.positioned then (none, words)
    else
      match words with
      | .divider :: .plain text :: rest => (some text, rest)
      | .divider :: rest => (none, rest)
      | .plain text :: .divider :: rest => (some text, rest)
      | .plain text :: rest => (some text, rest)
      | rest => (none, rest)
  { p with
    options.program := program.or p.options.program
    extras := (rest.map Word.text).reverse ++ p.extras }

/-- Reads the words from left to right. The first plain argument is the program; a plain
argument right after an option that takes a value is that value. -/
def Progress.read (p : Progress) (words : List Word) : Except Halt Progress :=
  match words with
  | [] => .ok p
  | .unknown text :: rest => Progress.read { p with extras := text :: p.extras } rest
  | .option flag value :: rest =>
    if flag.takesValue then
      match value, rest with
      | some value, rest => do Progress.read (← p.takeValue flag value) rest
      | none, .plain value :: rest => do Progress.read (← p.takeValue flag value) rest
      | none, _ => .error (.refused (.missingValue flag))
    else
      match value with
      | none => do Progress.read (← p.take flag) rest
      | some value => .error (.refused (.ignoredValue flag value))
  | .cluster flag letters :: rest =>
    if letters.isEmpty then .error (.refused (.ignoredValue flag []))
    else
      match clusterFlags flag letters with
      | .ok flags => do Progress.read (← p.takeAll flags) rest
      | .error e => .error (.refused e)
  | word :: rest =>
    if rest.any Word.isOption then
      if p.positioned then Progress.read { p with extras := word.text :: p.extras } rest
      else
        Progress.read { p with options.program := some word.text, positioned := true } rest
    else .ok (p.finish (word :: rest))
termination_by words.length

def Options.ofArguments (arguments : List Text) : Except Halt Options :=
  match wordsOf arguments with
  | .error e => .error (.refused e)
  | .ok words => do
    let p ← Progress.read {} words
    if p.extras.isEmpty then return p.options
    else .error (.refused (.unrecognized p.extras.reverse))

end BellaLang.Command
