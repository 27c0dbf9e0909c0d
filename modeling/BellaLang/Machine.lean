-- The state of a run and the actions on it. A run keeps its store and a log of
-- what it has shown, printed lines and trace notes in one order, newest first.
import BellaLang.Store

namespace BellaLang

/-! ## Trace notes -/

/-- What a trace tells of a run. -/
inductive Note where
  | runStart
  | runFinished
  | declared (name : Json) (value : Value)
  | defined (name : Json) (params : List Text)
  | assigned (name : Json) (value : Value)
  | loopTest (holds : Bool)
  | conditionalTest (holds : Bool)
  | called (function : Json) (args : List Value)
  | returned (function : Json) (value : Value)

namespace Note

/-- The least trace level at which a note is taken. -/
def level : Note → Nat
  | runStart => 1
  | runFinished => 1
  | declared _ _ => 2
  | defined _ _ => 2
  | assigned _ _ => 2
  | loopTest _ => 3
  | conditionalTest _ => 3
  | called _ _ => 3
  | returned _ _ => 3

def text : Note → Text
  | runStart => "run start"
  | runFinished => "run finished"
  | declared name value => "declare " ++ name.text ++ ": " ++ value.kind ++ " = " ++ value.text
  | defined name params =>
    "define function " ++ name.text ++ "(" ++ Text.join ", " params ++ ")"
  | assigned name value => "assign " ++ name.text ++ " = " ++ value.text
  | loopTest holds => "while test -> " ++ (Value.boolean holds).text
  | conditionalTest holds => "conditional test -> " ++ (Value.boolean holds).text
  | called function args =>
    "call " ++ function.text ++ "(" ++ Text.join ", " (Value.texts args) ++ ")"
  | returned function value => "return " ++ function.text ++ " -> " ++ value.text

end Note

/-! ## Tracing -/

/-- What is traced, and how. -/
structure Tracing where
  /-- How much is traced; nothing at level zero. -/
  level : Nat := 0
  /-- Whether the trace is stored, so that its lines must be storable. -/
  stored : Bool := true

namespace Tracing

def takes (t : Tracing) (n : Note) : Bool := n.level ≤ t.level

/-- Why the line of a note cannot be part of the trace. -/
def refusal? (t : Tracing) (n : Note) : Option Defect :=
  if t.stored then n.text.halves?.map .unwritableLine else none

end Tracing

/-! ## The log -/

/-- Something that a run shows. -/
inductive Event where
  | printed (line : Text)
  | noted (note : Note)

namespace Event

def text : Event → Text
  | printed line => line
  | noted note => note.text

/-- The line of an event that is printed. -/
def printed? : Event → Option Text
  | printed line => some line
  | noted _ => none

def noted? : Event → Option Text
  | printed _ => none
  | noted note => some note.text

end Event

/-! ## The machine -/

structure Machine where
  store : Store
  log : List Event

namespace Machine

def start : Machine := ⟨.empty, []⟩

def printed (m : Machine) : List Text := (m.log.filterMap Event.printed?).reverse

/-- The trace lines, oldest first. -/
def trace (m : Machine) : List Text := (m.log.filterMap Event.noted?).reverse

/-- Printed lines and trace lines in one sequence, oldest first. -/
def lines (m : Machine) : List Text := (m.log.map Event.text).reverse

end Machine

/-! ## Actions -/

/-- A step of a run: it gives a result or stops, and leaves a state either way. -/
abbrev Action := ExceptT Stop (StateM Machine)

namespace Action

def stop {α : Type} (s : Stop) : Action α := fun m => (.error s, m)

/-- A step that only looks at the store. -/
def query {α : Type} (f : Store → Except Stop α) : Action α := fun m => (f m.store, m)

/-- A step that changes the store, unless it fails. -/
def update (f : Store → Except Stop Store) : Action Unit := fun m =>
  match f m.store with
  | .ok store => (.ok (), { m with store })
  | .error e => (.error e, m)

def ofExcept {α : Type} (result : Except Fault α) : Action α := fun m =>
  match result with
  | .ok a => (.ok a, m)
  | .error f => (.error (.fault f), m)

def record (e : Event) : Action Unit := fun m => (.ok (), { m with log := e :: m.log })

/-- Takes a note if the trace asks for it; a line that it cannot hold ends the run. -/
def note (t : Tracing) (n : Note) : Action Unit :=
  if t.takes n then
    match t.refusal? n with
    | some d => stop (.defect d)
    | none => record (.noted n)
  else pure ()

/-- Runs an action inside a call; the frame goes when the action ends, however it ends. -/
def inside {α : Type} (f : Function) (args : List Value) (act : Action α) : Action α := fun m =>
  match m.store.enter f args with
  | .error e => (.error e, m)
  | .ok store =>
    let (result, m) := act { m with store }
    (result, { m with store := m.store.leave })

end Action

end BellaLang
