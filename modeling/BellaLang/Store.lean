-- The namespace of a run: the globals in the order of their declaration, and
-- one frame for each call under way. Variables and functions share the globals,
-- and a look-up sees only the innermost frame and the globals.
import BellaLang.Fault

namespace BellaLang

/-! ## Scopes -/

/-- Names with their values, in the order in which they were bound. -/
abbrev Scope := List (Json × Value)

/-- The key of a name, or the defect that it cannot be a name. -/
def keyOf (name : Json) : Except Stop Key :=
  match name.key? with
  | some key => .ok key
  | none => .error (.defect (.unusableName name.sortName))

namespace Scope

def find? (key : Key) : Scope → Option Value
  | [] => none
  | (name, value) :: rest => if name.key? = some key then some value else find? key rest

/-- The scope after binding a name: a new name goes to the end, a bound one keeps its place
and its spelling. -/
def bind (key : Key) (name : Json) (value : Value) : Scope → Scope
  | [] => [(name, value)]
  | (bound, old) :: rest =>
    if bound.key? = some key then (bound, value) :: rest
    else (bound, old) :: bind key name value rest

/-- A bound name has its value. -/
theorem find?_bind_self {key : Key} {name : Json} (h : name.key? = some key) (value : Value)
    (scope : Scope) : (scope.bind key name value).find? key = some value := by
  fun_induction Scope.bind key name value scope with
  | case1 => simp [find?, h]
  | case2 bound old rest hb => simp [find?, hb]
  | case3 bound old rest hb ih => simpa [find?, hb] using ih

theorem find?_bind_ne {key other : Key} {name : Json} (h : name.key? = some key)
    (hne : other ≠ key) (value : Value) (scope : Scope) :
    (scope.bind key name value).find? other = scope.find? other := by
  fun_induction Scope.bind key name value scope with
  | case1 => simp [find?, h, Ne.symm hne]
  | case2 bound old rest hb => simp [find?, hb, Ne.symm hne]
  | case3 bound old rest hb ih =>
    by_cases ho : bound.key? = some other
    · simp [find?, ho]
    · simpa [find?, ho] using ih

/-- Binds parameters to arguments, as far as both go, on top of a scope. -/
def bindAll (scope : Scope) : List Json → List Value → Except Stop Scope
  | param :: params, arg :: args => do
    let key ← keyOf param
    bindAll (scope.bind key param arg) params args
  | _, _ => .ok scope

end Scope

/-! ## The store -/

/-- The globals and the frames of the calls under way, innermost first. -/
structure Store where
  globals : Scope
  frames : List Scope

namespace Store

def empty : Store := ⟨[], []⟩

/-- The frame of the innermost call; outside all calls it is empty. -/
def currentFrame (s : Store) : Scope := s.frames.headD []

def isDeclared (s : Store) (name : Json) : Except Stop Bool := do
  let key ← keyOf name
  return (s.globals.find? key).isSome

/-- The store with one more global variable. -/
def declareVariable (s : Store) (name : Json) (value : Value) : Except Stop Store := do
  let key ← keyOf name
  match s.globals.find? key with
  | some _ => .error (.fault (.alreadyDeclared name))
  | none => return { s with globals := s.globals ++ [(name, value)] }

/-- Refuses the first parameter that repeats one of those seen before it. -/
def checkParams (function : Json) : List Key → List Json → Except Stop Unit
  | _, [] => .ok ()
  | seen, param :: params => do
    let key ← keyOf param
    if seen.contains key then .error (.fault (.repeatedParameter param function))
    else checkParams function (key :: seen) params

/-- The store with one more function, and the function. -/
def declareFunction (s : Store) (name : Json) (params : List Json) (body : Node) :
    Except Stop (Function × Store) := do
  let key ← keyOf name
  match s.globals.find? key with
  | some _ => .error (.fault (.alreadyDeclared name))
  | none =>
    checkParams name [] params
    let f : Function := ⟨name, params, body⟩
    return (f, { s with globals := s.globals ++ [(name, .function f)] })

def assign (s : Store) (name : Json) (value : Value) : Except Stop Store := do
  let key ← keyOf name
  match s.globals.find? key with
  | none => .error (.fault (.undeclared name))
  | some (.function _) => .error (.fault (.assignedFunction name))
  | some _ => return { s with globals := s.globals.bind key name value }

/-- The value that a name stands for in an expression. -/
def get (s : Store) (name : Json) : Except Stop Value := do
  let key ← keyOf name
  match s.currentFrame.find? key with
  | some value => return value
  | none =>
    match s.globals.find? key with
    | none => .error (.fault (.undeclared name))
    | some (.function _) => .error (.fault (.functionAsValue name))
    | some value => return value

/-- The function that a name stands for in a call. Frames are not looked at. -/
def getFunction (s : Store) (name : Json) : Except Stop Function := do
  let key ← keyOf name
  match s.globals.find? key with
  | some (.function f) => return f
  | _ => .error (.fault (.notFunction name))

/-- The store inside a call of the function with the given arguments. -/
def enter (s : Store) (f : Function) (args : List Value) : Except Stop Store := do
  let frame ← Scope.bindAll [] f.params args
  return { s with frames := frame :: s.frames }

def leave (s : Store) : Store := { s with frames := s.frames.tail }

/-- Leaving a call gives back the store before it. -/
theorem leave_enter {s inner : Store} {f : Function} {args : List Value}
    (h : s.enter f args = .ok inner) : inner.leave = s := by
  unfold enter at h
  cases hb : Scope.bindAll [] f.params args with
  | error e => simp [hb, bind, Except.bind] at h
  | ok frame =>
    simp only [hb, bind, Except.bind, pure, Except.pure, Except.ok.injEq] at h
    rw [← h]
    rfl

end Store

end BellaLang
