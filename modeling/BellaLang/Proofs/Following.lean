-- Runs that are followed. A follower does what a run does, action by action and call by
-- call, and may keep an account of it. Followed runs are written here once for all
-- followers: what relates a follower to the actions of a run, to sequences and to calls
-- relates it to the whole run.
import BellaLang.Execute
import BellaLang.Proofs.Kinds
import BellaLang.Proofs.Looking

namespace BellaLang

/-! ## Followers -/

/-- A way to follow a run: what it makes of an action, and of a part of the run inside a call. -/
class Follower (M : Type → Type) extends Monad M where
  step {α : Type} (act : Action α) : M α
  inside {α : Type} (f : Function) (args : List Value) (part : M α) : M α

section definitions

variable {M : Type → Type} [Follower M]

mutual

/-- An expression, given how calls are followed. -/
def followWith (t : Tracing) (call : Function → List Value → M Value) : Node → M Value
  | .numeral value => Follower.step (pure (.number value))
  | .booleanLiteral value => Follower.step (pure (.boolean value))
  | .identifier name => Follower.step (Action.query (·.get name))
  | .unary op operand => do
    let value ← followWith t call operand
    Follower.step (Action.ofExcept (applyUnary op value))
  | .binary op left right => do
    let a ← followWith t call left
    match shortCircuit? op with
    | some final => do
      let test ← Follower.step (Action.ofExcept (asBoolean op a))
      if test = final then Follower.step (pure (.boolean final))
      else do
        let b ← followWith t call right
        let result ← Follower.step (Action.ofExcept (asBoolean op b))
        Follower.step (pure (.boolean result))
    | none => do
      let b ← followWith t call right
      Follower.step (Action.ofExcept (applyBinary op a b))
  | .conditional test consequent alternate => do
    let value ← followWith t call test
    let holds ← Follower.step (Action.ofExcept (asTest value))
    Follower.step (Action.note t (.conditionalTest holds))
    if holds then followWith t call consequent else followWith t call alternate
  | .arrayLiteral elements => do
    let values ← followAllWith t call elements
    Follower.step (pure (.array values))
  | .subscript array index => do
    let target ← followWith t call array
    let position ← followWith t call index
    Follower.step (Action.ofExcept (applySubscript target position))
  | .call callee args => do
    let f ← Follower.step (Action.query (·.getFunction callee))
    let values ← followAllWith t call args
    call f values
  | other => Follower.step (Action.stop (.defect (.notExpression other.typeName)))

/-- Some expressions, from left to right. -/
def followAllWith (t : Tracing) (call : Function → List Value → M Value) :
    List Node → M (List Value)
  | [] => Follower.step (pure [])
  | node :: nodes => do
    let value ← followWith t call node
    let values ← followAllWith t call nodes
    Follower.step (pure (value :: values))

end

/-- A call, with `depth` calls left to nest. -/
def followCall (t : Tracing) : Nat → Function → List Value → M Value
  | 0, _, _ => Follower.step (Action.stop .tooDeep)
  | depth + 1, f, args => do
    Follower.step (Action.ofExcept (checkCall f args))
    Follower.step (Action.note t (.called f.name args))
    let result ← Follower.inside f args (followWith t (followCall t depth) f.body)
    Follower.step (Action.note t (.returned f.name result))
    Follower.step (pure result)

/-- A loop, for at most the given number of rounds. -/
def followWhile : Nat → M Bool → M Unit → M Unit
  | 0, _, _ => Follower.step (Action.stop .outOfFuel)
  | rounds + 1, test, body => do
    if ← test then do
      body
      followWhile rounds test body
    else Follower.step (pure ())

variable (s : Settings)

/-- An expression in a statement. -/
def followValue (expr : Node) : M Value :=
  followWith s.toTracing (followCall s.toTracing s.depth) expr

/-- The test of a loop. -/
def followTest (test : Node) : M Bool := do
  let value ← followValue s test
  let holds ← Follower.step (Action.ofExcept (asLoopTest value))
  Follower.step (Action.note s.toTracing (.loopTest holds))
  Follower.step (pure holds)

mutual

/-- A statement. -/
def followStatement : Node → M Unit
  | .variableDeclaration name expr => do
    let value ← followValue s expr
    Follower.step (Action.update (·.declareVariable name value))
    Follower.step (Action.note s.toTracing (.declared name value))
  | .functionDeclaration name params body => do
    Follower.step (Action.update fun store => (store.declareFunction name params body).map (·.2))
    Follower.step (noteDefined s.toTracing name params)
  | .assignment name expr => do
    let value ← followValue s expr
    Follower.step (Action.update (·.assign name value))
    Follower.step (Action.note s.toTracing (.assigned name value))
  | .printStatement expr => do
    let value ← followValue s expr
    Follower.step (Action.record (.printed value.text))
  | .whileStatement test body => followWhile s.rounds (followTest s test) (followBlock body)
  | other => Follower.step (Action.stop (.defect (.notStatement other.typeName)))

/-- A block. -/
def followBlock : Node → M Unit
  | .block statements => followStatements statements
  | other => Follower.step (Action.stop (.defect (.notBlock other.typeName)))

/-- Statements one after the other. -/
def followStatements : List Node → M Unit
  | [] => Follower.step (pure ())
  | statement :: statements => do
    followStatement statement
    followStatements statements

end

/-- A program. -/
def followProgram : Node → M Unit
  | .program block => followBlock s block
  | other => Follower.step (Action.stop (.defect (.notProgram other.typeName)))

/-- A whole run. -/
def followRun (program : Node) : M Unit := do
  Follower.step (Action.note s.toTracing .runStart)
  followProgram s program
  Follower.step (Action.note s.toTracing .runFinished)

end definitions

/-! ## Quiet actions -/

/-- The note of the beginning or of the end of a call. -/
def Note.isCall : Note → Bool
  | .called _ _ => true
  | .returned _ _ => true
  | _ => false

/-- The note that an event is. -/
def Event.note? : Event → Option Note
  | .printed _ => none
  | .noted note => some note

/-- The notes of a state, oldest first. -/
def Machine.notes (m : Machine) : List Note := (m.log.filterMap Event.note?).reverse

theorem notes_noted (m : Machine) (n : Note) :
    Machine.notes { m with log := .noted n :: m.log } = m.notes ++ [n] := by
  simp [Machine.notes, Event.note?]

/-- A note is taken, or left out, or the tree is found to be at fault. -/
theorem note_cases (t : Tracing) (n : Note) (m : Machine) :
    Action.note t n m = (.ok (), { m with log := .noted n :: m.log }) ∨
      (Action.note t n m = (.ok (), m) ∧ t.level < n.level) ∨
      ∃ d, Action.note t n m = (.error (.defect d), m) := by
  unfold Action.note
  split
  · rcases t.refusal? n with _ | d
    · exact Or.inl rfl
    · exact Or.inr (Or.inr ⟨d, rfl⟩)
  · rename_i htakes
    exact Or.inr (Or.inl ⟨rfl, Nat.lt_of_not_le (by simpa [Tracing.takes] using htakes)⟩)

/-- The action leaves the frames that there are, and takes no note of a call or of the run. -/
def Action.Quiet {α : Type} (act : Action α) : Prop :=
  ∀ m, (act m).2.store.frames = m.store.frames ∧ ∃ notes,
    (act m).2.notes = m.notes ++ notes ∧ ∀ n ∈ notes, 2 ≤ n.level ∧ n.isCall = false

section quiet

variable {α : Type}

theorem quiet_still {act : Action α} (h : ∀ m, (act m).2 = m) : act.Quiet := by
  intro m
  rw [h m]
  exact ⟨rfl, [], by simp⟩

theorem quiet_ofExcept (r : Except Fault α) : Action.Quiet (Action.ofExcept r) :=
  quiet_still fun _ => by rcases r with f | a <;> rfl

theorem quiet_note (t : Tracing) {n : Note} (hlevel : 2 ≤ n.level) (hn : n.isCall = false) :
    Action.Quiet (Action.note t n) := by
  intro m
  rcases note_cases t n m with h | ⟨h, _⟩ | ⟨d, h⟩ <;> rw [h]
  · exact ⟨rfl, [n], notes_noted m n, by simp [hlevel, hn]⟩
  · exact ⟨rfl, [], by simp⟩
  · exact ⟨rfl, [], by simp⟩

theorem quiet_noteDefined (t : Tracing) (name : Json) (params : List Json) :
    Action.Quiet (noteDefined t name params) := by
  unfold noteDefined
  split
  · split
    · exact quiet_note t (by simp [Note.level]) rfl
    · exact quiet_still fun _ => rfl
  · exact quiet_still fun _ => rfl

theorem quiet_update {g : Store → Except Stop Store}
    (h : ∀ s s', g s = .ok s' → s'.frames = s.frames) : Action.Quiet (Action.update g) := by
  intro m
  unfold Action.update
  rcases hg : g m.store with e | s
  · exact ⟨rfl, [], by simp⟩
  · exact ⟨h _ _ hg, [], (List.append_nil _).symm, by simp⟩

theorem quiet_print (line : Text) : Action.Quiet (Action.record (.printed line)) :=
  fun _ => ⟨rfl, [], (List.append_nil _).symm, by simp⟩

theorem frames_declareVariable {name : Json} {value : Value} (store store' : Store)
    (h : store.declareVariable name value = .ok store') : store'.frames = store.frames := by
  simp only [Store.declareVariable, bind_eq_ok] at h
  obtain ⟨key, _, h⟩ := h
  split at h
  · cases h
  · cases h
    rfl

theorem frames_declareFunction {name : Json} {params : List Json} {body : Node}
    (store store' : Store)
    (h : (store.declareFunction name params body).map (·.2) = .ok store') :
    store'.frames = store.frames := by
  rw [map_eq_ok] at h
  obtain ⟨⟨f, _⟩, h, rfl⟩ := h
  simp only [Store.declareFunction, bind_eq_ok] at h
  obtain ⟨key, _, h⟩ := h
  split at h
  · cases h
  · simp only [bind_eq_ok] at h
    obtain ⟨_, _, h⟩ := h
    cases h
    rfl

theorem frames_assign {name : Json} {value : Value} (store store' : Store)
    (h : store.assign name value = .ok store') : store'.frames = store.frames := by
  simp only [Store.assign, bind_eq_ok] at h
  obtain ⟨key, _, h⟩ := h
  split at h
  · cases h
  · cases h
  · cases h
    rfl

end quiet

/-! ## Followers that do what the run does -/

/-- A relation of the parts of a followed run to actions that holds of quiet actions, and is passed
on by sequences and by calls. -/
structure Simulates {M : Type → Type} [Follower M] (R : {α : Type} → M α → Action α → Prop)
    (t : Tracing) : Prop where
  step {α : Type} {act : Action α} (h : act.Quiet) : R (Follower.step act) act
  bind {α β : Type} {part : M α} {act : Action α} {next : α → M β} {f : α → Action β}
    (h : R part act) (hnext : ∀ a, R (next a) (f a)) : R (part >>= next) (act >>= f)
  call (f : Function) (args : List Value) {part : M Value} {act : Action Value} (h : R part act) :
    R (do Follower.step (Action.note t (.called f.name args))
          let result ← Follower.inside f args part
          Follower.step (Action.note t (.returned f.name result))
          Follower.step (pure result))
      (do Action.note t (.called f.name args)
          let result ← Action.inside f args act
          Action.note t (.returned f.name result)
          return result)

namespace Simulates

variable {M : Type → Type} [Follower M] {R : {α : Type} → M α → Action α → Prop}

section expressions

variable {t : Tracing} (h : Simulates R t) {followF : Function → List Value → M Value}
  {call : Caller}

include h

theorem still {α : Type} {act : Action α} (hact : ∀ m, (act m).2 = m) :
    R (Follower.step act) act :=
  h.step (quiet_still hact)

theorem ofExcept {α : Type} (r : Except Fault α) :
    R (Follower.step (Action.ofExcept r)) (Action.ofExcept r) :=
  h.step (quiet_ofExcept r)

theorem expressions {nodes : List Node}
    (hall : ∀ node ∈ nodes, R (followWith t followF node) (evaluateWith t call node)) :
    R (followAllWith t followF nodes) (evaluateAllWith t call nodes) := by
  induction nodes with
  | nil => exact h.still fun _ => rfl
  | cons node nodes ih =>
    rw [followAllWith, evaluateAllWith]
    apply h.bind (hall node (by simp))
    intro value
    exact h.bind (ih fun n hn => hall n (by simp [hn])) fun values => h.still fun _ => rfl

theorem expression (hcall : ∀ f args, R (followF f args) (call f args)) (node : Node) :
    R (followWith t followF node) (evaluateWith t call node) := by
  induction node with
  | numeral value => exact h.still fun _ => rfl
  | booleanLiteral value => exact h.still fun _ => rfl
  | identifier name => exact h.still fun _ => rfl
  | unary op operand ih =>
    rw [followWith, evaluateWith]
    exact h.bind ih fun value => h.ofExcept _
  | binary op left right ihl ihr =>
    rw [followWith, evaluateWith]
    apply h.bind ihl
    intro a
    rcases shortCircuit? op with _ | final
    · exact h.bind ihr fun b => h.ofExcept _
    · apply h.bind (h.ofExcept _)
      intro test
      split
      · exact h.still fun _ => rfl
      · apply h.bind ihr
        intro b
        exact h.bind (h.ofExcept _) fun result => h.still fun _ => rfl
  | conditional test consequent alternate iht ihc iha =>
    rw [followWith, evaluateWith]
    apply h.bind iht
    intro value
    apply h.bind (h.ofExcept _)
    intro holds
    apply h.bind (h.step (quiet_note t (by simp [Note.level]) rfl))
    intro _
    split
    · exact ihc
    · exact iha
  | arrayLiteral elements ih =>
    rw [followWith, evaluateWith]
    exact h.bind (h.expressions ih) fun values => h.still fun _ => rfl
  | subscript array index iha ihi =>
    rw [followWith, evaluateWith]
    apply h.bind iha
    intro target
    exact h.bind ihi fun position => h.ofExcept _
  | call callee args ih =>
    rw [followWith, evaluateWith]
    apply h.bind (h.still fun _ => rfl)
    intro f
    exact h.bind (h.expressions ih) fun values => hcall f values
  | _ => exact h.still fun _ => rfl

theorem invocation (depth : Nat) (f : Function) (args : List Value) :
    R (followCall t depth f args) (invoke t depth f args) := by
  induction depth generalizing f args with
  | zero => exact h.still fun _ => rfl
  | succ depth ih =>
    rw [followCall, invoke]
    apply h.bind (h.ofExcept _)
    intro _
    exact h.call f args (h.expression ih f.body)

theorem loop {test : M Bool} {test' : Action Bool} {body : M Unit} {body' : Action Unit}
    (ht : R test test') (hb : R body body') (rounds : Nat) :
    R (followWhile rounds test body) (repeatWhile rounds test' body') := by
  induction rounds with
  | zero => exact h.still fun _ => rfl
  | succ rounds ih =>
    rw [followWhile, repeatWhile]
    apply h.bind ht
    intro holds
    split
    · exact h.bind hb fun _ => ih
    · exact h.still fun _ => rfl

end expressions

section statements

variable {s : Settings} (h : Simulates R s.toTracing)

include h

theorem value (expr : Node) :
    R (followValue s expr) (evaluate s.toTracing s.depth expr) :=
  h.expression (h.invocation s.depth) expr

theorem test (test : Node) : R (followTest s test) (loopTest s test) := by
  rw [followTest, loopTest]
  apply h.bind (h.value test)
  intro value
  apply h.bind (h.ofExcept _)
  intro holds
  apply h.bind (h.step (quiet_note _ (by simp [Note.level]) rfl))
  exact fun _ => h.still fun _ => rfl

theorem statements {nodes : List Node}
    (hall : ∀ node ∈ nodes, R (followStatement s node) (execute s node)) :
    R (followStatements s nodes) (executeAll s nodes) := by
  induction nodes with
  | nil =>
    rw [followStatements, executeAll]
    exact h.still fun _ => rfl
  | cons node nodes ih =>
    rw [followStatements, executeAll]
    exact h.bind (hall node (by simp)) fun _ => ih fun n hn => hall n (by simp [hn])

/-- The body of a loop is a node of its own, so blocks are part of the induction. -/
theorem statement (node : Node) :
    R (followStatement s node) (execute s node) ∧
      R (followBlock s node) (executeBlock s node) := by
  have hstop : ∀ e, R (Follower.step (Action.stop e : Action Unit)) (Action.stop e) :=
    fun e => h.still fun _ => rfl
  induction node with
  | block statements ih =>
    simp only [followStatement, followBlock, execute, executeBlock]
    exact ⟨hstop _, h.statements fun n hn => (ih n hn).1⟩
  | variableDeclaration name expr =>
    simp only [followStatement, followBlock, execute, executeBlock]
    refine ⟨?_, hstop _⟩
    apply h.bind (h.value expr)
    intro value
    apply h.bind (h.step (quiet_update frames_declareVariable))
    exact fun _ => h.step (quiet_note _ (by simp [Note.level]) rfl)
  | functionDeclaration name params body =>
    simp only [followStatement, followBlock, execute, executeBlock]
    refine ⟨?_, hstop _⟩
    apply h.bind (h.step (quiet_update frames_declareFunction))
    exact fun _ => h.step (quiet_noteDefined _ _ _)
  | assignment name expr =>
    simp only [followStatement, followBlock, execute, executeBlock]
    refine ⟨?_, hstop _⟩
    apply h.bind (h.value expr)
    intro value
    apply h.bind (h.step (quiet_update frames_assign))
    exact fun _ => h.step (quiet_note _ (by simp [Note.level]) rfl)
  | printStatement expr =>
    simp only [followStatement, followBlock, execute, executeBlock]
    exact ⟨h.bind (h.value expr) fun value => h.step (quiet_print _), hstop _⟩
  | whileStatement test body _ ihb =>
    simp only [followStatement, followBlock, execute, executeBlock]
    exact ⟨h.loop (h.test test) ihb.2 s.rounds, hstop _⟩
  | _ =>
    simp only [followStatement, followBlock, execute, executeBlock]
    exact ⟨hstop _, hstop _⟩

theorem program (program : Node) :
    R (followProgram s program) (executeProgram s program) := by
  cases program with
  | program block => exact (h.statement block).2
  | _ => exact h.still fun _ => rfl

/-- The notes of the run are its own, so the follower must be known on them. -/
theorem run (hnote : ∀ n : Note, n.level ≤ 1 →
    R (Follower.step (Action.note s.toTracing n)) (Action.note s.toTracing n)) (program : Node) :
    R (followRun s program) (runProgram s program) := by
  rw [followRun, runProgram]
  apply h.bind (hnote .runStart (Nat.le_refl 1))
  intro _
  exact h.bind (h.program program) fun _ => hnote .runFinished (Nat.le_refl 1)

end statements

end Simulates

end BellaLang
