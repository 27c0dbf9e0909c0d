-- Tracing only observes. What a run shows at one level is what it shows at the
-- highest level without the notes that are not taken, so neither its end nor
-- what it prints depends on the level, or on where the trace goes.
import BellaLang.Proofs.Endings

namespace BellaLang

/-! ## What a trace shows -/

/-- Every note is taken, and no line is refused. -/
def Tracing.full : Tracing := ⟨3, false⟩

/-- Every printed line is shown, and the notes that are taken. -/
def Tracing.shows (t : Tracing) : Event → Bool
  | .printed _ => true
  | .noted n => t.takes n

/-- The state as a trace shows it. -/
def Machine.seenBy (m : Machine) (t : Tracing) : Machine := { m with log := m.log.filter t.shows }

theorem takes_full (n : Note) : Tracing.full.takes n = true := by
  cases n <;> rfl

theorem refusal?_full (n : Note) : Tracing.full.refusal? n = none := rfl

theorem printed_seenBy (m : Machine) (t : Tracing) : (m.seenBy t).printed = m.printed := by
  have hlog : ∀ log : List Event,
      (log.filter t.shows).filterMap Event.printed? = log.filterMap Event.printed? := by
    intro log
    induction log with
    | nil => rfl
    | cons e log ih =>
      cases e with
      | printed line => simp [List.filter_cons, Tracing.shows, Event.printed?, ih]
      | noted n =>
        rw [List.filter_cons]
        split <;> exact ih
  rw [Machine.printed, Machine.seenBy, hlog, Machine.printed]

/-! ## Actions seen by a trace -/

/-- The end of a tree that is not well formed. -/
def Stop.IsDefect : Stop → Prop
  | .defect _ => True
  | _ => False

/-- Unless one of them meets a defect, the first action is the second one as the trace shows
it. -/
def Observes {α : Type} (t : Tracing) (x y : Action α) : Prop :=
  ∀ m, ¬ EndsBy Stop.IsDefect (x (m.seenBy t)).1 → ¬ EndsBy Stop.IsDefect (y m).1 →
    x (m.seenBy t) = ((y m).1, (y m).2.seenBy t)

open BellaLang.Action

section actions

variable {α β : Type} {t : Tracing}

theorem observes_pure (a : α) : Observes t (pure a) (pure a) := fun _ _ _ => rfl

theorem observes_stop (e : Stop) : Observes t (stop e : Action α) (stop e) := fun _ _ _ => rfl

theorem observes_query (f : Store → Except Stop α) : Observes t (query f) (query f) :=
  fun _ _ _ => rfl

theorem observes_ofExcept (result : Except Fault α) :
    Observes t (ofExcept result) (ofExcept result) := by
  intro m _ _
  rcases result with f | a <;> rfl

theorem observes_update (f : Store → Except Stop Store) : Observes t (update f) (update f) := by
  intro m _ _
  simp only [update, Machine.seenBy]
  rcases f m.store with e | store <;> rfl

theorem observes_print (line : Text) :
    Observes t (record (.printed line)) (record (.printed line)) := fun _ _ _ => rfl

/-- A note that is not taken leaves no trace of itself, and one that is taken is shown. -/
theorem observes_note (n : Note) : Observes t (note t n) (note .full n) := by
  intro m hx _
  have hfull : note .full n m = (.ok (), { m with log := .noted n :: m.log }) := by
    simp only [note, takes_full, refusal?_full]
    rfl
  rw [hfull]
  by_cases htakes : t.takes n = true
  · simp only [note, htakes, if_true] at hx ⊢
    rcases hrefusal : t.refusal? n with _ | d
    · simp [record, Machine.seenBy, Tracing.shows, htakes]
    · rw [hrefusal] at hx
      exact absurd trivial hx
  · have hskip : note t n (m.seenBy t) = (.ok (), m.seenBy t) := by
      rw [note, if_neg htakes]
      rfl
    rw [hskip]
    simp [Machine.seenBy, Tracing.shows, htakes]

theorem observes_bind {x y : Action α} {f g : α → Action β} (hxy : Observes t x y)
    (hfg : ∀ a, Observes t (f a) (g a)) : Observes t (x >>= f) (y >>= g) := by
  intro m hx hy
  -- A defect of the first part would be one of the whole.
  have hfirst : ∀ {z : Action α} {k : α → Action β} {m' : Machine},
      ¬ EndsBy Stop.IsDefect ((z >>= k) m').1 → ¬ EndsBy Stop.IsDefect (z m').1 := by
    intro z k m' hz hd
    rcases hr : z m' with ⟨e | a, m''⟩
    · rw [bind_error hr] at hz
      rw [hr] at hd
      exact hz hd
    · rw [hr] at hd
      exact hd
  have heq := hxy m (hfirst hx) (hfirst hy)
  rcases hr : y m with ⟨e | a, m'⟩
  · rw [hr] at heq
    rw [bind_error heq, bind_error hr]
  · rw [hr] at heq
    rw [bind_ok heq] at hx ⊢
    rw [bind_ok hr] at hy ⊢
    exact hfg a m' hx hy

theorem observes_inside {x y : Action α} (f : Function) (args : List Value)
    (h : Observes t x y) : Observes t (inside f args x) (inside f args y) := by
  rintro ⟨s, log⟩ hx hy
  change ¬ EndsBy Stop.IsDefect (inside f args x ⟨s, log.filter t.shows⟩).1 at hx
  change inside f args x ⟨s, log.filter t.shows⟩ = _
  rcases he : s.enter f args with e | inner
  · rw [inside_error he, inside_error he]
    rfl
  · rw [inside_ok he] at hx hy ⊢
    rw [inside_ok he]
    have heq : x ⟨inner, log.filter t.shows⟩ = _ := h ⟨inner, log⟩ hx hy
    rw [heq]
    rfl

theorem observes_noteDefined (name : Json) (params : List Json) :
    Observes t (noteDefined t name params) (noteDefined .full name params) := by
  unfold noteDefined
  rw [if_pos (takes_full _)]
  rcases writtenParams 0 params with d | written
  · exact fun m _ hy => absurd trivial hy
  · by_cases htakes : t.takes (.defined name []) = true
    · rw [if_pos htakes]
      exact observes_note _
    · -- Whether the note is taken does not depend on the parameters.
      have hskip : note t (.defined name written) = pure () := if_neg htakes
      rw [if_neg htakes, ← hskip]
      exact observes_note _

end actions

/-! ## Expressions -/

section expressions

variable {t : Tracing} {call call' : Caller}

theorem observes_evaluateAllWith {nodes : List Node}
    (h : ∀ node ∈ nodes, Observes t (evaluateWith t call node) (evaluateWith .full call' node)) :
    Observes t (evaluateAllWith t call nodes) (evaluateAllWith .full call' nodes) := by
  induction nodes with
  | nil => exact observes_pure []
  | cons node nodes ih =>
    rw [evaluateAllWith, evaluateAllWith]
    apply observes_bind (h node (by simp))
    intro value
    exact observes_bind (ih fun n hn => h n (by simp [hn])) fun values => observes_pure _

theorem observes_evaluateWith (h : ∀ f args, Observes t (call f args) (call' f args))
    (node : Node) : Observes t (evaluateWith t call node) (evaluateWith .full call' node) := by
  induction node with
  | numeral value => exact observes_pure _
  | booleanLiteral value => exact observes_pure _
  | identifier name => exact observes_query _
  | unary op operand ih =>
    rw [evaluateWith, evaluateWith]
    exact observes_bind ih fun value => observes_ofExcept _
  | binary op left right ihl ihr =>
    rw [evaluateWith, evaluateWith]
    apply observes_bind ihl
    intro a
    rcases shortCircuit? op with _ | final
    · exact observes_bind ihr fun b => observes_ofExcept _
    · apply observes_bind (observes_ofExcept _)
      intro test
      split
      · exact observes_pure _
      · apply observes_bind ihr
        intro b
        exact observes_bind (observes_ofExcept _) fun result => observes_pure _
  | conditional test consequent alternate iht ihc iha =>
    rw [evaluateWith, evaluateWith]
    apply observes_bind iht
    intro value
    apply observes_bind (observes_ofExcept _)
    intro holds
    apply observes_bind (observes_note _)
    intro _
    split
    · exact ihc
    · exact iha
  | arrayLiteral elements ih =>
    rw [evaluateWith, evaluateWith]
    exact observes_bind (observes_evaluateAllWith ih) fun values => observes_pure _
  | subscript array index iha ihi =>
    rw [evaluateWith, evaluateWith]
    apply observes_bind iha
    intro target
    exact observes_bind ihi fun position => observes_ofExcept _
  | call callee args ih =>
    rw [evaluateWith, evaluateWith]
    apply observes_bind (observes_query _)
    intro f
    exact observes_bind (observes_evaluateAllWith ih) fun values => h f values
  | _ => exact observes_stop _

theorem observes_invoke (depth : Nat) (f : Function) (args : List Value) :
    Observes t (invoke t depth f args) (invoke .full depth f args) := by
  induction depth generalizing f args with
  | zero => exact observes_stop _
  | succ depth ih =>
    rw [invoke, invoke]
    apply observes_bind (observes_ofExcept _)
    intro _
    apply observes_bind (observes_note _)
    intro _
    apply observes_bind (observes_inside f args (observes_evaluateWith ih f.body))
    intro result
    exact observes_bind (observes_note _) fun _ => observes_pure _

theorem observes_evaluate (depth : Nat) (node : Node) :
    Observes t (evaluate t depth node) (evaluate .full depth node) :=
  observes_evaluateWith (observes_invoke depth) node

end expressions

/-! ## Statements -/

section statements

variable {t : Tracing} {depth rounds : Nat}

theorem observes_repeatWhile {test test' : Action Bool} {body body' : Action Unit}
    (ht : Observes t test test') (hb : Observes t body body') (rounds : Nat) :
    Observes t (repeatWhile rounds test body) (repeatWhile rounds test' body') := by
  induction rounds with
  | zero => exact observes_stop _
  | succ rounds ih =>
    rw [repeatWhile, repeatWhile]
    apply observes_bind ht
    intro holds
    split
    · exact observes_bind hb fun _ => ih
    · exact observes_pure ()

theorem observes_loopTest (test : Node) :
    Observes t (loopTest ⟨t, depth, rounds⟩ test) (loopTest ⟨.full, depth, rounds⟩ test) := by
  rw [loopTest, loopTest]
  apply observes_bind (observes_evaluate depth test)
  intro value
  apply observes_bind (observes_ofExcept _)
  intro holds
  exact observes_bind (observes_note _) fun _ => observes_pure _

theorem observes_executeAll {nodes : List Node}
    (h : ∀ node ∈ nodes,
      Observes t (execute ⟨t, depth, rounds⟩ node) (execute ⟨.full, depth, rounds⟩ node)) :
    Observes t (executeAll ⟨t, depth, rounds⟩ nodes)
      (executeAll ⟨.full, depth, rounds⟩ nodes) := by
  induction nodes with
  | nil => exact observes_pure ()
  | cons node nodes ih =>
    rw [executeAll, executeAll]
    exact observes_bind (h node (by simp)) fun _ => ih fun n hn => h n (by simp [hn])

/-- The body of a loop is a node of its own, so blocks are part of the induction. -/
theorem observes_execute (node : Node) :
    Observes t (execute ⟨t, depth, rounds⟩ node) (execute ⟨.full, depth, rounds⟩ node) ∧
      Observes t (executeBlock ⟨t, depth, rounds⟩ node)
        (executeBlock ⟨.full, depth, rounds⟩ node) := by
  induction node with
  | block statements ih =>
    simp only [execute, executeBlock]
    exact ⟨observes_stop _, observes_executeAll fun n hn => (ih n hn).1⟩
  | variableDeclaration name expr =>
    simp only [execute, executeBlock]
    refine ⟨?_, observes_stop _⟩
    apply observes_bind (observes_evaluate depth expr)
    intro value
    exact observes_bind (observes_update _) fun _ => observes_note _
  | functionDeclaration name params body =>
    simp only [execute, executeBlock]
    refine ⟨?_, observes_stop _⟩
    exact observes_bind (observes_update _) fun _ => observes_noteDefined name params
  | assignment name expr =>
    simp only [execute, executeBlock]
    refine ⟨?_, observes_stop _⟩
    apply observes_bind (observes_evaluate depth expr)
    intro value
    exact observes_bind (observes_update _) fun _ => observes_note _
  | printStatement expr =>
    simp only [execute, executeBlock]
    refine ⟨?_, observes_stop _⟩
    exact observes_bind (observes_evaluate depth expr) fun value => observes_print _
  | whileStatement test body _ ihb =>
    simp only [execute, executeBlock]
    exact ⟨observes_repeatWhile (observes_loopTest test) ihb.2 rounds, observes_stop _⟩
  | _ =>
    simp only [execute, executeBlock]
    exact ⟨observes_stop _, observes_stop _⟩

theorem observes_runProgram (program : Node) :
    Observes t (runProgram ⟨t, depth, rounds⟩ program)
      (runProgram ⟨.full, depth, rounds⟩ program) := by
  rw [runProgram, runProgram]
  apply observes_bind (observes_note _)
  intro _
  refine observes_bind ?_ fun _ => observes_note _
  cases program with
  | program block => exact (observes_execute block).2
  | _ => exact observes_stop _

end statements

/-! ## Runs -/

section runs

variable {text : Text} {program : Node}

theorem not_defect_of_parse (hparse : Source.parse text = .ok program) (s : Settings) :
    ¬ EndsBy Stop.IsDefect (run s program).1 := by
  by_cases hfuel : (run s program).1 = .error .outOfFuel
  · rw [hfuel]
    exact id
  · cases hresult : (run s program).1 with
    | ok u => exact id
    | error e =>
      have hending := ending_of_run hparse s hfuel
      rw [hresult] at hending
      cases hending <;> exact id

/-- A run is the run that notes everything, as the trace shows it. -/
theorem run_seenBy (hparse : Source.parse text = .ok program) (t : Tracing) (depth rounds : Nat) :
    run ⟨t, depth, rounds⟩ program =
      ((run ⟨.full, depth, rounds⟩ program).1, (run ⟨.full, depth, rounds⟩ program).2.seenBy t) :=
  observes_runProgram program .start (not_defect_of_parse hparse ⟨t, depth, rounds⟩)
    (not_defect_of_parse hparse ⟨.full, depth, rounds⟩)

/-- Two runs end alike, leave the same bindings and frames, and print the same lines. -/
structure Alike (a b : Except Stop Unit × Machine) : Prop where
  result : a.1 = b.1
  globals : a.2.store.globals = b.2.store.globals
  frames : a.2.store.frames = b.2.store.frames
  printed : a.2.printed = b.2.printed

/-- However deeply calls may nest and however many rounds loops may go, the run is cut short. -/
def RunsForever (t : Tracing) (program : Node) : Prop :=
  ∀ depth rounds, Cut (run ⟨t, depth, rounds⟩ program).1

end runs

/-! ## Interleavings -/

/-- The last list has the members of the other two, those of each in their order. -/
inductive Interleaves {α : Type} : List α → List α → List α → Prop
  | nil : Interleaves [] [] []
  | left (x : α) {xs ys zs : List α} (h : Interleaves xs ys zs) :
      Interleaves (x :: xs) ys (x :: zs)
  | right (y : α) {xs ys zs : List α} (h : Interleaves xs ys zs) :
      Interleaves xs (y :: ys) (y :: zs)

section interleaving

variable {α : Type} {xs ys zs : List α}

theorem Interleaves.snocLeft (h : Interleaves xs ys zs) (x : α) :
    Interleaves (xs ++ [x]) ys (zs ++ [x]) := by
  induction h with
  | nil => exact .left x .nil
  | left y _ ih => exact .left y ih
  | right y _ ih => exact .right y ih

theorem Interleaves.snocRight (h : Interleaves xs ys zs) (y : α) :
    Interleaves xs (ys ++ [y]) (zs ++ [y]) := by
  induction h with
  | nil => exact .right y .nil
  | left x _ ih => exact .left x ih
  | right x _ ih => exact .right x ih

/-- The lines of a state are its printed lines and its trace lines. -/
theorem interleaves_lines (m : Machine) : Interleaves m.printed m.trace m.lines := by
  obtain ⟨store, log⟩ := m
  induction log with
  | nil => exact .nil
  | cons e log ih =>
    simp only [Machine.printed, Machine.trace, Machine.lines] at ih ⊢
    cases e with
    | printed line =>
      simp only [List.filterMap_cons, Event.printed?, Event.noted?, List.map_cons, Event.text,
        List.reverse_cons]
      exact ih.snocLeft line
    | noted n =>
      simp only [List.filterMap_cons, Event.printed?, Event.noted?, List.map_cons, Event.text,
        List.reverse_cons]
      exact ih.snocRight n.text

end interleaving

/-- Whatever is traced of a program and wherever the trace goes, its run ends in the same way,
leaves the same bindings and frames and prints the same lines, and it ends at all or not. Where
trace and printed lines go to one place, what stands there is an interleaving of the lines that
the run prints and the lines that it traces when they go to two. -/
theorem tracing_only_observes {text : Text} {program : Node}
    (hparse : Source.parse text = .ok program) :
    (∀ (t t' : Tracing) (depth rounds : Nat),
      Alike (run ⟨t, depth, rounds⟩ program) (run ⟨t', depth, rounds⟩ program)) ∧
    (∀ t t' : Tracing, RunsForever t program ↔ RunsForever t' program) ∧
    ∀ level depth rounds : Nat,
      Interleaves (run ⟨⟨level, true⟩, depth, rounds⟩ program).2.printed
        (run ⟨⟨level, true⟩, depth, rounds⟩ program).2.trace
        (run ⟨⟨level, false⟩, depth, rounds⟩ program).2.lines := by
  have hresult : ∀ (t t' : Tracing) (depth rounds : Nat),
      (run ⟨t, depth, rounds⟩ program).1 = (run ⟨t', depth, rounds⟩ program).1 := by
    intro t t' depth rounds
    rw [run_seenBy hparse t, run_seenBy hparse t']
  refine ⟨?_, ?_, ?_⟩
  · intro t t' depth rounds
    refine ⟨hresult t t' depth rounds, ?_, ?_, ?_⟩
    · rw [run_seenBy hparse t, run_seenBy hparse t']
      rfl
    · rw [run_seenBy hparse t, run_seenBy hparse t']
      rfl
    · rw [run_seenBy hparse t, run_seenBy hparse t', printed_seenBy, printed_seenBy]
  · intro t t'
    unfold RunsForever
    simp only [hresult t t']
  · intro level depth rounds
    have hsame : run ⟨⟨level, true⟩, depth, rounds⟩ program =
        run ⟨⟨level, false⟩, depth, rounds⟩ program := by
      rw [run_seenBy hparse ⟨level, true⟩, run_seenBy hparse ⟨level, false⟩]
      rfl
    rw [hsame]
    exact interleaves_lines _

/-- A run that prints and then fails: it fails just so when nothing is traced, and what is traced
stands between its printed lines. -/
theorem tracing_only_observes_a_failing_run :
    let text : Text := "func f n = n print f(1) print f(2) ? 3 : 4"
    ∃ program, Source.parse text = .ok program ∧
      (run ⟨⟨0, true⟩, 2, 1⟩ program).1 = .error (.fault (.conditionalTest "Number")) ∧
      Alike (run ⟨⟨0, true⟩, 2, 1⟩ program) (run ⟨⟨3, true⟩, 2, 1⟩ program) ∧
      (run ⟨⟨3, false⟩, 2, 1⟩ program).2.lines =
        ["run start", "define function f(n)", "call f(1)", "return f -> 1", "1", "call f(2)",
          "return f -> 2"].map Text.ofString ∧
      Interleaves (run ⟨⟨3, true⟩, 2, 1⟩ program).2.printed
        (run ⟨⟨3, true⟩, 2, 1⟩ program).2.trace (run ⟨⟨3, false⟩, 2, 1⟩ program).2.lines := by
  intro text
  have hparse : Source.parse text = .ok (.program (.block
      [.functionDeclaration (.str "f") [.str "n"] (.identifier (.str "n")),
       .printStatement (.call (.str "f") [.numeral 1.0]),
       .printStatement (.conditional (.call (.str "f") [.numeral 2.0]) (.numeral 3.0)
         (.numeral 4.0))])) := by
    with_unfolding_all rfl
  obtain ⟨halike, _, hlines⟩ := tracing_only_observes hparse
  exact ⟨_, hparse, rfl, halike _ _ _ _, by decide +kernel, hlines _ _ _⟩

end BellaLang
