-- A run is a row of statements. However a run ends, it has done some simple
-- statements one after the other, the rounds of loops unrolled, and nothing
-- else: a statement or a test that fails changes nothing.
import BellaLang.Proofs.Observing

namespace BellaLang

open BellaLang.Action

/-! ## States that only differ in their notes -/

/-- Two states hold the same bindings and frames, and the same lines were printed. -/
structure Machine.Agrees (m m' : Machine) : Prop where
  store : m.store = m'.store
  printed : m.printed = m'.printed

theorem Machine.Agrees.symm {m m' : Machine} (h : m.Agrees m') : m'.Agrees m :=
  ⟨h.store.symm, h.printed.symm⟩

theorem Machine.Agrees.trans {m m' m'' : Machine} (h : m.Agrees m') (h' : m'.Agrees m'') :
    m.Agrees m'' :=
  ⟨h.store.trans h'.store, h.printed.trans h'.printed⟩

/-- An action whose end and effect do not depend on the notes taken before it. -/
def Blind {α : Type} (act : Action α) : Prop :=
  ∀ m m', m.Agrees m' → (act m).1 = (act m').1 ∧ (act m).2.Agrees (act m').2

section blind

variable {α β : Type}

theorem agrees_of_looks {act : Action α} (h : Looks act) (m : Machine) : (act m).2.Agrees m :=
  ⟨h.store_eq m, h.printed_eq m⟩

theorem blind_of_looks {act : Action α} (h : Looks act) : Blind act := by
  intro m m' hm
  refine ⟨by rw [h.fst_eq, h.fst_eq, hm.store], ?_⟩
  exact (agrees_of_looks h m).trans (hm.trans (agrees_of_looks h m').symm)

theorem blind_update (f : Store → Except Stop Store) : Blind (update f) := by
  intro m m' hm
  simp only [update, hm.store]
  rcases f m'.store with e | store
  · exact ⟨rfl, hm⟩
  · exact ⟨rfl, rfl, hm.printed⟩

theorem blind_print (line : Text) : Blind (record (.printed line)) := by
  intro m m' hm
  refine ⟨rfl, hm.store, ?_⟩
  have hprinted := hm.printed
  simp only [Machine.printed, record, List.filterMap_cons, Event.printed?, List.reverse_cons]
    at hprinted ⊢
  rw [hprinted]

theorem blind_bind {x : Action α} {f : α → Action β} (hx : Blind x) (hf : ∀ a, Blind (f a)) :
    Blind (x >>= f) := by
  intro m m' hm
  obtain ⟨hfst, hsnd⟩ := hx m m' hm
  rcases hr : x m with ⟨e | a, m₁⟩
  · rcases hr' : x m' with ⟨e' | a', m₁'⟩
    · rw [hr, hr'] at hfst hsnd
      rw [bind_error hr, bind_error hr']
      cases hfst
      exact ⟨rfl, hsnd⟩
    · rw [hr, hr'] at hfst
      cases hfst
  · rcases hr' : x m' with ⟨e' | a', m₁'⟩
    · rw [hr, hr'] at hfst
      cases hfst
    · rw [hr, hr'] at hfst hsnd
      rw [bind_ok hr, bind_ok hr']
      cases hfst
      exact hf a m₁ m₁' hsnd

end blind

/-! ## Simple statements -/

/-- A statement that is no loop. -/
def Node.IsSimple : Node → Prop
  | .variableDeclaration _ _ => True
  | .functionDeclaration _ _ _ => True
  | .assignment _ _ => True
  | .printStatement _ => True
  | _ => False

/-- What a statement does before anything else is done: a loop evaluates its test, any other
statement is done at once. -/
def firstStep (s : Settings) : Node → Action Unit
  | .whileStatement test _ => do
    let _ ← loopTest s test
  | other => execute s other

/-- The action ends by a fault, and nothing tells that it was tried. -/
structure FailsInPlace (act : Action Unit) (m : Machine) (f : Fault) : Prop where
  result : (act m).1 = .error (.fault f)
  globals : (act m).2.store.globals = m.store.globals
  frames : (act m).2.store.frames = m.store.frames
  printed : (act m).2.printed = m.printed

section simple

variable {s : Settings} {m m' : Machine} {n : Node} {f : Fault}

theorem blind_simple (s : Settings) (hn : n.IsSimple) : Blind (execute s n) := by
  cases n with
  | variableDeclaration name expr =>
    rw [execute]
    apply blind_bind (blind_of_looks (looks_evaluate _ _))
    intro value
    exact blind_bind (blind_update _) fun _ => blind_of_looks (looks_note _ _)
  | functionDeclaration name params body =>
    rw [execute]
    exact blind_bind (blind_update _) fun _ => blind_of_looks (looks_noteDefined _ _ _)
  | assignment name expr =>
    rw [execute]
    apply blind_bind (blind_of_looks (looks_evaluate _ _))
    intro value
    exact blind_bind (blind_update _) fun _ => blind_of_looks (looks_note _ _)
  | printStatement expr =>
    rw [execute]
    exact blind_bind (blind_of_looks (looks_evaluate _ _)) fun value => blind_print _
  | _ => exact hn.elim

theorem looks_firstStep_while (s : Settings) (test body : Node) :
    Looks (firstStep s (.whileStatement test body)) :=
  looks_bind (looks_loopTest s test) fun _ => looks_pure ()

theorem blind_firstStep (s : Settings) (n : Node) : Blind (firstStep s n) := by
  cases n with
  | whileStatement test body => exact blind_of_looks (looks_firstStep_while s test body)
  | variableDeclaration name expr => exact blind_simple s trivial
  | functionDeclaration name params body => exact blind_simple s trivial
  | assignment name expr => exact blind_simple s trivial
  | printStatement expr => exact blind_simple s trivial
  | _ =>
    rw [firstStep, execute]
    · exact blind_of_looks (looks_stop _)
    all_goals simp

theorem firstStep_simple (hn : n.IsSimple) : firstStep s n = execute s n := by
  cases n with
  | whileStatement test body => exact hn.elim
  | _ => rfl

theorem FailsInPlace.of_agrees {act : Action Unit} (h : FailsInPlace act m f) (hact : Blind act)
    (hm : m.Agrees m') : FailsInPlace act m' f := by
  obtain ⟨hfst, hsnd⟩ := hact m m' hm
  refine ⟨hfst.symm.trans h.result, ?_, ?_, ?_⟩
  · rw [← hsnd.store, ← hm.store, h.globals]
  · rw [← hsnd.store, ← hm.store, h.frames]
  · rw [← hsnd.printed, ← hm.printed, h.printed]

/-! ### Failing changes nothing -/

/-- If the action ends by a fault, it leaves the state as it was but for notes. -/
def FailsClean {α : Type} (act : Action α) : Prop :=
  ∀ m f, (act m).1 = .error (.fault f) → (act m).2.Agrees m

/-- The action never ends by a fault. -/
def NeverFaults {α : Type} (act : Action α) : Prop :=
  ∀ m f, (act m).1 ≠ .error (.fault f)

theorem neverFaults_note (t : Tracing) (note : Note) : NeverFaults (Action.note t note) := by
  unfold Action.note
  split
  · split <;> exact fun m f h => by cases h
  · exact fun m f h => by cases h

theorem neverFaults_noteDefined (t : Tracing) (name : Json) (params : List Json) :
    NeverFaults (noteDefined t name params) := by
  unfold noteDefined
  split
  · split
    · exact neverFaults_note t _
    · exact fun m f h => by cases h
  · exact fun m f h => by cases h

theorem failsClean_update {α : Type} (g : Store → Except Stop Store) {next : Unit → Action α}
    (hn : NeverFaults (next ())) : FailsClean (update g >>= next) := by
  intro m f h
  rcases hg : g m.store with e | store
  · have hupdate : update g m = (.error e, m) := by simp only [update, hg]
    rw [bind_error hupdate]
    exact ⟨rfl, rfl⟩
  · have hupdate : update g m = (.ok (), { m with store }) := by simp only [update, hg]
    rw [bind_ok hupdate] at h
    exact absurd h (hn _ f)

theorem failsClean_looks {α β : Type} {look : Action α} {next : α → Action β} (hl : Looks look)
    (hn : ∀ a, FailsClean (next a)) : FailsClean (look >>= next) := by
  intro m f h
  have hm := agrees_of_looks hl m
  rcases hr : look m with ⟨e | a, m₁⟩
  · rw [hr] at hm
    rw [bind_error hr]
    exact hm
  · rw [hr] at hm
    rw [bind_ok hr] at h ⊢
    exact (hn a m₁ f h).trans hm

/-- The value comes first, then the store is changed or not, and the note that comes last has no
fault. -/
theorem failsClean_simple (s : Settings) (hn : n.IsSimple) : FailsClean (execute s n) := by
  cases n with
  | variableDeclaration name expr =>
    rw [execute]
    exact failsClean_looks (looks_evaluate _ _) fun value =>
      failsClean_update _ (neverFaults_note _ _)
  | functionDeclaration name params body =>
    rw [execute]
    exact failsClean_update _ (neverFaults_noteDefined _ _ _)
  | assignment name expr =>
    rw [execute]
    exact failsClean_looks (looks_evaluate _ _) fun value =>
      failsClean_update _ (neverFaults_note _ _)
  | printStatement expr =>
    rw [execute]
    exact failsClean_looks (looks_evaluate _ _) fun value _ _ h => by cases h
  | _ => exact hn.elim

theorem failsInPlace_of_failsClean {act : Action Unit} (hact : FailsClean act)
    (h : (act m).1 = .error (.fault f)) : FailsInPlace act m f := by
  have hm := hact m f h
  exact ⟨h, by rw [hm.store], by rw [hm.store], hm.printed⟩

theorem failsInPlace_simple (hn : n.IsSimple) (h : (execute s n m).1 = .error (.fault f)) :
    FailsInPlace (firstStep s n) m f := by
  rw [firstStep_simple hn]
  exact failsInPlace_of_failsClean (failsClean_simple s hn) h

theorem failsInPlace_while {test : Node} (body : Node)
    (h : (loopTest s test m).1 = .error (.fault f)) :
    FailsInPlace (firstStep s (.whileStatement test body)) m f := by
  apply failsInPlace_of_failsClean fun m _ _ =>
    agrees_of_looks (looks_firstStep_while s test body) m
  rcases hr : loopTest s test m with ⟨e | a, m₁⟩
  · rw [hr] at h
    cases h
    rw [firstStep, bind_error hr]
  · rw [hr] at h
    cases h

/-! ### Frames between statements -/

/-- The action leaves the frames that there were. -/
def KeepsFrames {α : Type} (act : Action α) : Prop :=
  ∀ m, (act m).2.store.frames = m.store.frames

theorem keepsFrames_looks {α : Type} {act : Action α} (h : Looks act) : KeepsFrames act := by
  intro m
  rw [h.store_eq]

theorem keepsFrames_bind {α β : Type} {x : Action α} {next : α → Action β} (hx : KeepsFrames x)
    (hn : ∀ a, KeepsFrames (next a)) : KeepsFrames (x >>= next) := by
  intro m
  have hfirst := hx m
  rcases hr : x m with ⟨e | a, m₁⟩
  · rw [hr] at hfirst
    rw [bind_error hr, hfirst]
  · rw [hr] at hfirst
    rw [bind_ok hr, hn a m₁, hfirst]

theorem keepsFrames_update {g : Store → Except Stop Store}
    (hg : ∀ store store', g store = .ok store' → store'.frames = store.frames) :
    KeepsFrames (update g) := by
  intro m
  unfold update
  rcases h : g m.store with e | store
  · rfl
  · exact hg m.store store h

theorem keepsFrames_simple (s : Settings) (hn : n.IsSimple) : KeepsFrames (execute s n) := by
  cases n with
  | variableDeclaration name expr =>
    rw [execute]
    apply keepsFrames_bind (keepsFrames_looks (looks_evaluate _ _))
    intro value
    apply keepsFrames_bind (keepsFrames_update frames_declareVariable)
    exact fun _ => keepsFrames_looks (looks_note _ _)
  | functionDeclaration name params body =>
    rw [execute]
    apply keepsFrames_bind (keepsFrames_update frames_declareFunction)
    exact fun _ => keepsFrames_looks (looks_noteDefined _ _ _)
  | assignment name expr =>
    rw [execute]
    apply keepsFrames_bind (keepsFrames_looks (looks_evaluate _ _))
    intro value
    apply keepsFrames_bind (keepsFrames_update frames_assign)
    exact fun _ => keepsFrames_looks (looks_note _ _)
  | printStatement expr =>
    rw [execute]
    exact keepsFrames_bind (keepsFrames_looks (looks_evaluate _ _)) fun value m => rfl
  | _ => exact hn.elim

end simple

/-! ## Unrolling -/

/-- From a state, a part of what there is to do is done: the simple statements on the path, one
after the other. A loop whose test holds is its body and then the loop again. The last state and
the last list are where that stops and what there is still to do. -/
inductive Unrolls (s : Settings) : Machine → List Node → List Node → Machine → List Node → Prop
  | stop {m : Machine} {todo : List Node} : Unrolls s m todo [] m todo
  | simple {m m₁ m' : Machine} {n : Node} {todo path rest : List Node} (hn : n.IsSimple)
      (hdone : execute s n m = (.ok (), m₁)) (h : Unrolls s m₁ todo path m' rest) :
      Unrolls s m (n :: todo) (n :: path) m' rest
  | again {m m' : Machine} {test : Node} {body todo path rest : List Node}
      (htest : (loopTest s test m).1 = .ok true)
      (h : Unrolls s m (body ++ .whileStatement test (.block body) :: todo) path m' rest) :
      Unrolls s m (.whileStatement test (.block body) :: todo) path m' rest
  | leave {m m' : Machine} {test body : Node} {todo path rest : List Node}
      (htest : (loopTest s test m).1 = .ok false) (h : Unrolls s m todo path m' rest) :
      Unrolls s m (.whileStatement test body :: todo) path m' rest

section unrolls

variable {s : Settings} {m m₁ m₂ : Machine} {todo mid rest path path' : List Node}

theorem Unrolls.append (h : Unrolls s m todo path m₁ rest) (more : List Node) :
    Unrolls s m (todo ++ more) path m₁ (rest ++ more) := by
  induction h with
  | stop => exact .stop
  | simple hn hdone _ ih => exact .simple hn hdone ih
  | again htest _ ih =>
    rw [List.append_assoc] at ih
    exact .again htest ih
  | leave htest _ ih => exact .leave htest ih

theorem Unrolls.trans (h : Unrolls s m todo path m₁ mid) (h' : Unrolls s m₁ mid path' m₂ rest) :
    Unrolls s m todo (path ++ path') m₂ rest := by
  induction h with
  | stop => exact h'
  | simple hn hdone _ ih => exact .simple hn hdone (ih h')
  | again htest _ ih => exact .again htest (ih h')
  | leave htest _ ih => exact .leave htest (ih h')

/-- The path alone, from a state that agrees with the first one, comes to a state that agrees with
the last one. -/
theorem Unrolls.executeAll_path (h : Unrolls s m todo path m₁ rest) {m' : Machine}
    (hm : m.Agrees m') : ∃ m₁', executeAll s path m' = (.ok (), m₁') ∧ m₁.Agrees m₁' := by
  induction h generalizing m' with
  | stop => exact ⟨m', rfl, hm⟩
  | @simple m m₂ _ n _ path _ hn hdone _ ih =>
    obtain ⟨hfst, hsnd⟩ := blind_simple s hn m m' hm
    rw [hdone] at hfst hsnd
    obtain ⟨m₁', hpath, hm₁⟩ := ih hsnd
    have hdone' : execute s n m' = (.ok (), (execute s n m').2) := Prod.ext hfst.symm rfl
    exact ⟨m₁', by rw [executeAll, bind_ok hdone', hpath], hm₁⟩
  | again _ _ ih => exact ih hm
  | leave _ _ ih => exact ih hm

theorem Unrolls.frames_eq (h : Unrolls s m todo path m₁ rest) :
    m₁.store.frames = m.store.frames := by
  induction h with
  | stop => rfl
  | @simple m _ _ _ _ _ _ hn hdone _ ih =>
    have hframes := keepsFrames_simple s hn m
    rw [hdone] at hframes
    rw [ih, hframes]
  | again _ _ ih => exact ih
  | leave _ _ ih => exact ih

/-- With this left to do the run ends so: nothing is left, or what comes next fails. -/
def Halts (s : Settings) (m : Machine) (rest : List Node) : Except Fault Unit → Prop
  | .ok _ => rest = []
  | .error f => ∃ next todo, rest = next :: todo ∧ FailsInPlace (firstStep s next) m f

theorem Halts.of_agrees {r : Except Fault Unit} (h : Halts s m rest r) (hm : m.Agrees m₁) :
    Halts s m₁ rest r := by
  rcases r with f | u
  · obtain ⟨next, todo, hrest, hnext⟩ := h
    exact ⟨next, todo, hrest, hnext.of_agrees (blind_firstStep s next) hm⟩
  · exact h

/-- Wherever the action ends well or by a fault, it does what unrolling the statements does. -/
def Unfolds (s : Settings) (statements : List Node) (act : Action Unit) : Prop :=
  ∀ m m₀ (r : Except Fault Unit), m.Agrees m₀ → (act m).1 = r.mapError .fault →
    ∃ path m₁ rest, Unrolls s m₀ statements path m₁ rest ∧ (act m).2.Agrees m₁ ∧ Halts s m₁ rest r

/-- An end that is no fault is none that unrolling has to explain. -/
theorem unfolds_stop {statements : List Node} {e : Stop} (he : ∀ f, e ≠ .fault f) :
    Unfolds s statements (stop e) := by
  intro m m₀ r _ hr
  rcases r with f | u
  · cases hr
    exact absurd rfl (he f)
  · cases hr

theorem unfolds_append {first second : List Node} {a b : Action Unit} (ha : Unfolds s first a)
    (hb : Unfolds s second b) : Unfolds s (first ++ second) (a >>= fun _ => b) := by
  intro m m₀ r hm hr
  rcases hx : a m with ⟨e | u, m'⟩
  · rw [bind_error hx] at hr ⊢
    -- The first part fails, so it ends as the whole does.
    have hfirst : (a m).1 = r.mapError .fault := by rw [hx, hr]
    obtain ⟨path, m₁, rest, hpath, hm₁, hhalts⟩ := ha m m₀ r hm hfirst
    rw [hx] at hm₁
    refine ⟨path, m₁, rest ++ second, hpath.append second, hm₁, ?_⟩
    rcases r with f | u
    · obtain ⟨next, todo, rfl, hnext⟩ := hhalts
      exact ⟨next, todo ++ second, rfl, hnext⟩
    · cases hr
  · rw [bind_ok hx] at hr ⊢
    obtain ⟨path, m₁, rest, hpath, hm₁, hrest⟩ := ha m m₀ (.ok ()) hm (by rw [hx]; rfl)
    rw [hx] at hm₁
    obtain ⟨path', m₂, rest', hpath', hm₂, hhalts⟩ := hb m' m₁ r hm₁ hr
    have hwhole := hpath.append second
    rw [show rest = [] from hrest] at hwhole
    exact ⟨path ++ path', m₂, rest', hwhole.trans hpath', hm₂, hhalts⟩

theorem unfolds_simple {n : Node} (hn : n.IsSimple) : Unfolds s [n] (execute s n) := by
  intro m m₀ r hm hr
  obtain ⟨hfst, hsnd⟩ := blind_simple s hn m m₀ hm
  rw [hr] at hfst
  rcases r with f | u
  · have hfails := failsInPlace_simple hn hfst.symm
    have hclean := failsClean_simple s hn m f hr
    exact ⟨[], m₀, [n], .stop, hclean.trans hm, n, [], rfl, hfails⟩
  · have hdone : execute s n m₀ = (.ok (), (execute s n m₀).2) := Prod.ext hfst.symm rfl
    exact ⟨[n], _, [], .simple hn hdone .stop, hsnd, rfl⟩

/-- Each round of a loop tests anew, so the rounds are by induction on how many there may be. -/
theorem unfolds_repeatWhile {test body : Node}
    (hbody : ∀ statements, body = .block statements →
      Unfolds s statements (executeAll s statements)) (rounds : Nat) :
    Unfolds s [.whileStatement test body]
      (repeatWhile rounds (loopTest s test) (executeBlock s body)) := by
  induction rounds with
  | zero => exact unfolds_stop (by simp)
  | succ rounds ih =>
    intro m m₀ r hm hr
    rw [repeatWhile] at hr ⊢
    have hl := looks_loopTest s test
    obtain ⟨hfst, _⟩ := blind_of_looks hl m m₀ hm
    have hm₁ := (agrees_of_looks hl m).trans hm
    rcases hx : loopTest s test m with ⟨e | holds, m₁⟩
    · rw [bind_error hx] at hr ⊢
      rw [hx] at hfst hm₁
      rcases r with f | u
      · have hfails : (loopTest s test m₀).1 = .error (.fault f) := by
          cases hr
          exact hfst.symm
        exact ⟨[], m₀, _, .stop, hm₁, _, [], rfl, failsInPlace_while body hfails⟩
      · cases hr
    · rw [bind_ok hx] at hr ⊢
      rw [hx] at hfst hm₁
      cases holds with
      | false =>
        rcases r with f | u
        · cases hr
        · exact ⟨[], m₀, [], .leave hfst.symm .stop, hm₁, rfl⟩
      | true =>
        rw [if_pos rfl] at hr ⊢
        -- A body that is no block is a defect, and the run does not end so.
        cases body with
        | block statements =>
          rw [executeBlock] at hr ih ⊢
          have hround := unfolds_append (hbody statements rfl) ih
          obtain ⟨path, m₂, rest, hpath, hm₂, hhalts⟩ := hround m₁ m₀ r hm₁ hr
          exact ⟨path, m₂, rest, .again hfst.symm hpath, hm₂, hhalts⟩
        | _ => rcases r with f | u <;> cases hr

theorem unfolds_executeAll {statements : List Node}
    (h : ∀ n ∈ statements, Unfolds s [n] (execute s n)) :
    Unfolds s statements (executeAll s statements) := by
  induction statements with
  | nil =>
    intro m m₀ r hm hr
    rcases r with f | u
    · cases hr
    · exact ⟨[], m₀, [], .stop, hm, rfl⟩
  | cons n statements ih =>
    rw [executeAll]
    exact unfolds_append (h n (by simp)) (ih fun n hn => h n (by simp [hn]))

/-- The body of a loop is a node of its own, so blocks are part of the induction. -/
theorem unfolds_execute (n : Node) :
    Unfolds s [n] (execute s n) ∧
      ∀ statements, n = .block statements → Unfolds s statements (executeAll s statements) := by
  induction n with
  | variableDeclaration => exact ⟨unfolds_simple trivial, by simp⟩
  | functionDeclaration => exact ⟨unfolds_simple trivial, by simp⟩
  | assignment => exact ⟨unfolds_simple trivial, by simp⟩
  | printStatement => exact ⟨unfolds_simple trivial, by simp⟩
  | whileStatement test body _ ih =>
    refine ⟨?_, by simp⟩
    rw [execute]
    exact unfolds_repeatWhile ih.2 s.rounds
  | block statements ih =>
    simp only [execute]
    refine ⟨unfolds_stop (by simp), ?_⟩
    rintro _ ⟨⟩
    exact unfolds_executeAll fun n hn => (ih n hn).1
  | _ =>
    simp only [execute]
    exact ⟨unfolds_stop (by simp), by simp⟩

end unrolls

/-! ## Runs -/

section runs

variable {s : Settings} {program : Node} {r : Except Fault Unit}

/-- What a run does lies between two notes, which are no part of what is bound or printed. -/
theorem run_of_executeAll (s : Settings) (statements : List Node) :
    ∃ m, m.Agrees .start ∧
      (run s (.program (.block statements))).1 = (executeAll s statements m).1 ∧
      (run s (.program (.block statements))).2.Agrees (executeAll s statements m).2 := by
  obtain ⟨m, hnote, _⟩ := note_start s.toTracing
  have hm := agrees_of_looks (looks_note s.toTracing .runStart) .start
  rw [hnote] at hm
  refine ⟨m, hm, ?_⟩
  rw [run_eq hnote]
  rcases hx : executeAll s statements m with ⟨e | u, m'⟩
  · rw [bind_error hx]
    exact ⟨rfl, rfl, rfl⟩
  · rw [bind_ok hx]
    have hlast := looks_note s.toTracing .runFinished
    refine ⟨?_, agrees_of_looks hlast m'⟩
    rw [hlast.fst_eq, answer_note_runFinished]

/-- Only a block of statements is run at all. -/
theorem program_of_ends (h : (run s program).1 = r.mapError .fault) :
    ∃ statements, program = .program (.block statements) := by
  have hdefect : ∀ d, (stop (.defect d) : Action Unit) = executeProgram s program → False := by
    intro d hd
    obtain ⟨m, hnote, _⟩ := note_start s.toTracing
    rw [run, runProgram, bind_ok hnote, ← hd] at h
    rcases r with f | u <;> cases h
  cases program with
  | program block =>
    cases block with
    | block statements => exact ⟨statements, rfl⟩
    | _ => exact (hdefect _ rfl).elim
  | _ => exact (hdefect _ rfl).elim

end runs

/-- A run that ends, well or by a fault, has done a row of simple statements, those of the program
in the order in which loops unroll. The row alone, run from the start, ends well and leaves the
same bindings and the same printed lines, with no frame left; and if the run ends by a fault, it
is the one that the next simple statement or the next test of a loop has there, which changes no
binding, leaves no frame and prints nothing. -/
theorem a_run_is_a_row_of_statements (s : Settings) (program : Node) (r : Except Fault Unit)
    (hends : (run s program).1 = r.mapError .fault) :
    ∃ statements path m rest, program = .program (.block statements) ∧
      Unrolls s .start statements path m rest ∧
      Alike (run s (.program (.block path))) (.ok (), (run s program).2) ∧
      (run s program).2.store.frames = [] ∧
      Halts s (run s (.program (.block path))).2 rest r := by
  obtain ⟨statements, rfl⟩ := program_of_ends hends
  obtain ⟨m, hm, hresult, hrun⟩ := run_of_executeAll s statements
  have hunfolds := unfolds_executeAll (s := s) fun n (_ : n ∈ statements) => (unfolds_execute n).1
  obtain ⟨path, m₁, rest, hpath, hm₁, hhalts⟩ :=
    hunfolds m .start r hm (hresult.symm.trans hends)
  -- The row alone is run between its own notes, so from a state that agrees with the first one.
  obtain ⟨m', hm', hpathResult, hpathRun⟩ := run_of_executeAll s path
  obtain ⟨m₁', hdone, hm₁'⟩ := hpath.executeAll_path hm'.symm
  rw [hdone] at hpathResult hpathRun
  have hsame : m₁.Agrees (run s (.program (.block path))).2 := hm₁'.trans hpathRun.symm
  have hwhole : (run s (.program (.block statements))).2.Agrees m₁ := hrun.trans hm₁
  have hleft := hwhole.trans hsame
  refine ⟨statements, path, m₁, rest, rfl, hpath, ?_, ?_, hhalts.of_agrees hsame⟩
  · exact ⟨hpathResult, by rw [hleft.store], by rw [hleft.store], hleft.printed.symm⟩
  · rw [hwhole.store, hpath.frames_eq]
    rfl

/-- A loop that prints twice and fails in its second round: what it has printed and bound by then
is what some statements in a row print and bind, and the next one fails where they end. -/
theorem a_run_is_a_row_of_statements_of_a_loop :
    let text : Text := "let x = 0 while true { print x x = x < 1 }"
    let s : Settings := ⟨{}, 1, 9⟩
    let fault : Fault := .notNumber (.str "<") "Boolean"
    ∃ program, Source.parse text = .ok program ∧
      (run s program).1 = .error (.fault fault) ∧
      (run s program).2.printed = ["0", "true"].map Text.ofString ∧
      ∃ statements path m rest, program = .program (.block statements) ∧
        Unrolls s .start statements path m rest ∧
        Alike (run s (.program (.block path))) (.ok (), (run s program).2) ∧
        (run s program).2.store.frames = [] ∧
        Halts s (run s (.program (.block path))).2 rest (.error fault) := by
  intro text s fault
  have hparse : Source.parse text = .ok (.program (.block
      [.variableDeclaration (.str "x") (.numeral 0.0),
       .whileStatement (.booleanLiteral true) (.block
         [.printStatement (.identifier (.str "x")),
          .assignment (.str "x")
            (.binary (.str "<") (.identifier (.str "x")) (.numeral 1.0))])])) := by
    with_unfolding_all rfl
  refine ⟨_, hparse, ?_, by decide +kernel, ?_⟩
  · with_unfolding_all rfl
  · apply a_run_is_a_row_of_statements
    with_unfolding_all rfl

end BellaLang
