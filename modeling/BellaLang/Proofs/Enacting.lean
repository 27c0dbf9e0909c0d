-- A run is a sequence of operations on its namespace. Expressions look names up and
-- make calls, statements declare and assign, and nothing else changes a store; so what
-- holds of every sequence of operations holds along every run.
import BellaLang.Proofs.Namespace
import BellaLang.Proofs.Walk

namespace BellaLang

/-! ## Ways -/

/-- The stores on a way are those between some operations, in their order; some may be passed
over, and some seen more than once. -/
inductive Along : Store → List Operation → List Store → Prop
  | done {s : Store} : Along s [] []
  | seen {s : Store} {ops : List Operation} {way : List Store} (h : Along s ops way) :
      Along s ops (s :: way)
  | performed {s : Store} {op : Operation} {ops : List Operation} {way : List Store}
      (h : Along (s.after op) ops way) : Along s (op :: ops) way

section along

variable {s : Store} {ops ops' : List Operation} {way way' : List Store}

theorem Along.append (h : Along s ops way) (h' : Along (s.afterAll ops) ops' way') :
    Along s (ops ++ ops') (way ++ way') := by
  induction h with
  | done => exact h'
  | seen _ ih => exact .seen (ih h')
  | performed _ ih => exact .performed (ih h')

theorem Along.grows (h : Along s ops way) (hops : ∀ op ∈ ops, op.CarriesData) :
    ∀ s' ∈ way, s.Grows s' := by
  induction h with
  | done => simp
  | @seen s _ _ _ ih =>
    intro s' hs'
    rcases List.mem_cons.1 hs' with rfl | hs'
    · exact .refl _
    · exact ih hops s' hs'
  | @performed s op _ _ _ ih =>
    intro s' hs'
    have hrest := ih (fun o ho => hops o (by simp [ho])) s' hs'
    exact (grows_after (hops op (by simp)) s).trans hrest

/-- Of two stores on the way the later one has grown from the earlier one. -/
theorem Along.pairwise (h : Along s ops way) (hops : ∀ op ∈ ops, op.CarriesData) :
    way.Pairwise Store.Grows := by
  induction h with
  | done => exact .nil
  | seen hrest ih => exact .cons (hrest.grows hops) (ih hops)
  | performed _ ih => exact ih fun o ho => hops o (by simp [ho])

theorem Along.orderly (h : Along s ops way) (hs : s.Orderly) : ∀ s' ∈ way, s'.Orderly := by
  induction h with
  | done => simp
  | seen _ ih =>
    intro s' hs'
    rcases List.mem_cons.1 hs' with rfl | hs'
    · exact hs
    · exact ih hs s' hs'
  | @performed s op _ _ _ ih => exact ih (orderly_after hs op)

end along

/-! ## Walks as operations -/

namespace Walk

section enacts

variable {α β : Type} {I : Store → Prop} {Q : α → Prop} {w : Walk α}

/-- From a store with the given property the walk performs some operations and nothing else: its
calls begin and end in turn, its variables get data, and its way is along these operations. -/
def Enacts (I : Store → Prop) (w : Walk α) : Prop :=
  ∀ m, I m.store → ∃ ops, Matched ops ∧ (∀ op ∈ ops, op.CarriesData) ∧
    Along m.store ops (w m).2 ∧ (w m).1.2.store = m.store.afterAll ops

/-- A walk that performs operations from any store. -/
abbrev Performs (w : Walk α) : Prop := Enacts (fun _ => True) w

theorem Performs.enacts (h : Performs w) : Enacts I w := fun m _ => h m trivial

/-- An action that leaves the store alone. -/
theorem enacts_still {act : Action α} (h : ∀ m, (act m).2.store = m.store) :
    Enacts I (step act) := by
  intro m _
  refine ⟨[], .nil, by simp, ?_, h m⟩
  rw [step, h m]
  exact .seen .done

theorem enacts_looks {act : Action α} (h : Action.Looks act) : Enacts I (step act) :=
  enacts_still h.store_eq

/-- An action with the effect of one operation. -/
theorem enacts_operation {act : Action α} (op : Operation) (hop : op.CarriesData)
    (hpush : ∀ f args, op ≠ .push f args) (hpop : op ≠ .pop)
    (hact : ∀ m, (act m).2.store = m.store.after op) : Enacts I (step act) := by
  intro m _
  refine ⟨[op], .plain hpush hpop .nil, by simpa using hop, ?_, hact m⟩
  rw [step, hact m]
  exact .performed (.seen .done)

theorem enacts_act (op : Operation) (hop : op.CarriesData)
    (hpush : ∀ f args, op ≠ .push f args) (hpop : op ≠ .pop) : Enacts I (step op.act) :=
  enacts_operation op hop hpush hpop (store_of_act op)

theorem enacts_get (name : Json) : Enacts I (step (Action.query (·.get name))) := by
  apply enacts_operation (.get name) trivial (by simp) (by simp)
  exact fun m => (after_of_query rfl (by simp) (by simp) m.store).symm

theorem enacts_getFunction (name : Json) : Enacts I (step (Action.query (·.getFunction name))) := by
  apply enacts_operation (.getFunction name) trivial (by simp) (by simp)
  exact fun m => (after_of_query rfl (by simp) (by simp) m.store).symm

theorem enacts_bind {next : α → Walk β} (hw : Enacts I w)
    (hq : ∀ m, I m.store → I (w m).1.2.store ∧ ∀ a, (w m).1.1 = .ok a → Q a)
    (hn : ∀ a, Q a → Enacts I (next a)) : Enacts I (w >>= next) := by
  intro m hm
  obtain ⟨ops, hmatched, hdata, halong, hstore⟩ := hw m hm
  obtain ⟨hm', ha⟩ := hq m hm
  rcases hr : w m with ⟨⟨e | a, m'⟩, way⟩
  · rw [hr] at halong hstore
    rw [bind_error hr]
    exact ⟨ops, hmatched, hdata, halong, hstore⟩
  · rw [hr] at halong hstore hm' ha
    obtain ⟨ops', hmatched', hdata', halong', hstore'⟩ := hn a (ha a rfl) m' hm'
    rw [bind_ok hr]
    have heq : m'.store = m.store.afterAll ops := hstore
    rw [heq] at halong' hstore'
    refine ⟨ops ++ ops', hmatched.append hmatched', ?_, halong.append halong', ?_⟩
    · intro op hop
      exact (List.mem_append.1 hop).elim (hdata op) (hdata' op)
    · rw [afterAll_append]
      exact hstore'

/-- One walk after the other, both from any store. -/
theorem performs_bind {next : α → Walk β} (hw : Performs w) (hn : ∀ a, Performs (next a)) :
    Performs (w >>= next) :=
  enacts_bind (Q := fun _ => True) hw (fun _ _ => ⟨trivial, fun _ _ => trivial⟩) fun a _ => hn a

/-- A call begins, and ends however the walk inside it ends. -/
theorem performs_inside (f : Function) (args : List Value) (h : Performs w) :
    Performs (inside f args w) := by
  rintro ⟨s, log⟩ _
  rcases hframe : Scope.bindAll [] f.params args with e | frame
  · have he := enter_of_bindAll_error hframe s
    have hpush : s.after (.push f args) = s := after_of_error he
    refine ⟨[.push f args], .refused hframe .nil, by simp [Operation.CarriesData], ?_, ?_⟩
    · simp only [inside, he]
      exact .seen (.performed (hpush.symm ▸ .done))
    · simp only [inside, he]
      exact hpush.symm
  · have he := enter_of_bindAll hframe s
    have hpush : s.after (.push f args) = s.push frame := after_of_ok he
    obtain ⟨ops, hmatched, hdata, halong, hstore⟩ := h ⟨s.push frame, log⟩ trivial
    refine ⟨.push f args :: (ops ++ [.pop]), .call hframe hmatched .nil, ?_, ?_, ?_⟩
    · intro op hop
      simp only [List.mem_cons, List.mem_append, List.not_mem_nil, or_false] at hop
      rcases hop with rfl | hop | rfl
      · trivial
      · exact hdata op hop
      · trivial
    · simp only [inside, he]
      refine .performed (hpush.symm ▸ .seen (halong.append (.performed ?_)))
      rw [hstore]
      exact .seen .done
    · simp only [inside, he]
      rw [hstore, afterAll_cons, afterAll_append, hpush]
      rfl

end enacts

end Walk

open Walk

section expressions

variable {t : Tracing} {walkF : Function → List Value → Walk Value}

theorem performs_followAllWith {nodes : List Node}
    (h : ∀ node ∈ nodes, Performs (followWith t walkF node)) :
    Performs (followAllWith t walkF nodes) := by
  induction nodes with
  | nil => exact enacts_looks (Action.looks_pure _)
  | cons node nodes ih =>
    rw [followAllWith]
    apply performs_bind (h node (by simp))
    intro value
    exact performs_bind (ih fun n hn => h n (by simp [hn])) fun values =>
      enacts_looks (Action.looks_pure _)

/-- An expression looks names up and makes calls, and does nothing else. -/
theorem performs_followWith (hcall : ∀ f args, Performs (walkF f args)) (node : Node) :
    Performs (followWith t walkF node) := by
  induction node with
  | numeral value => exact enacts_looks (Action.looks_pure _)
  | booleanLiteral value => exact enacts_looks (Action.looks_pure _)
  | identifier name => exact enacts_get name
  | unary op operand ih =>
    rw [followWith]
    exact performs_bind ih fun value => enacts_looks (Action.looks_ofExcept _)
  | binary op left right ihl ihr =>
    rw [followWith]
    apply performs_bind ihl
    intro a
    rcases shortCircuit? op with _ | final
    · exact performs_bind ihr fun b => enacts_looks (Action.looks_ofExcept _)
    · apply performs_bind (enacts_looks (Action.looks_ofExcept _))
      intro test
      split
      · exact enacts_looks (Action.looks_pure _)
      · apply performs_bind ihr
        intro b
        exact performs_bind (enacts_looks (Action.looks_ofExcept _)) fun result =>
          enacts_looks (Action.looks_pure _)
  | conditional test consequent alternate iht ihc iha =>
    rw [followWith]
    apply performs_bind iht
    intro value
    apply performs_bind (enacts_looks (Action.looks_ofExcept _))
    intro holds
    apply performs_bind (enacts_looks (Action.looks_note _ _))
    intro _
    split
    · exact ihc
    · exact iha
  | arrayLiteral elements ih =>
    rw [followWith]
    exact performs_bind (performs_followAllWith ih) fun values => enacts_looks (Action.looks_pure _)
  | subscript array index iha ihi =>
    rw [followWith]
    apply performs_bind iha
    intro target
    exact performs_bind ihi fun position => enacts_looks (Action.looks_ofExcept _)
  | call callee args ih =>
    rw [followWith]
    apply performs_bind (enacts_getFunction callee)
    intro f
    exact performs_bind (performs_followAllWith ih) fun values => hcall f values
  | _ => exact enacts_looks (Action.looks_stop _)

theorem performs_followCall (depth : Nat) (f : Function) (args : List Value) :
    Performs (followCall t depth f args) := by
  induction depth generalizing f args with
  | zero => exact enacts_looks (Action.looks_stop _)
  | succ depth ih =>
    rw [followCall]
    apply performs_bind (enacts_looks (Action.looks_ofExcept _))
    intro _
    apply performs_bind (enacts_looks (Action.looks_note _ _))
    intro _
    apply performs_bind (performs_inside f args (performs_followWith ih f.body))
    intro result
    exact performs_bind (enacts_looks (Action.looks_note _ _)) fun _ =>
      enacts_looks (Action.looks_pure _)

end expressions

section statements

variable (s : Settings)

theorem performs_followValue (expr : Node) : Performs (followValue s expr) :=
  performs_followWith (performs_followCall s.depth) expr

theorem performs_followTest (test : Node) : Performs (followTest s test) := by
  rw [followTest]
  apply performs_bind (performs_followValue s test)
  intro value
  apply performs_bind (enacts_looks (Action.looks_ofExcept _))
  intro holds
  exact performs_bind (enacts_looks (Action.looks_note _ _)) fun _ =>
    enacts_looks (Action.looks_pure _)

/-- A part of a run that performs operations and keeps stores sound goes on in sound stores. -/
theorem enacts_sound {α β : Type} {Q : α → Prop} {w : Walk α} {next : α → Walk β}
    (hw : Enacts Store.Sound w) (hp : Preserves Q w)
    (hn : ∀ a, Q a → Enacts Store.Sound (next a)) : Enacts Store.Sound (w >>= next) :=
  enacts_bind hw (fun m hm => (hp m hm).2) hn

theorem enacts_followWhile {test : Walk Bool} {body : Walk Unit}
    (ht : Enacts Store.Sound test) (hpt : Preserves (fun _ => True) test)
    (hb : Enacts Store.Sound body) (hpb : Preserves (fun _ => True) body) (rounds : Nat) :
    Enacts Store.Sound (followWhile rounds test body) := by
  induction rounds with
  | zero => exact enacts_looks (Action.looks_stop _)
  | succ rounds ih =>
    rw [followWhile]
    apply enacts_sound ht hpt
    intro holds _
    split
    · exact enacts_sound hb hpb fun _ _ => ih
    · exact enacts_looks (Action.looks_pure _)

theorem enacts_followStatements {nodes : List Node}
    (h : ∀ node ∈ nodes, Enacts Store.Sound (followStatement s node)) :
    Enacts Store.Sound (followStatements s nodes) := by
  induction nodes with
  | nil =>
    rw [followStatements]
    exact enacts_looks (Action.looks_pure _)
  | cons node nodes ih =>
    rw [followStatements]
    exact enacts_sound (h node (by simp)) (preserves_followStatement s node).1 fun _ _ =>
      ih fun n hn => h n (by simp [hn])

/-- What a statement binds is a value that an expression has, and so no function. -/
theorem enacts_followStatement (node : Node) :
    Enacts Store.Sound (followStatement s node) ∧ Enacts Store.Sound (followBlock s node) := by
  have hstop : ∀ e, Enacts Store.Sound (step (Action.stop e : Action Unit)) :=
    fun e => enacts_looks (Action.looks_stop e)
  induction node with
  | block statements ih =>
    simp only [followStatement, followBlock]
    exact ⟨hstop _, enacts_followStatements s fun n hn => (ih n hn).1⟩
  | variableDeclaration name expr =>
    simp only [followStatement, followBlock]
    refine ⟨?_, hstop _⟩
    apply enacts_sound (performs_followValue s expr).enacts (preserves_followValue s expr)
    intro value hvalue
    refine enacts_sound ?_
      (preserves_update fun _ _ hs h => Store.sound_declareVariable hs hvalue h)
      fun _ _ => enacts_looks (Action.looks_note _ _)
    exact enacts_act (.declareVariable name value) hvalue.isData (by simp) (by simp)
  | functionDeclaration name params body =>
    simp only [followStatement, followBlock]
    refine ⟨?_, hstop _⟩
    refine enacts_sound ?_ (preserves_update ?_) fun _ _ => enacts_looks (looks_noteDefined _ _ _)
    · exact enacts_act (.declareFunction name params body) trivial (by simp) (by simp)
    · intro store store' hs h
      obtain ⟨⟨f, store''⟩, hd, rfl⟩ := map_eq_ok.1 h
      exact Store.sound_declareFunction hs hd
  | assignment name expr =>
    simp only [followStatement, followBlock]
    refine ⟨?_, hstop _⟩
    apply enacts_sound (performs_followValue s expr).enacts (preserves_followValue s expr)
    intro value hvalue
    refine enacts_sound ?_ (preserves_update fun _ _ hs h => Store.sound_assign hs hvalue h)
      fun _ _ => enacts_looks (Action.looks_note _ _)
    exact enacts_act (.assign name value) hvalue.isData (by simp) (by simp)
  | printStatement expr =>
    simp only [followStatement, followBlock]
    refine ⟨?_, hstop _⟩
    apply enacts_sound (performs_followValue s expr).enacts (preserves_followValue s expr)
    intro value _
    exact enacts_still fun _ => rfl
  | whileStatement test body _ ihb =>
    simp only [followStatement, followBlock]
    exact ⟨enacts_followWhile (performs_followTest s test).enacts (preserves_followTest s test)
      ihb.2 (preserves_followStatement s body).2 s.rounds, hstop _⟩
  | _ =>
    simp only [followStatement, followBlock]
    exact ⟨hstop _, hstop _⟩

theorem enacts_walkRun (program : Node) : Enacts Store.Sound (walkRun s program) := by
  have hprogram : Enacts Store.Sound (followProgram s program) ∧
      Preserves (fun _ => True) (followProgram s program) := by
    cases program with
    | program block =>
      exact ⟨(enacts_followStatement s block).2, (preserves_followStatement s block).2⟩
    | _ => exact ⟨enacts_looks (Action.looks_stop _), preserves_looks (Action.looks_stop _)⟩
  rw [walkRun, followRun]
  apply enacts_sound (enacts_looks (Action.looks_note _ _)) (preserves_note s _)
  intro _ _
  exact enacts_sound hprogram.1 hprogram.2 fun _ _ => enacts_looks (Action.looks_note _ _)

end statements

/-! ## Runs -/

/-- A run performs operations on an empty store: calls begin and end in turn, and the stores on its
way and the one it leaves are those between the operations. -/
theorem run_enacts (s : Settings) (program : Node) :
    ∃ ops, Matched ops ∧ (∀ op ∈ ops, op.CarriesData) ∧
      (run s program).2.store = Store.empty.afterAll ops ∧
      Along .empty ops ((walkRun s program .start).2 ++ [(run s program).2.store]) := by
  obtain ⟨ops, hmatched, hdata, halong, hstore⟩ := enacts_walkRun s program .start sound_empty
  rw [tracks_walkRun s program .start] at hstore
  have hrun : (run s program).2.store = Store.empty.afterAll ops := hstore
  refine ⟨ops, hmatched, hdata, hrun, ?_⟩
  -- The store that the run leaves is the last one, after all the operations.
  have hend := halong.append (hrun ▸ .seen .done : Along _ [] [(run s program).2.store])
  rwa [List.append_nil] at hend

/-- An operation that fails changes nothing. Whatever operations are performed, with data for the
variables, no name is declared twice, and later names only come after earlier ones: a function
stays the function it is and a variable stays a variable. An assignment replaces the value of one
variable where it stands. What has been declared or assigned is what its name stands for, up to the
parameters of the innermost call. A function is declared exactly if its name is free and its
parameters are distinct; else the name is refused, or if it is free, the first parameter that
repeats an earlier one. After calls that have ended the store is what the declarations and
assignments alone make of it. A run is such a sequence of operations, whatever its program and
however it ends. -/
theorem names_stay_what_they_are :
    (∀ (op : Operation) m e, (op.act m).1 = .error e → (op.act m).2 = m) ∧
    (∀ ops : List Operation, (∀ op ∈ ops, op.CarriesData) →
      (Store.empty.afterAll ops).Orderly ∧
        ∀ before after, ops = before ++ after →
          (Store.empty.afterAll before).Grows (Store.empty.afterAll ops)) ∧
    (∀ (s s' : Store) name v, s.assign name v = .ok s' →
      ∃ before bound old after, s.globals = before ++ (bound, old) :: after ∧
        bound.key? = name.key? ∧ old.IsData ∧
        s' = { s with globals := before ++ (bound, v) :: after }) ∧
    (∀ (s s' : Store) name v, v.IsData →
      s.declareVariable name v = .ok s' ∨ s.assign name v = .ok s' →
      ∃ key, name.key? = some key ∧ s'.get name = .ok ((s.currentFrame.find? key).getD v) ∧
        s'.getFunction name = .error (.fault (.notFunction name))) ∧
    (∀ (s s' : Store) name params body f, s.declareFunction name params body = .ok (f, s') →
      f = ⟨name, params, body⟩ ∧ ∃ key, name.key? = some key ∧ s'.getFunction name = .ok f ∧
        s'.get name =
          (s.currentFrame.find? key).elim (.error (.fault (.functionAsValue name))) .ok) ∧
    (∀ (s : Store) x (ps : List Text) body,
      ((∃ r, s.declareFunction (.str x) (ps.map .str) body = .ok r) ↔
        s.globals.find? (.text x) = none ∧ ps.Nodup) ∧
      (∀ v, s.globals.find? (.text x) = some v →
        s.declareFunction (.str x) (ps.map .str) body =
          .error (.fault (.alreadyDeclared (.str x)))) ∧
      (s.globals.find? (.text x) = none → ¬ ps.Nodup →
        ∃ p, Rules.Repeats ps p ∧ s.declareFunction (.str x) (ps.map .str) body =
          .error (.fault (.repeatedParameter (.str p) (.str x))))) ∧
    (∀ ops, Matched ops → ∀ s : Store,
      s.afterAll ops = s.afterAll (writesOf ops) ∧ (s.afterAll ops).frames = s.frames ∧
        ∀ name, Untouched name ops →
          (s.afterAll ops).get name = s.get name ∧
            (s.afterAll ops).getFunction name = s.getFunction name) ∧
    ∀ (s : Settings) program, ∃ ops way, Matched ops ∧ (∀ op ∈ ops, op.CarriesData) ∧
      (run s program).2.store = Store.empty.afterAll ops ∧
      way = (walkRun s program .start).2 ++ [(run s program).2.store] ∧
      Along .empty ops way ∧ (Store.empty :: way).Pairwise Store.Grows ∧
      ∀ store ∈ way, store.Orderly := by
  refine ⟨fun _ _ _ h => act_of_error h, ?_, fun _ _ _ _ h => assign_replaces h,
    fun _ _ _ _ => lookups_of_variable, fun _ _ _ _ _ _ => lookups_of_function, ?_, ?_, ?_⟩
  · intro ops hops
    refine ⟨orderly_afterAll orderly_empty ops, ?_⟩
    rintro before after rfl
    rw [afterAll_append]
    exact grows_afterAll (fun op hop => hops op (List.mem_append_right _ hop)) _
  · intro s x ps body
    exact ⟨declareFunction_succeeds_iff s x ps body, fun _ hx => declareFunction_of_bound hx _ body,
      fun hx hp => declareFunction_repeated hx hp body⟩
  · intro ops h s
    exact ⟨h.afterAll_eq s, frames_of_matched h s, fun _ hname => lookups_of_matched h hname s⟩
  · intro s program
    obtain ⟨ops, hmatched, hdata, hrun, halong⟩ := run_enacts s program
    exact ⟨ops, _, hmatched, hdata, hrun, rfl, halong, halong.seen.pairwise hdata,
      halong.orderly orderly_empty⟩

/-- A call in which a variable is assigned, the function cannot be, and the parameter is looked up;
then a declaration that repeats a parameter. -/
theorem names_stay_what_they_are_in_a_call :
    let x : Json := .str "x"
    let f : Function := ⟨.str "f", [.str "n"], .identifier (.str "n")⟩
    let before : List Operation :=
      [.declareVariable x (.number 1.0), .declareFunction f.name f.params f.body]
    let call : List Operation :=
      [.push f [.number 2.0], .assign x (.number 3.0), .assign f.name (.number 4.0),
        .get (.str "n"), .pop, .declareFunction (.str "g") [x, x] f.body]
    let s := Store.empty.afterAll before
    let s' := Store.empty.afterAll (before ++ call)
    s'.globals = [(x, .number 3.0), (f.name, .function f)] ∧ s'.Orderly ∧ s.Grows s' ∧
      s'.frames = [] ∧ s'.get (.str "n") = s.get (.str "n") := by
  intro x f before call s s'
  obtain ⟨_, hgrow, _, _, _, _, hcalls, _⟩ := names_stay_what_they_are
  have hdata : ∀ op ∈ before ++ call, op.CarriesData := by
    simp [before, call, Operation.CarriesData, Value.IsData]
  have hmatched : Matched call :=
    .call rfl (.plain (by simp) (by simp) (.plain (by simp) (by simp)
      (.plain (by simp) (by simp) .nil))) (.plain (by simp) (by simp) .nil)
  obtain ⟨horderly, hlater⟩ := hgrow (before ++ call) hdata
  have huntouched : Untouched (.str "n") call := by
    have hkeys : ∀ target ∈ call.filterMap Operation.target?,
        target.key? ≠ Json.key? (.str "n") := by
      simp only [call, x, f, List.filterMap_cons, List.filterMap_nil, Operation.target?,
        List.forall_mem_cons, Json.key?]
      decide
    exact fun op hop target ht => hkeys target (List.mem_filterMap.2 ⟨op, hop, ht⟩)
  have hend : s' = s.afterAll call := afterAll_append _ before call
  obtain ⟨_, hframes, hlookups⟩ := hcalls call hmatched s
  refine ⟨rfl, horderly, hlater before call rfl, ?_, ?_⟩
  · rw [hend, hframes]
    rfl
  · rw [hend]
    exact (hlookups _ huntouched).1

end BellaLang
