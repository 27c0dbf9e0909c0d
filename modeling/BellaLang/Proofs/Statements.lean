-- What single statements do to the globals and what they print, given what
-- their expressions come to.
import BellaLang.Proofs.Bounds
import BellaLang.Proofs.Expressions

namespace BellaLang

open Rules BellaLang.Action

/-! ## Stores between statements -/

/-- The store that holds some globals while no call is under way. -/
def topStore (g : Globals) : Store := ⟨scopeOf g, []⟩

/-- Globals that a program over a vocabulary may reach. -/
def Ready (v : Vocabulary) (g : Globals) : Prop := Views v (topStore g) g []

section ready

variable {v : Vocabulary} {g : Globals} {x : Text}

/-- A run starts with no globals. -/
theorem ready_nil : Ready v [] :=
  ⟨sound_empty, rfl, rfl, by simp, List.nodup_nil⟩

/-- A new global stands behind the others, as it does in the rules. -/
theorem topStore_append (g : Globals) (x : Text) (b : Binding) :
    { topStore g with globals := (topStore g).globals ++ [(.str x, valueOf x b)] } =
      topStore (g ++ [(x, b)]) := by
  simp [topStore, scopeOf, scopeWith]

theorem Ready.declareVariable (h : Ready v g) (hx : g.lookup x = none) {w : Value}
    (hw : w.Plain) : Ready v (g ++ [(x, .value w)]) := by
  refine Views.append h hx (.value hw) ?_ (topStore_append g x (.value w)).symm
  apply Store.sound_declareVariable h.sound hw
  rw [declareVariable_new h hx, ← topStore_append]
  rfl

theorem Ready.declareFunction (h : Ready v g) (hx : g.lookup x = none) {ps : List Text}
    {body : Node} (hd : v.declared x) (hp : ps.Nodup) (hb : body.IsExpr v) :
    Ready v (g ++ [(x, .function ps body)]) := by
  refine Views.append h hx (.function hd hp hb) ?_ (topStore_append g x _).symm
  apply Store.sound_declareFunction h.sound
  rw [declareFunction_new body h hx hp, topStore_append]

theorem Ready.reassign (h : Ready v g) {old w : Value} (hw : w.Plain)
    (hx : g.lookup x = some (.value old)) : Ready v (reassign g x w) :=
  Views.reassign h hw hx

end ready

/-! ## What actions do between statements -/

/-- From the state the action comes to the result, prints the lines and leaves the globals. -/
def Does (act : Action Unit) (m : Machine) (r : Except Fault Unit) (lines : List Text)
    (g : Globals) : Prop :=
  ∃ m', act m = (r.mapError .fault, m') ∧ m'.store = topStore g ∧
    m'.printed = m.printed ++ lines

section does

variable {α : Type} {act : Action Unit} {m : Machine} {r : Except Fault Unit}
  {lines : List Text} {g g' : Globals}

theorem does_pure (hm : m.store = topStore g) : Does (pure ()) m (.ok ()) [] g :=
  ⟨m, rfl, hm, by simp⟩

/-- What two actions print is put together, and the second one starts where the first one ends. -/
theorem does_bind {next : Unit → Action Unit} {lines' : List Text} (h : Does act m (.ok ()) lines g)
    (hn : ∀ m', m'.store = topStore g → Does (next ()) m' r lines' g') :
    Does (act >>= next) m r (lines ++ lines') g' := by
  obtain ⟨m', ha, hs, hp⟩ := h
  obtain ⟨m'', ha', hs', hp'⟩ := hn m' hs
  refine ⟨m'', (bind_ok ha).trans ha', hs', ?_⟩
  rw [hp', hp, List.append_assoc]

theorem does_bind_error {next : Unit → Action Unit} {f : Fault}
    (h : Does act m (.error f) lines g) : Does (act >>= next) m (.error f) lines g := by
  obtain ⟨m', ha, hs, hp⟩ := h
  exact ⟨m', bind_error ha, hs, hp⟩

/-- An action that only looks answers by the globals, changes none of them and prints nothing. -/
theorem looks_topStore {look : Action α} (hl : Looks look) (hm : m.store = topStore g) :
    ∃ m', look m = (look.answer (topStore g), m') ∧ m'.store = topStore g ∧
      m'.printed = m.printed := by
  obtain ⟨notes, heq⟩ := hl.apply_eq m
  have hprinted := hl.printed_eq m
  rw [hm] at heq
  rw [heq] at hprinted
  exact ⟨_, heq, rfl, hprinted⟩

/-- What is looked up does not count among what an action does. -/
theorem does_looks {look : Action α} {next : α → Action Unit} {a : α} (hl : Looks look)
    (hm : m.store = topStore g) (ha : look.answer (topStore g) = .ok a)
    (hn : ∀ m', m'.store = topStore g → Does (next a) m' r lines g') :
    Does (look >>= next) m r lines g' := by
  obtain ⟨m₁, heq, hs₁, hp₁⟩ := looks_topStore hl hm
  rw [ha] at heq
  obtain ⟨m', hr, hs, hp⟩ := hn m₁ hs₁
  refine ⟨m', (bind_ok heq).trans hr, hs, ?_⟩
  rw [hp, hp₁]

theorem does_looks_error {look : Action α} {next : α → Action Unit} {f : Fault} (hl : Looks look)
    (hm : m.store = topStore g) (ha : look.answer (topStore g) = .error (.fault f)) :
    Does (look >>= next) m (.error f) [] g := by
  obtain ⟨m', heq, hs, hp⟩ := looks_topStore hl hm
  rw [ha] at heq
  exact ⟨m', bind_error heq, hs, by simp [hp]⟩

theorem does_looks_last {look : Action Unit} (hl : Looks look) (hm : m.store = topStore g)
    (ha : look.answer (topStore g) = .ok ()) : Does look m (.ok ()) [] g := by
  obtain ⟨m', heq, hs, hp⟩ := looks_topStore hl hm
  rw [ha] at heq
  exact ⟨m', heq, hs, by simp [hp]⟩

theorem does_update {f : Store → Except Stop Store} (hm : m.store = topStore g)
    (hf : f (topStore g) = .ok (topStore g')) : Does (update f) m (.ok ()) [] g' := by
  refine ⟨{ m with store := topStore g' }, ?_, rfl, by simp [Machine.printed]⟩
  simp only [update, hm, hf]
  rfl

theorem does_update_error {f : Store → Except Stop Store} {fault : Fault}
    (hm : m.store = topStore g) (hf : f (topStore g) = .error (.fault fault)) :
    Does (update f) m (.error fault) [] g := by
  refine ⟨m, ?_, hm, by simp⟩
  simp only [update, hm, hf]
  rfl

theorem does_print (hm : m.store = topStore g) (line : Text) :
    Does (record (.printed line)) m (.ok ()) [line] g := by
  refine ⟨{ m with log := .printed line :: m.log }, rfl, hm, ?_⟩
  simp [Machine.printed, Event.printed?]

/-- What an action does is no matter of a bound, so an action with larger bounds does it too. -/
theorem Does.of_below {act' : Action Unit} (h : Does act m r lines g)
    (hb : Below Stop.IsBound act act') : Does act' m r lines g := by
  obtain ⟨m', ha, hs, hp⟩ := h
  refine ⟨m', ?_, hs, hp⟩
  rw [hb m, ha]
  rw [ha]
  rcases r with f | a <;> exact id

end does

/-! ## Single statements -/

/-- The trace can hold every name that a note shows. -/
structure Vocabulary.Traceable (v : Vocabulary) (t : Tracing) : Prop where
  declared : ∀ x, v.declared x → t.Writes x
  assigned : ∀ x, v.assigned x → t.Writes x

section statements

variable {v : Vocabulary} {s : Settings} {m : Machine} {g : Globals} {x : Text} {e : Node}
  {w : Value}

theorem does_letValue (hv : v.Traceable s.toTracing) (hg : Ready v g) (hm : m.store = topStore g)
    (he : (evaluate s.toTracing s.depth e).answer (topStore g) = .ok w)
    (hx : g.lookup x = none) (hd : v.declared x) :
    Does (execute s (.variableDeclaration (.str x) e)) m (.ok ()) [] (g ++ [(x, .value w)]) := by
  rw [execute]
  apply does_looks (looks_evaluate _ _) hm he
  intro m₁ hm₁
  have hdeclare : Does (update (·.declareVariable (.str x) w)) m₁ (.ok ()) []
      (g ++ [(x, .value w)]) := by
    apply does_update hm₁
    rw [declareVariable_new hg hx, ← topStore_append]
    rfl
  apply does_bind hdeclare
  intro m₂ hm₂
  apply does_looks_last (looks_note _ _) hm₂
  exact answer_note_declared _ (hv.declared x hd) (plain_of_answer hg.sound he)

/-- The value is computed first; then the name is found to be taken. -/
theorem does_letTwice (hg : Ready v g) (hm : m.store = topStore g)
    (he : (evaluate s.toTracing s.depth e).answer (topStore g) = .ok w) {b : Binding}
    (hx : g.lookup x = some b) :
    Does (execute s (.variableDeclaration (.str x) e)) m (.error (.alreadyDeclared (.str x)))
      [] g := by
  rw [execute]
  apply does_looks (looks_evaluate _ _) hm he
  intro m₁ hm₁
  exact does_bind_error (does_update_error hm₁ (declareVariable_bound hg hx w))

/-- The body of a function plays no part when it is declared. -/
theorem does_define (hv : v.Traceable s.toTracing) (hg : Ready v g) (hm : m.store = topStore g)
    {ps : List Text} {body : Node} (hx : g.lookup x = none) (hd : v.declared x)
    (hp : ps.Nodup) (hps : ∀ p ∈ ps, v.declared p) :
    Does (execute s (.functionDeclaration (.str x) (ps.map .str) body)) m (.ok ()) []
      (g ++ [(x, .function ps body)]) := by
  rw [execute]
  have hdeclare : Does (update fun store =>
      (store.declareFunction (.str x) (ps.map .str) body).map (·.2)) m (.ok ()) []
      (g ++ [(x, .function ps body)]) := by
    apply does_update hm
    rw [declareFunction_new body hg hx hp, ← topStore_append]
    rfl
  apply does_bind hdeclare
  intro m₂ hm₂
  apply does_looks_last (looks_noteDefined _ _ _) hm₂
  exact answer_noteDefined _ (hv.declared x hd) fun p hmem => hv.declared p (hps p hmem)

theorem does_define_error (hm : m.store = topStore g) {ps : List Text} {body : Node} {f : Fault}
    (hf : (topStore g).declareFunction (.str x) (ps.map .str) body = .error (.fault f)) :
    Does (execute s (.functionDeclaration (.str x) (ps.map .str) body)) m (.error f) [] g := by
  rw [execute]
  apply does_bind_error
  apply does_update_error hm
  rw [hf]
  rfl

theorem does_assign (hv : v.Traceable s.toTracing) (hg : Ready v g) (hm : m.store = topStore g)
    (he : (evaluate s.toTracing s.depth e).answer (topStore g) = .ok w) {old : Value}
    (hx : g.lookup x = some (.value old)) (ha : v.assigned x) :
    Does (execute s (.assignment (.str x) e)) m (.ok ()) [] (reassign g x w) := by
  rw [execute]
  apply does_looks (looks_evaluate _ _) hm he
  intro m₁ hm₁
  apply does_bind (does_update hm₁ (assign_value hg hx w))
  intro m₂ hm₂
  apply does_looks_last (looks_note _ _) hm₂
  exact answer_note_assigned _ (hv.assigned x ha) (plain_of_answer hg.sound he)

/-- Whatever speaks against the name is found after the value has been computed. -/
theorem does_assign_error (hm : m.store = topStore g)
    (he : (evaluate s.toTracing s.depth e).answer (topStore g) = .ok w) {f : Fault}
    (hf : (topStore g).assign (.str x) w = .error (.fault f)) :
    Does (execute s (.assignment (.str x) e)) m (.error f) [] g := by
  rw [execute]
  apply does_looks (looks_evaluate _ _) hm he
  intro m₁ hm₁
  exact does_bind_error (does_update_error hm₁ hf)

theorem does_printStatement (hm : m.store = topStore g)
    (he : (evaluate s.toTracing s.depth e).answer (topStore g) = .ok w) :
    Does (execute s (.printStatement e)) m (.ok ()) [w.text] g := by
  rw [execute]
  apply does_looks (looks_evaluate _ _) hm he
  intro m₁ hm₁
  exact does_print hm₁ _

end statements

/-! ## Loops -/

section loops

variable {s : Settings} {test : Node}

theorem looks_loopTest (s : Settings) (test : Node) : Looks (loopTest s test) := by
  unfold loopTest
  apply looks_bind (looks_evaluate _ _)
  intro w
  apply looks_bind (looks_ofExcept _)
  intro holds
  exact looks_bind (looks_note _ _) fun _ => looks_pure _

/-- The test of a loop answers what its expression does, if that is a boolean; the note of it does
not matter. -/
theorem answer_loopTest (s : Settings) (test : Node) (store : Store) :
    (loopTest s test).answer store =
      (evaluate s.toTracing s.depth test).answer store >>= fun w =>
        (asLoopTest w).mapError .fault := by
  have hnote : ∀ holds, Looks (note s.toTracing (.loopTest holds) >>= fun _ => pure holds) :=
    fun holds => looks_bind (looks_note _ _) fun _ => looks_pure _
  unfold loopTest
  apply answer_bind_eq store (looks_evaluate _ _)
  · exact fun w => looks_bind (looks_ofExcept _) hnote
  · intro w
    rw [answer_bind_eq store (looks_ofExcept _) hnote fun holds =>
      answer_bind_eq store (looks_note _ _) (fun _ => looks_pure holds) fun _ => rfl,
      answer_ofExcept]
    rcases asLoopTest w with f | holds
    · rfl
    · change ((note s.toTracing (.loopTest holds)).answer store >>= fun _ => .ok holds) = _
      rw [answer_note_loopTest]
      rfl

theorem asLoopTest_of_notBoolean {w : Value} (h : NotBoolean w) :
    asLoopTest w = .error (.loopTest w.kind) := by
  cases w with
  | boolean b => exact absurd rfl (h b)
  | _ => rfl

theorem loopTest_error {store : Store} {e : Stop}
    (h : (evaluate s.toTracing s.depth test).answer store = .error e) :
    (loopTest s test).answer store = .error e := by
  rw [answer_loopTest, h]
  rfl

theorem loopTest_boolean {store : Store} {b : Bool}
    (h : (evaluate s.toTracing s.depth test).answer store = .ok (.boolean b)) :
    (loopTest s test).answer store = .ok b := by
  rw [answer_loopTest, h]
  rfl

theorem loopTest_notBoolean {store : Store} {w : Value}
    (h : (evaluate s.toTracing s.depth test).answer store = .ok w) (hw : NotBoolean w) :
    (loopTest s test).answer store = .error (.fault (.loopTest w.kind)) := by
  rw [answer_loopTest, h]
  change (asLoopTest w).mapError Stop.fault = _
  rw [asLoopTest_of_notBoolean hw]
  rfl

end loops

end BellaLang
