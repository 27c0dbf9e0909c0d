-- Evaluation only looks. An expression leaves the globals and the frames as
-- they were and prints nothing, however it ends, so what it comes to is a
-- function of the store alone.
import BellaLang.Evaluate
import BellaLang.Proofs.Trees

namespace BellaLang

namespace Action

/-! ## Sequences of actions -/

/-- The second action starts in the state that the first one leaves, unless that one stops. -/
theorem bind_apply {α β : Type} (x : Action α) (f : α → Action β) (m : Machine) :
    (x >>= f) m = match x m with
      | (.ok a, m') => f a m'
      | (.error e, m') => (.error e, m') := by
  change (ExceptT.bind x f) m = _
  simp only [ExceptT.bind, ExceptT.mk, bind, StateT.bind]
  rcases x m with ⟨_ | a, m'⟩ <;> rfl

theorem bind_ok {α β : Type} {x : Action α} {f : α → Action β} {m m' : Machine} {a : α}
    (h : x m = (.ok a, m')) : (x >>= f) m = f a m' := by
  rw [bind_apply, h]

theorem bind_error {α β : Type} {x : Action α} {f : α → Action β} {m m' : Machine} {e : Stop}
    (h : x m = (.error e, m')) : (x >>= f) m = (.error e, m') := by
  rw [bind_apply, h]

/-! ## Actions that only look -/

/-- What an action answers in a store, whatever was shown before. -/
def answer {α : Type} (act : Action α) (s : Store) : Except Stop α := (act ⟨s, []⟩).1

/-- An action that only looks at the store: it leaves it as it is, adds nothing to the log but
notes, and neither its answer nor its notes depend on the log. -/
def Looks {α : Type} (act : Action α) : Prop :=
  ∀ s : Store, ∃ notes : List Note, ∀ log : List Event,
    act ⟨s, log⟩ = (act.answer s, ⟨s, notes.map .noted ++ log⟩)

theorem looks_pure {α : Type} (a : α) : Looks (pure a : Action α) :=
  fun _ => ⟨[], fun _ => rfl⟩

theorem looks_stop {α : Type} (e : Stop) : Looks (stop e : Action α) :=
  fun _ => ⟨[], fun _ => rfl⟩

theorem looks_query {α : Type} (f : Store → Except Stop α) : Looks (query f) :=
  fun _ => ⟨[], fun _ => rfl⟩

theorem looks_ofExcept {α : Type} (result : Except Fault α) : Looks (ofExcept result) := by
  rcases result with f | a
  · exact fun _ => ⟨[], fun _ => rfl⟩
  · exact fun _ => ⟨[], fun _ => rfl⟩

theorem looks_record_noted (n : Note) : Looks (record (.noted n)) :=
  fun _ => ⟨[n], fun _ => rfl⟩

theorem looks_note (t : Tracing) (n : Note) : Looks (note t n) := by
  unfold note
  split
  · split
    · exact looks_stop _
    · exact looks_record_noted n
  · exact looks_pure ()

/-- Two actions that only look, one after the other, only look. The answer of the first is
passed on in the same store. -/
theorem looks_and_answer_bind {α β : Type} {x : Action α} {f : α → Action β} (hx : Looks x)
    (hf : ∀ a, Looks (f a)) :
    Looks (x >>= f) ∧
      ∀ s, (x >>= f).answer s = x.answer s >>= fun a => (f a).answer s := by
  have key : ∀ s : Store, ∃ notes : List Note, ∀ log : List Event,
      (x >>= f) ⟨s, log⟩ =
        (x.answer s >>= fun a => (f a).answer s, ⟨s, notes.map .noted ++ log⟩) := by
    intro s
    obtain ⟨n₁, h₁⟩ := hx s
    rcases ha : x.answer s with e | a
    · refine ⟨n₁, fun log => ?_⟩
      rw [bind_error ((h₁ log).trans (by rw [ha]))]
      rfl
    · obtain ⟨n₂, h₂⟩ := hf a s
      refine ⟨n₂ ++ n₁, fun log => ?_⟩
      rw [bind_ok ((h₁ log).trans (by rw [ha])), h₂, List.map_append, List.append_assoc]
      rfl
  have hans : ∀ s, (x >>= f).answer s = x.answer s >>= fun a => (f a).answer s := by
    intro s
    obtain ⟨notes, h⟩ := key s
    rw [answer, h []]
  refine ⟨fun s => ?_, hans⟩
  obtain ⟨notes, h⟩ := key s
  exact ⟨notes, fun log => by rw [h log, hans]⟩

theorem looks_bind {α β : Type} {x : Action α} {f : α → Action β} (hx : Looks x)
    (hf : ∀ a, Looks (f a)) : Looks (x >>= f) := (looks_and_answer_bind hx hf).1

theorem inside_error {α : Type} {s : Store} {f : Function} {args : List Value} {e : Stop}
    (h : s.enter f args = .error e) (act : Action α) (log : List Event) :
    inside f args act ⟨s, log⟩ = (.error e, ⟨s, log⟩) := by
  simp only [inside, h]

/-- Whatever the action inside a call does to the frames, the frame of the call is taken off again.
-/
theorem inside_ok {α : Type} {s inner : Store} {f : Function} {args : List Value}
    (h : s.enter f args = .ok inner) (act : Action α) (log : List Event) :
    inside f args act ⟨s, log⟩ =
      ((act ⟨inner, log⟩).1,
        ⟨(act ⟨inner, log⟩).2.store.leave, (act ⟨inner, log⟩).2.log⟩) := by
  simp only [inside, h]
  rfl

/-- The frame of a call goes when the call ends, so a call of what only looks only looks. -/
theorem looks_inside {α : Type} {f : Function} {args : List Value} {act : Action α}
    (h : Looks act) : Looks (inside f args act) := by
  intro s
  rcases he : s.enter f args with e | inner
  · refine ⟨[], fun log => ?_⟩
    rw [answer, inside_error he, inside_error he]
    rfl
  · obtain ⟨notes, hn⟩ := h inner
    refine ⟨notes, fun log => ?_⟩
    rw [answer, inside_ok he, inside_ok he, hn log, hn [], Store.leave_enter he]

/-! ## Answers -/

section answers

variable {α β : Type} (s : Store)

theorem answer_ofExcept (result : Except Fault α) :
    (ofExcept result).answer s = result.mapError .fault := by
  rcases result with f | a <;> rfl

theorem answer_bind {x : Action α} {f : α → Action β} (hx : Looks x) (hf : ∀ a, Looks (f a)) :
    (x >>= f).answer s = x.answer s >>= fun a => (f a).answer s :=
  (looks_and_answer_bind hx hf).2 s

/-- What comes after an action that only looks goes on from its answer. -/
theorem answer_bind_eq {x : Action α} {f : α → Action β} {g : α → Except Stop β} (hx : Looks x)
    (hf : ∀ a, Looks (f a)) (hg : ∀ a, (f a).answer s = g a) :
    (x >>= f).answer s = x.answer s >>= g := by
  rw [answer_bind s hx hf, funext hg]

/-- What an action inside a call answers is what it answers in the store of the call. -/
theorem answer_inside (f : Function) (args : List Value) (act : Action α) :
    (inside f args act).answer s = s.enter f args >>= act.answer := by
  rcases he : s.enter f args with e | inner
  · simp only [inside, answer, he]
    rfl
  · simp only [inside, answer, he]
    rfl

end answers

/-- What only looks does the same in every state with the same store. -/
theorem Looks.apply_eq {α : Type} {act : Action α} (h : Looks act) (m : Machine) :
    ∃ notes : List Note,
      act m = (act.answer m.store, ⟨m.store, notes.map .noted ++ m.log⟩) := by
  obtain ⟨notes, hn⟩ := h m.store
  exact ⟨notes, hn m.log⟩

theorem Looks.fst_eq {α : Type} {act : Action α} (h : Looks act) (m : Machine) :
    (act m).1 = act.answer m.store := by
  obtain ⟨notes, hn⟩ := h.apply_eq m
  rw [hn]

theorem Looks.store_eq {α : Type} {act : Action α} (h : Looks act) (m : Machine) :
    (act m).2.store = m.store := by
  obtain ⟨notes, hn⟩ := h.apply_eq m
  rw [hn]

theorem filterMap_printed?_noted (notes : List Note) :
    (notes.map Event.noted).filterMap Event.printed? = [] := by
  induction notes with
  | nil => rfl
  | cons n notes ih => exact ih

/-- An action that only looks prints nothing. -/
theorem Looks.printed_eq {α : Type} {act : Action α} (h : Looks act) (m : Machine) :
    (act m).2.printed = m.printed := by
  obtain ⟨notes, hn⟩ := h.apply_eq m
  rw [hn, Machine.printed, List.filterMap_append, filterMap_printed?_noted]
  rfl

/-- Nothing tells, after an action that only looks, that it was done; and done once more, it
answers the same. -/
structure LeavesNoMark {α : Type} (act : Action α) (m : Machine) : Prop where
  globals : (act m).2.store.globals = m.store.globals
  frames : (act m).2.store.frames = m.store.frames
  printed : (act m).2.printed = m.printed
  again : (act (act m).2).1 = (act m).1

/-- Looking leaves no mark, however it ends. -/
theorem Looks.leavesNoMark {α : Type} {act : Action α} (h : Looks act) (m : Machine) :
    LeavesNoMark act m := by
  have hs := h.store_eq m
  refine ⟨by rw [hs], by rw [hs], h.printed_eq m, ?_⟩
  rw [h.fst_eq, h.fst_eq, hs]

end Action

/-! ## Expressions only look -/

open BellaLang.Action

section expressions

variable {t : Tracing} {call : Caller}

theorem looks_evaluateAllWith {nodes : List Node}
    (h : ∀ node ∈ nodes, Looks (evaluateWith t call node)) :
    Looks (evaluateAllWith t call nodes) := by
  induction nodes with
  | nil => exact looks_pure []
  | cons node nodes ih =>
    rw [evaluateAllWith]
    apply looks_bind (h node (by simp))
    intro value
    apply looks_bind (ih fun n hn => h n (by simp [hn]))
    intro values
    exact looks_pure _

/-- The value of an expression is found by looking only, if calls are answered so. -/
theorem looks_evaluateWith (hcall : ∀ f args, Looks (call f args)) (node : Node) :
    Looks (evaluateWith t call node) := by
  induction node with
  | numeral value => exact looks_pure _
  | booleanLiteral value => exact looks_pure _
  | identifier name => exact looks_query _
  | unary op operand ih =>
    rw [evaluateWith]
    exact looks_bind ih fun value => looks_ofExcept _
  | binary op left right ihl ihr =>
    rw [evaluateWith]
    apply looks_bind ihl
    intro a
    rcases shortCircuit? op with _ | final
    · exact looks_bind ihr fun b => looks_ofExcept _
    · apply looks_bind (looks_ofExcept _)
      intro test
      split
      · exact looks_pure _
      · apply looks_bind ihr
        intro b
        exact looks_bind (looks_ofExcept _) fun result => looks_pure _
  | conditional test consequent alternate iht ihc iha =>
    rw [evaluateWith]
    apply looks_bind iht
    intro value
    apply looks_bind (looks_ofExcept _)
    intro holds
    apply looks_bind (looks_note _ _)
    intro _
    split
    · exact ihc
    · exact iha
  | arrayLiteral elements ih =>
    rw [evaluateWith]
    exact looks_bind (looks_evaluateAllWith ih) fun values => looks_pure _
  | subscript array index iha ihi =>
    rw [evaluateWith]
    apply looks_bind iha
    intro target
    exact looks_bind ihi fun position => looks_ofExcept _
  | call callee args ih =>
    rw [evaluateWith]
    apply looks_bind (looks_query _)
    intro f
    exact looks_bind (looks_evaluateAllWith ih) fun values => hcall f values
  | _ => exact looks_stop _

/-- A call is answered by looking only, however deeply calls may nest. -/
theorem looks_invoke (depth : Nat) (f : Function) (args : List Value) :
    Looks (invoke t depth f args) := by
  induction depth generalizing f args with
  | zero => exact looks_stop _
  | succ depth ih =>
    rw [invoke]
    apply looks_bind (looks_ofExcept _)
    intro _
    apply looks_bind (looks_note _ _)
    intro _
    apply looks_bind (looks_inside (looks_evaluateWith ih f.body))
    intro result
    exact looks_bind (looks_note _ _) fun _ => looks_pure _

theorem looks_evaluate (depth : Nat) (node : Node) : Looks (evaluate t depth node) :=
  looks_evaluateWith (looks_invoke depth) node

end expressions

/-! ## What expressions answer

The answer of an expression from the answers of its parts, in the same store. -/

section answers

variable {t : Tracing} {depth : Nat} (s : Store)

theorem answer_identifier (name : Json) :
    (evaluate t depth (.identifier name)).answer s = s.get name := rfl

/-- The operand comes first, then the operator. -/
theorem answer_unary (op : Json) (operand : Node) :
    (evaluate t depth (.unary op operand)).answer s =
      (evaluate t depth operand).answer s >>= fun v => (applyUnary op v).mapError .fault := by
  change (evaluate t depth operand >>= fun v => ofExcept (applyUnary op v)).answer s = _
  exact answer_bind_eq s (looks_evaluate depth operand) (fun _ => looks_ofExcept _)
    fun _ => answer_ofExcept s _

/-- Both operands come first, the left one before the right one. -/
theorem answer_binary_plain {op : Json} (h : shortCircuit? op = none) (left right : Node) :
    (evaluate t depth (.binary op left right)).answer s =
      (evaluate t depth left).answer s >>= fun a =>
        (evaluate t depth right).answer s >>= fun b => (applyBinary op a b).mapError .fault := by
  have hop : evaluate t depth (.binary op left right) =
      evaluate t depth left >>= fun a =>
        evaluate t depth right >>= fun b => ofExcept (applyBinary op a b) := by
    simp only [evaluate, evaluateWith, h]
  have hr := looks_evaluate (t := t) depth right
  rw [hop]
  apply answer_bind_eq s (looks_evaluate depth left)
  · exact fun a => looks_bind hr fun _ => looks_ofExcept _
  · exact fun a => answer_bind_eq s hr (fun _ => looks_ofExcept _) fun _ => answer_ofExcept s _

/-- The right operand of a logical operator, once the left one has not decided. -/
theorem looks_logicalRight (op : Json) (right : Node) :
    Looks (evaluate t depth right >>= fun b =>
      ofExcept (asBoolean op b) >>= fun result => pure (Value.boolean result)) :=
  looks_bind (looks_evaluate depth right) fun _ =>
    looks_bind (looks_ofExcept _) fun _ => looks_pure _

/-- The right operand is evaluated only if the left one does not decide. -/
theorem answer_binary_logical {op : Json} {final : Bool} (h : shortCircuit? op = some final)
    (left right : Node) :
    (evaluate t depth (.binary op left right)).answer s =
      (evaluate t depth left).answer s >>= fun a =>
        (asBoolean op a).mapError .fault >>= fun test =>
          if test = final then .ok (.boolean final)
          else (evaluate t depth right).answer s >>= fun b =>
            (asBoolean op b).mapError .fault >>= fun result => .ok (.boolean result) := by
  have hop : evaluate t depth (.binary op left right) =
      evaluate t depth left >>= fun a =>
        ofExcept (asBoolean op a) >>= fun test =>
          if test = final then pure (.boolean final)
          else evaluate t depth right >>= fun b =>
            ofExcept (asBoolean op b) >>= fun result => pure (.boolean result) := by
    simp only [evaluate, evaluateWith, h]
  have hlooks : ∀ test : Bool, Looks (if test = final then pure (Value.boolean final)
      else evaluate t depth right >>= fun b =>
        ofExcept (asBoolean op b) >>= fun result => pure (Value.boolean result)) := by
    intro test
    split
    · exact looks_pure _
    · exact looks_logicalRight op right
  rw [hop]
  apply answer_bind_eq s (looks_evaluate depth left)
  · exact fun a => looks_bind (looks_ofExcept _) hlooks
  · intro a
    rw [answer_bind_eq s (looks_ofExcept _) hlooks fun _ => rfl, answer_ofExcept]
    congr 1
    funext test
    split
    · rfl
    · apply answer_bind_eq s (looks_evaluate depth right)
      · exact fun b => looks_bind (looks_ofExcept _) fun _ => looks_pure _
      · intro b
        rw [answer_bind_eq s (looks_ofExcept _) (fun _ => looks_pure _) fun _ => rfl,
          answer_ofExcept]
        rfl

theorem answer_conditional (test consequent alternate : Node) :
    (evaluate t depth (.conditional test consequent alternate)).answer s =
      (evaluate t depth test).answer s >>= fun value =>
        (asTest value).mapError .fault >>= fun holds =>
          (note t (.conditionalTest holds)).answer s >>= fun _ =>
            (evaluate t depth (if holds then consequent else alternate)).answer s := by
  have hop : evaluate t depth (.conditional test consequent alternate) =
      evaluate t depth test >>= fun value =>
        ofExcept (asTest value) >>= fun holds =>
          note t (.conditionalTest holds) >>= fun _ =>
            evaluate t depth (if holds then consequent else alternate) := by
    simp only [evaluate, evaluateWith]
    congr 1
    funext value
    congr 1
    funext holds
    congr 1
    funext _
    cases holds <;> rfl
  have hlooks : ∀ holds : Bool, Looks (note t (.conditionalTest holds) >>= fun _ =>
      evaluate t depth (if holds then consequent else alternate)) :=
    fun holds => looks_bind (looks_note _ _) fun _ => looks_evaluate depth _
  rw [hop]
  apply answer_bind_eq s (looks_evaluate depth test)
  · exact fun value => looks_bind (looks_ofExcept _) hlooks
  · intro value
    rw [answer_bind_eq s (looks_ofExcept _) hlooks fun holds =>
      answer_bind_eq s (looks_note _ _) (fun _ => looks_evaluate depth _) fun _ => rfl,
      answer_ofExcept]

theorem answer_subscript (array index : Node) :
    (evaluate t depth (.subscript array index)).answer s =
      (evaluate t depth array).answer s >>= fun target =>
        (evaluate t depth index).answer s >>= fun position =>
          (applySubscript target position).mapError .fault := by
  change (evaluate t depth array >>= fun target => evaluate t depth index >>= fun position =>
    ofExcept (applySubscript target position)).answer s = _
  have hi := looks_evaluate (t := t) depth index
  apply answer_bind_eq s (looks_evaluate depth array)
  · exact fun _ => looks_bind hi fun _ => looks_ofExcept _
  · exact fun _ => answer_bind_eq s hi (fun _ => looks_ofExcept _) fun _ => answer_ofExcept s _

/-- The values of some expressions, from left to right, with `depth` calls to nest. -/
abbrev evaluateAll (t : Tracing) (depth : Nat) (nodes : List Node) : Action (List Value) :=
  evaluateAllWith t (invoke t depth) nodes

theorem looks_evaluateAll (nodes : List Node) : Looks (evaluateAll t depth nodes) :=
  looks_evaluateAllWith fun node _ => looks_evaluate depth node

theorem answer_evaluateAll_cons (node : Node) (nodes : List Node) :
    (evaluateAll t depth (node :: nodes)).answer s =
      (evaluate t depth node).answer s >>= fun value =>
        (evaluateAll t depth nodes).answer s >>= fun values => .ok (value :: values) := by
  change (evaluate t depth node >>= fun value => evaluateAll t depth nodes >>= fun values =>
    pure (value :: values)).answer s = _
  apply answer_bind_eq s (looks_evaluate depth node)
  · exact fun _ => looks_bind (looks_evaluateAll nodes) fun _ => looks_pure _
  · exact fun _ => answer_bind_eq s (looks_evaluateAll nodes) (fun _ => looks_pure _) fun _ => rfl

theorem answer_arrayLiteral (elements : List Node) :
    (evaluate t depth (.arrayLiteral elements)).answer s =
      (evaluateAll t depth elements).answer s >>= fun values => .ok (.array values) := by
  change (evaluateAll t depth elements >>= fun values => pure (Value.array values)).answer s = _
  exact answer_bind_eq s (looks_evaluateAll elements) (fun _ => looks_pure _) fun _ => rfl

/-- The function is looked up before the arguments are evaluated. -/
theorem answer_call (callee : Json) (args : List Node) :
    (evaluate t depth (.call callee args)).answer s =
      s.getFunction callee >>= fun f =>
        (evaluateAll t depth args).answer s >>= fun values =>
          (invoke t depth f values).answer s := by
  change (query (·.getFunction callee) >>= fun f => evaluateAll t depth args >>= fun values =>
    invoke t depth f values).answer s = _
  apply answer_bind_eq s (looks_query _)
  · exact fun f => looks_bind (looks_evaluateAll args) fun _ => looks_invoke depth f _
  · exact fun f => answer_bind_eq s (looks_evaluateAll args) (fun _ => looks_invoke depth f _)
      fun _ => rfl

/-- Where no more calls may nest, there is no call. -/
theorem answer_invoke_zero (f : Function) (args : List Value) :
    (invoke t 0 f args).answer s = .error .tooDeep := rfl

theorem answer_invoke_succ (f : Function) (args : List Value) :
    (invoke t (depth + 1) f args).answer s =
      (checkCall f args).mapError .fault >>= fun _ =>
        (note t (.called f.name args)).answer s >>= fun _ =>
          (s.enter f args >>= (evaluate t depth f.body).answer) >>= fun result =>
            (note t (.returned f.name result)).answer s >>= fun _ => .ok result := by
  have hbody : Looks (inside f args (evaluate t depth f.body)) :=
    looks_inside (looks_evaluate depth f.body)
  have hreturn : ∀ result, Looks (note t (.returned f.name result) >>= fun _ => pure result) :=
    fun _ => looks_bind (looks_note _ _) fun _ => looks_pure _
  have hcalled : Looks (note t (.called f.name args) >>= fun _ =>
      inside f args (evaluate t depth f.body) >>= fun result =>
        note t (.returned f.name result) >>= fun _ => pure result) :=
    looks_bind (looks_note _ _) fun _ => looks_bind hbody hreturn
  rw [← answer_ofExcept s, ← answer_inside]
  change (ofExcept (checkCall f args) >>= fun _ => note t (.called f.name args) >>= fun _ =>
    inside f args (evaluate t depth f.body) >>= fun result =>
      note t (.returned f.name result) >>= fun _ => pure result).answer s = _
  apply answer_bind_eq s (looks_ofExcept _) fun _ => hcalled
  intro _
  apply answer_bind_eq s (looks_note _ _) fun _ => looks_bind hbody hreturn
  intro _
  apply answer_bind_eq s hbody hreturn
  intro result
  exact answer_bind_eq s (looks_note _ _) (fun _ => looks_pure _) fun _ => rfl

end answers

/-- The evaluation of any node and the answering of any call leave the globals, the frames and
the printed lines as they were, in whatever state they start and however they end: with a
value, with a fault, at a defect of the tree or where calls nest too deeply. -/
theorem evaluation_leaves_no_mark (t : Tracing) (depth : Nat) (m : Machine) :
    (∀ node, LeavesNoMark (evaluate t depth node) m) ∧
      ∀ f args, LeavesNoMark (invoke t depth f args) m :=
  ⟨fun node => (looks_evaluate depth node).leavesNoMark m,
    fun f args => (looks_invoke depth f args).leavesNoMark m⟩

end BellaLang
