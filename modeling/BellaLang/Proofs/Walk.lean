-- Every store that a run goes through is sound. A walk is a run that also tells
-- its way: the store after each of its actions, and the stores just inside and
-- just outside each call. A walk ends as the run does, and no store on its way
-- holds a value of a wrong kind.
import BellaLang.Proofs.Following
import BellaLang.Proofs.Notes

namespace BellaLang

/-! ## Walks -/

/-- A part of a run: how it ends, the state it leaves, and the stores on its way. -/
def Walk (α : Type) : Type := Machine → (Except Stop α × Machine) × List Store

namespace Walk

/-- One walk after the other, unless the first one stops. -/
def bind {α β : Type} (w : Walk α) (next : α → Walk β) : Walk β := fun m =>
  match w m with
  | ((.ok a, m'), way) => ((next a m').1, way ++ (next a m').2)
  | ((.error e, m'), way) => ((.error e, m'), way)

/-- One action, with the store that it leaves. -/
def step {α : Type} (act : Action α) : Walk α := fun m => (act m, [(act m).2.store])

/-- A walk inside a call, between the store of the call and the store after it. -/
def inside {α : Type} (f : Function) (args : List Value) (w : Walk α) : Walk α := fun m =>
  match m.store.enter f args with
  | .error e => ((.error e, m), [m.store])
  | .ok store =>
    let ((result, m), way) := w { m with store }
    ((result, { m with store := m.store.leave }), store :: way ++ [m.store.leave])

instance : Follower Walk where
  pure a := fun m => ((.ok a, m), [])
  bind := bind
  step := step
  inside := inside

end Walk

/-- The walk of a whole run. -/
abbrev walkRun (s : Settings) (program : Node) : Walk Unit := followRun s program

/-! ## A walk ends as the run does -/

namespace Walk

/-- The walk does what the action does. -/
def Tracks {α : Type} (w : Walk α) (act : Action α) : Prop := ∀ m, (w m).1 = act m

theorem tracks_step {α : Type} (act : Action α) : Tracks (step act) act := fun _ => rfl

theorem bind_ok {α β : Type} {w : Walk α} {next : α → Walk β} {m m' : Machine} {a : α}
    {way : List Store} (h : w m = ((.ok a, m'), way)) :
    (w >>= next) m = ((next a m').1, way ++ (next a m').2) := by
  change Walk.bind w next m = _
  rw [Walk.bind, h]

theorem bind_error {α β : Type} {w : Walk α} {next : α → Walk β} {m m' : Machine} {e : Stop}
    {way : List Store} (h : w m = ((.error e, m'), way)) :
    (w >>= next) m = ((.error e, m'), way) := by
  change Walk.bind w next m = _
  rw [Walk.bind, h]

theorem tracks_bind {α β : Type} {w : Walk α} {act : Action α} {next : α → Walk β}
    {f : α → Action β} (hw : Tracks w act) (hn : ∀ a, Tracks (next a) (f a)) :
    Tracks (w >>= next) (act >>= f) := by
  intro m
  rcases hm : w m with ⟨⟨e | a, m'⟩, way⟩
  · have ha : act m = (.error e, m') := by rw [← hw m, hm]
    rw [bind_error hm, Action.bind_error ha]
  · have ha : act m = (.ok a, m') := by rw [← hw m, hm]
    rw [bind_ok hm, Action.bind_ok ha]
    exact hn a m'

theorem tracks_inside {α : Type} {w : Walk α} {act : Action α} (f : Function)
    (args : List Value) (h : Tracks w act) :
    Tracks (inside f args w) (Action.inside f args act) := by
  rintro ⟨s, log⟩
  rcases he : s.enter f args with e | inner
  · rw [Action.inside_error he]
    simp only [inside, he]
  · rw [Action.inside_ok he, ← h ⟨inner, log⟩]
    simp only [inside, he]

end Walk

open Walk

section tracks

/-- A walk and its action go on together, into calls and out of them. -/
theorem simulates_tracks (t : Tracing) : Simulates Tracks t where
  step _ := tracks_step _
  bind := tracks_bind
  call f args _ _ h := by
    apply tracks_bind (tracks_step _)
    intro _
    apply tracks_bind (tracks_inside f args h)
    intro result
    exact tracks_bind (tracks_step _) fun _ => tracks_step _

variable (s : Settings)

theorem tracks_followValue (expr : Node) :
    Tracks (followValue s expr) (evaluate s.toTracing s.depth expr) :=
  (simulates_tracks _).value expr

theorem tracks_walkRun (program : Node) :
    Tracks (walkRun s program) (runProgram s program) :=
  (simulates_tracks _).run (fun _ _ => tracks_step _) program

end tracks

/-! ## What is on a way -/

namespace Walk

section ways

variable {α β : Type}

/-- What is on a way stays on it when the walk goes on. -/
theorem mem_way_bind {w : Walk α} {m : Machine} {s : Store} (h : s ∈ (w m).2)
    (next : α → Walk β) : s ∈ ((w >>= next) m).2 := by
  rcases hr : w m with ⟨⟨e | a, m'⟩, way⟩ <;> rw [hr] at h
  · rw [bind_error hr]
    exact h
  · rw [bind_ok hr]
    exact List.mem_append_left _ h

/-- The store that the walk leaves, be it by stopping, is the last one on its way. -/
def EndsOnWay (w : Walk α) : Prop := ∀ m, (w m).2.getLast? = some (w m).1.2.store

theorem endsOnWay_step (act : Action α) : EndsOnWay (step act) := fun _ => rfl

theorem endsOnWay_bind {w : Walk α} {next : α → Walk β} (hw : EndsOnWay w)
    (hn : ∀ a, EndsOnWay (next a)) : EndsOnWay (w >>= next) := by
  intro m
  have hlast := hw m
  rcases hr : w m with ⟨⟨e | a, m'⟩, way⟩
  · rw [hr] at hlast
    rw [bind_error hr, hlast]
  · rw [bind_ok hr, List.getLast?_append, hn a m', Option.some_or]

theorem endsOnWay_inside (f : Function) (args : List Value) (w : Walk α) :
    EndsOnWay (inside f args w) := by
  intro m
  rcases he : m.store.enter f args with e | inner
  · simp only [inside, he, List.getLast?_singleton]
  · simp only [inside, he, List.getLast?_append, List.getLast?_singleton, Option.some_or]

/-- Every walk ends on its way, whatever became of it. -/
theorem simulates_endsOnWay (t : Tracing) : @Simulates Walk _ (fun w _ => EndsOnWay w) t where
  step _ := endsOnWay_step _
  bind := endsOnWay_bind
  call f args part _ _ := by
    apply endsOnWay_bind (endsOnWay_step _)
    intro _
    apply endsOnWay_bind (endsOnWay_inside f args part)
    intro result
    exact endsOnWay_bind (endsOnWay_step _) fun _ => endsOnWay_step _

/-- On the way there is the store inside a call of a function of the given name. -/
def HasCall (way : List Store) (name : Json) (args : List Value) : Prop :=
  ∃ (f : Function) (frame : Scope), f.name = name ∧ Scope.bindAll [] f.params args = .ok frame ∧
    ∃ s ∈ way, s.frames.head? = some frame

theorem HasCall.mono {way way' : List Store} {name : Json} {args : List Value}
    (h : HasCall way name args) (hsub : way ⊆ way') : HasCall way' name args := by
  obtain ⟨f, frame, hname, hframe, s, hs, hhead⟩ := h
  exact ⟨f, frame, hname, hframe, s, hsub hs, hhead⟩

/-- The walk has the calls on its way that it takes notes of, unless it comes upon a defect. -/
def ShowsCalls (w : Walk α) : Prop :=
  ∀ m, ∃ notes, (w m).1.2.notes = m.notes ++ notes ∧
    ((∃ d, (w m).1.1 = .error (.defect d)) ∨
      ∀ name args, .called name args ∈ notes → HasCall (w m).2 name args)

theorem showsCalls_step {act : Action α} (h : act.Quiet) : ShowsCalls (step act) := by
  intro m
  obtain ⟨_, notes, hnotes, hall⟩ := h m
  refine ⟨notes, hnotes, Or.inr fun name args hmem => ?_⟩
  have hcall := (hall _ hmem).2
  cases hcall

theorem showsCalls_note (t : Tracing) {n : Note} (hn : ∀ name args, n ≠ .called name args) :
    ShowsCalls (step (Action.note t n)) := by
  intro m
  rcases note_cases t n m with h | ⟨h, _⟩ | ⟨d, h⟩ <;> simp only [step, h]
  · refine ⟨_, notes_noted m n, Or.inr fun name args hmem => ?_⟩
    exact absurd (List.mem_singleton.1 hmem).symm (hn name args)
  · exact ⟨[], by simp⟩
  · exact ⟨[], by simp⟩

/-- A call is shown by the part of the walk that noted it. -/
theorem showsCalls_bind {w : Walk α} {next : α → Walk β} (hw : ShowsCalls w)
    (hn : ∀ a, ShowsCalls (next a)) : ShowsCalls (w >>= next) := by
  intro m
  obtain ⟨notes, hnotes, hcalls⟩ := hw m
  rcases hr : w m with ⟨⟨e | a, m'⟩, way⟩ <;> rw [hr] at hnotes hcalls
  · rw [bind_error hr]
    refine ⟨notes, hnotes, hcalls.imp_left ?_⟩
    rintro ⟨d, hd⟩
    cases hd
    exact ⟨d, rfl⟩
  · rw [bind_ok hr]
    obtain ⟨notes', hnotes', hcalls'⟩ := hn a m'
    have hfirst := hcalls.resolve_left (by simp)
    refine ⟨notes ++ notes', by rw [hnotes', hnotes, List.append_assoc], hcalls'.imp_right ?_⟩
    intro hsecond name args hmem
    rcases List.mem_append.1 hmem with hmem | hmem
    · exact (hfirst name args hmem).mono (List.subset_append_left _ _)
    · exact (hsecond name args hmem).mono (List.subset_append_right _ _)

theorem exists_defect_of_keyOf {name : Json} {e : Stop} (h : keyOf name = .error e) :
    ∃ d, e = .defect d := by
  unfold keyOf at h
  split at h
  · cases h
  · cases h
    exact ⟨_, rfl⟩

/-- Only a parameter that cannot be a name keeps a call from being entered. -/
theorem exists_defect_of_bindAll {scope : Scope} {params : List Json} {args : List Value}
    {e : Stop} (h : scope.bindAll params args = .error e) : ∃ d, e = .defect d := by
  induction params generalizing scope args with
  | nil => cases h
  | cons param params ih =>
    rcases args with _ | ⟨arg, args⟩
    · cases h
    · change (keyOf param >>= fun key => (scope.bind key param arg).bindAll params args) = _ at h
      rcases hkey : keyOf param with e' | key <;> rw [hkey] at h
      · cases h
        exact exists_defect_of_keyOf hkey
      · exact ih h

/-- A call that does not begin comes upon a defect; else its store is there. -/
theorem inside_cases (f : Function) (args : List Value) (w : Walk α) (m : Machine) :
    (∃ d, inside f args w m = ((.error (.defect d), m), [m.store])) ∨
      HasCall (inside f args w m).2 f.name args := by
  rcases hframe : Scope.bindAll [] f.params args with e | frame
  · obtain ⟨d, rfl⟩ := exists_defect_of_bindAll hframe
    have he : m.store.enter f args = .error (.defect d) := by rw [Store.enter, hframe]; rfl
    exact Or.inl ⟨d, by simp only [inside, he]⟩
  · let inner : Store := { m.store with frames := frame :: m.store.frames }
    have he : m.store.enter f args = .ok inner := by
      rw [Store.enter, hframe]
      rfl
    have hinner : inner ∈ (inside f args w m).2 := by
      simp only [inside, he]
      exact List.mem_cons_self
    exact Or.inr ⟨f, frame, rfl, hframe, inner, hinner, rfl⟩

theorem showsCalls_inside {w : Walk α} (f : Function) (args : List Value) (h : ShowsCalls w) :
    ShowsCalls (inside f args w) := by
  intro m
  rcases he : m.store.enter f args with e | inner
  · exact ⟨[], by simp only [inside, he]; simp⟩
  · obtain ⟨notes, hnotes, hcalls⟩ := h { m with store := inner }
    simp only [inside, he]
    refine ⟨notes, hnotes, hcalls.imp_right fun hall name args hmem => ?_⟩
    exact (hall name args hmem).mono fun s hs => by simp [hs]

/-- The note of a call is followed by the call. -/
theorem showsCalls_call {t : Tracing} {f : Function} {args : List Value} {w : Walk α}
    {next : α → Walk β} (hw : ShowsCalls w) (hn : ∀ a, ShowsCalls (next a)) :
    ShowsCalls (do step (Action.note t (.called f.name args))
                   let result ← inside f args w
                   next result) := by
  intro m
  rcases note_cases t (.called f.name args) m with h | ⟨h, _⟩ | ⟨d, h⟩
  · rw [bind_ok (by rw [step, h])]
    obtain ⟨notes, hnotes, hcalls⟩ := showsCalls_bind (showsCalls_inside f args hw) hn
      { m with log := .noted (.called f.name args) :: m.log }
    refine ⟨.called f.name args :: notes, by rw [hnotes, notes_noted, List.append_assoc]; rfl, ?_⟩
    rcases inside_cases f args w { m with log := .noted (.called f.name args) :: m.log } with
      ⟨d, hinside⟩ | hcall
    · rw [bind_error hinside]
      exact Or.inl ⟨d, rfl⟩
    · refine hcalls.imp_right fun hall name args' hmem => ?_
      rcases List.mem_cons.1 hmem with heq | hmem
      · cases heq
        exact hcall.mono fun s hs => List.mem_append_right _ (mem_way_bind hs next)
      · exact (hall name args' hmem).mono (List.subset_append_right _ _)
  · rw [bind_ok (by rw [step, h])]
    obtain ⟨notes, hnotes, hcalls⟩ := showsCalls_bind (showsCalls_inside f args hw) hn m
    exact ⟨notes, hnotes, hcalls.imp_right fun hall name args' hmem =>
      (hall name args' hmem).mono (List.subset_append_right _ _)⟩
  · rw [bind_error (by rw [step, h])]
    exact ⟨[], (List.append_nil _).symm, Or.inl ⟨d, rfl⟩⟩

theorem simulates_showsCalls (t : Tracing) : @Simulates Walk _ (fun w _ => ShowsCalls w) t where
  step := showsCalls_step
  bind := showsCalls_bind
  call _ _ _ _ h := by
    apply showsCalls_call h
    intro result
    apply showsCalls_bind (showsCalls_note _ (by simp))
    exact fun _ => showsCalls_step (quiet_still fun _ => rfl)

end ways

end Walk

/-! ## Walks through sound stores -/

namespace Walk

section safe

variable {α β : Type} {I : Store → Prop} {Q : α → Prop} {R : β → Prop}

/-- From a store with the given property the walk goes through sound stores only, ends in a
store with that property, and what it comes to meets the condition. -/
def Safe (I : Store → Prop) (Q : α → Prop) (w : Walk α) : Prop :=
  ∀ m, I m.store →
    (∀ s ∈ (w m).2, s.Sound) ∧ I (w m).1.2.store ∧ ∀ a, (w m).1.1 = .ok a → Q a

theorem safe_bind {w : Walk α} {next : α → Walk β} (hw : Safe I Q w)
    (hn : ∀ a, Q a → Safe I R (next a)) : Safe I R (w >>= next) := by
  intro m hm
  obtain ⟨hway, hstore, hq⟩ := hw m hm
  rcases hr : w m with ⟨⟨e | a, m'⟩, way⟩
  · rw [hr] at hway hstore
    rw [bind_error hr]
    exact ⟨hway, hstore, fun a ha => by cases ha⟩
  · rw [hr] at hway hstore hq
    obtain ⟨hway', hstore', hr'⟩ := hn a (hq a rfl) m' hstore
    rw [bind_ok hr]
    refine ⟨?_, hstore', hr'⟩
    intro s' hs'
    rcases List.mem_append.1 hs' with hs' | hs'
    · exact hway s' hs'
    · exact hway' s' hs'

theorem Safe.mono {w : Walk α} {Q' : α → Prop} (h : Safe I Q w) (hq : ∀ a, Q a → Q' a) :
    Safe I Q' w := by
  intro m hm
  obtain ⟨hway, hstore, ha⟩ := h m hm
  exact ⟨hway, hstore, fun a h => hq a (ha a h)⟩

/-- A step is safe if it keeps the invariant and if what it leaves is sound. -/
theorem safe_step {act : Action α} (h : ∀ m, I m.store → I (act m).2.store)
    (hs : ∀ m, I m.store → (act m).2.store.Sound)
    (hq : ∀ m a, I m.store → (act m).1 = .ok a → Q a) : Safe I Q (step act) := by
  intro m hm
  refine ⟨?_, h m hm, fun a ha => hq m a hm ha⟩
  intro s hmem
  rw [List.mem_singleton.1 hmem]
  exact hs m hm

/-- An action that only looks is safe wherever stores are sound. -/
theorem safe_looks (hI : ∀ s, I s → s.Sound) {act : Action α} (h : Action.Looks act)
    (hq : ∀ s a, I s → act.answer s = .ok a → Q a) : Safe I Q (step act) := by
  apply safe_step
  · intro m hm
    rw [h.store_eq]
    exact hm
  · intro m hm
    rw [h.store_eq]
    exact hI _ hm
  · intro m a hm ha
    exact hq m.store a hm ((h.fst_eq m).symm.trans ha)

theorem safe_pure (hI : ∀ s, I s → s.Sound) {a : α} (h : Q a) : Safe I Q (step (pure a)) := by
  apply safe_looks hI (Action.looks_pure a)
  intro _ b _ hb
  cases hb
  exact h

theorem safe_fault (hI : ∀ s, I s → s.Sound) (r : Except Fault α) :
    Safe I (fun a => r = .ok a) (step (Action.ofExcept r)) := by
  apply safe_looks hI (Action.looks_ofExcept r)
  intro _ a _ ha
  rcases r with f | b
  · cases ha
  · cases ha
    rfl

theorem safe_note (hI : ∀ s, I s → s.Sound) (t : Tracing) (n : Note) :
    Safe I (fun _ => True) (step (Action.note t n)) :=
  safe_looks hI (Action.looks_note t n) fun _ _ _ _ => trivial

theorem safe_stop (hI : ∀ s, I s → s.Sound) (e : Stop) : Safe I Q (step (Action.stop e)) :=
  safe_looks hI (Action.looks_stop e) fun _ _ _ ha => by cases ha

/-- A walk that comes back to the store it started in. -/
abbrev Keeps (s : Store) (Q : α → Prop) (w : Walk α) : Prop := Safe (· = s) Q w

theorem keeps_inside {s inner : Store} (hs : s.Sound) (hi : inner.Sound) {f : Function}
    {args : List Value} (he : s.enter f args = .ok inner) {w : Walk α} (h : Keeps inner Q w) :
    Keeps s Q (inside f args w) := by
  rintro ⟨_, log⟩ rfl
  obtain ⟨hway, hstore, hq⟩ := h ⟨inner, log⟩ rfl
  simp only [inside, he]
  rw [hstore, Store.leave_enter he]
  refine ⟨?_, rfl, hq⟩
  intro s' hs'
  rcases List.mem_append.1 hs' with hs' | hs'
  · rcases List.mem_cons.1 hs' with rfl | hs'
    · exact hi
    · exact hway s' hs'
  · rw [List.mem_singleton.1 hs']
    exact hs

/-- A walk that leads from sound stores to sound stores. -/
abbrev Preserves (Q : α → Prop) (w : Walk α) : Prop := Safe Store.Sound Q w

/-- What keeps each sound store preserves soundness. -/
theorem Preserves.of_keeps {w : Walk α} (h : ∀ s : Store, s.Sound → Keeps s Q w) :
    Preserves Q w := by
  intro m hm
  obtain ⟨hway, hstore, hq⟩ := h m.store hm m rfl
  exact ⟨hway, hstore ▸ hm, hq⟩

theorem preserves_looks {act : Action α} (h : Action.Looks act) :
    Preserves (fun _ => True) (step act) :=
  safe_looks (fun _ hs => hs) h fun _ _ _ _ => trivial

theorem preserves_step {act : Action α} (h : ∀ m, m.store.Sound → (act m).2.store.Sound) :
    Preserves (fun _ => True) (step act) :=
  safe_step h h fun _ _ _ _ => trivial

theorem preserves_update {f : Store → Except Stop Store}
    (h : ∀ s s', s.Sound → f s = .ok s' → s'.Sound) :
    Preserves (fun _ => True) (step (Action.update f)) := by
  apply preserves_step
  intro m hm
  rcases hf : f m.store with e | s'
  · simp only [Action.update, hf]
    exact hm
  · simp only [Action.update, hf]
    exact h _ _ hm hf

end safe

end Walk

/-! ## Expressions in sound stores -/

section expressions

variable {t : Tracing} {walkF : Function → List Value → Walk Value} {s : Store}

theorem keeps_followAllWith (hs : s.Sound) {nodes : List Node}
    (h : ∀ node ∈ nodes, Keeps s Value.Plain (followWith t walkF node)) :
    Keeps s (fun vs => ∀ v ∈ vs, v.Plain) (followAllWith t walkF nodes) := by
  have hI : ∀ s', s' = s → s'.Sound := fun _ h => h ▸ hs
  induction nodes with
  | nil => exact safe_pure hI (by simp)
  | cons node nodes ih =>
    rw [followAllWith]
    apply safe_bind (h node (by simp))
    intro value hvalue
    apply safe_bind (ih fun n hn => h n (by simp [hn]))
    intro values hvalues
    apply safe_pure hI
    intro v hv
    rcases List.mem_cons.1 hv with rfl | hv
    · exact hvalue
    · exact hvalues v hv

/-- In a sound store an expression has a plain value, if the calls of declared functions
have. -/
theorem keeps_followWith (hs : s.Sound)
    (hcall : ∀ f args, s.Declares f → Keeps s Value.Plain (walkF f args)) (node : Node) :
    Keeps s Value.Plain (followWith t walkF node) := by
  have hI : ∀ s', s' = s → s'.Sound := fun _ h => h ▸ hs
  induction node with
  | numeral value => exact safe_pure hI (.number value)
  | booleanLiteral value => exact safe_pure hI (.boolean value)
  | identifier name =>
    exact safe_looks hI (Action.looks_query _) fun _ v h hv => Store.plain_of_get hs (h ▸ hv)
  | unary op operand ih =>
    rw [followWith]
    apply safe_bind ih
    intro value _
    exact (safe_fault hI _).mono fun v hv => plain_applyUnary hv
  | binary op left right ihl ihr =>
    rw [followWith]
    apply safe_bind ihl
    intro a _
    rcases shortCircuit? op with _ | final
    · apply safe_bind ihr
      intro b _
      exact (safe_fault hI _).mono fun v hv => plain_applyBinary hv
    · apply safe_bind (safe_fault hI _)
      intro test _
      split
      · exact safe_pure hI (.boolean _)
      · apply safe_bind ihr
        intro b _
        exact safe_bind (safe_fault hI _) fun result _ => safe_pure hI (.boolean _)
  | conditional test consequent alternate iht ihc iha =>
    rw [followWith]
    apply safe_bind iht
    intro value _
    apply safe_bind (safe_fault hI _)
    intro holds _
    apply safe_bind (safe_note hI _ _)
    intro _ _
    split
    · exact ihc
    · exact iha
  | arrayLiteral elements ih =>
    rw [followWith]
    exact safe_bind (keeps_followAllWith hs ih) fun values hvalues => safe_pure hI (.array hvalues)
  | subscript array index iha ihi =>
    rw [followWith]
    apply safe_bind iha
    intro target htarget
    apply safe_bind ihi
    intro position _
    exact (safe_fault hI _).mono fun v hv => plain_applySubscript htarget hv
  | call callee args ih =>
    rw [followWith]
    apply safe_bind (safe_looks hI (Action.looks_query _) fun _ f h hf => h ▸ hf)
    intro f hf
    apply safe_bind (keeps_followAllWith hs ih)
    intro values _
    exact hcall f values (Store.declares_of_getFunction hf)
  | _ => exact safe_stop hI _

/-- A call of a declared function goes on in a sound store, its parameters bound to
numbers. -/
theorem keeps_followCall (depth : Nat) {f : Function} (hs : s.Sound) (hf : s.Declares f)
    (args : List Value) : Keeps s Value.Plain (followCall t depth f args) := by
  have hI : ∀ s', s' = s → s'.Sound := fun _ h => h ▸ hs
  induction depth generalizing s f args with
  | zero => exact safe_stop hI _
  | succ depth ih =>
    rw [followCall]
    apply safe_bind (safe_fault hI (checkCall f args))
    intro _ hcheck
    apply safe_bind (safe_note hI _ _)
    intro _ _
    obtain ⟨inner, he, hi⟩ := Store.sound_enter hs hf hcheck
    have hcalls : ∀ g args', inner.Declares g →
        Keeps inner Value.Plain (followCall t depth g args') :=
      fun g args' hg => ih hi hg args' fun _ h => h ▸ hi
    apply safe_bind (keeps_inside hs hi he (keeps_followWith hi hcalls f.body))
    intro result hresult
    apply safe_bind (safe_note hI _ _)
    intro _ _
    exact safe_pure hI hresult

theorem keeps_followValue (s' : Settings) (hs : s.Sound) (expr : Node) :
    Keeps s Value.Plain (followValue s' expr) :=
  keeps_followWith hs (fun _ args hf => keeps_followCall s'.depth hs hf args) expr

end expressions

/-! ## Statements keep stores sound -/

section statements

variable (s : Settings)

theorem preserves_followValue (expr : Node) : Preserves Value.Plain (followValue s expr) :=
  .of_keeps fun _ hs => keeps_followValue s hs expr

theorem preserves_note (n : Note) :
    Preserves (fun _ => True) (step (Action.note s.toTracing n)) :=
  preserves_looks (Action.looks_note _ n)

theorem preserves_followTest (test : Node) : Preserves (fun _ => True) (followTest s test) := by
  rw [followTest]
  apply safe_bind (preserves_followValue s test)
  intro value _
  apply safe_bind (preserves_looks (Action.looks_ofExcept _))
  intro holds _
  apply safe_bind (preserves_note s _)
  intro _ _
  exact preserves_looks (Action.looks_pure _)

theorem preserves_followWhile {test : Walk Bool} {body : Walk Unit}
    (ht : Preserves (fun _ => True) test) (hb : Preserves (fun _ => True) body) (rounds : Nat) :
    Preserves (fun _ => True) (followWhile rounds test body) := by
  induction rounds with
  | zero => exact preserves_looks (Action.looks_stop _)
  | succ rounds ih =>
    rw [followWhile]
    apply safe_bind ht
    intro holds _
    split
    · exact safe_bind hb fun _ _ => ih
    · exact preserves_looks (Action.looks_pure _)

theorem preserves_followStatements {nodes : List Node}
    (h : ∀ node ∈ nodes, Preserves (fun _ => True) (followStatement s node)) :
    Preserves (fun _ => True) (followStatements s nodes) := by
  induction nodes with
  | nil =>
    rw [followStatements]
    exact preserves_looks (Action.looks_pure _)
  | cons node nodes ih =>
    rw [followStatements]
    exact safe_bind (h node (by simp)) fun _ _ => ih fun n hn => h n (by simp [hn])

/-- Every statement, and every block, keeps stores sound, whatever tree it is. -/
theorem preserves_followStatement (node : Node) :
    Preserves (fun _ => True) (followStatement s node) ∧
      Preserves (fun _ => True) (followBlock s node) := by
  have hstop : ∀ e, Preserves (fun _ : Unit => True) (step (Action.stop e)) :=
    fun e => preserves_looks (Action.looks_stop e)
  induction node with
  | block statements ih =>
    simp only [followStatement, followBlock]
    exact ⟨hstop _, preserves_followStatements s fun n hn => (ih n hn).1⟩
  | variableDeclaration name expr =>
    simp only [followStatement, followBlock]
    refine ⟨?_, hstop _⟩
    apply safe_bind (preserves_followValue s expr)
    intro value hvalue
    apply safe_bind (preserves_update fun _ _ hs h => Store.sound_declareVariable hs hvalue h)
    intro _ _
    exact preserves_note s _
  | functionDeclaration name params body =>
    simp only [followStatement, followBlock]
    refine ⟨?_, hstop _⟩
    refine safe_bind (preserves_update ?_) fun _ _ =>
      preserves_looks (looks_noteDefined _ _ _)
    intro store store' hs h
    obtain ⟨⟨f, store''⟩, hd, rfl⟩ := map_eq_ok.1 h
    exact Store.sound_declareFunction hs hd
  | assignment name expr =>
    simp only [followStatement, followBlock]
    refine ⟨?_, hstop _⟩
    apply safe_bind (preserves_followValue s expr)
    intro value hvalue
    apply safe_bind (preserves_update fun _ _ hs h => Store.sound_assign hs hvalue h)
    intro _ _
    exact preserves_note s _
  | printStatement expr =>
    simp only [followStatement, followBlock]
    refine ⟨?_, hstop _⟩
    apply safe_bind (preserves_followValue s expr)
    intro value _
    exact preserves_step fun m hm => hm
  | whileStatement test body _ ihb =>
    simp only [followStatement, followBlock]
    exact ⟨preserves_followWhile (preserves_followTest s test) ihb.2 s.rounds, hstop _⟩
  | _ =>
    simp only [followStatement, followBlock]
    exact ⟨hstop _, hstop _⟩

theorem preserves_walkRun (program : Node) :
    Preserves (fun _ => True) (walkRun s program) := by
  rw [walkRun, followRun]
  apply safe_bind (preserves_note s _)
  intro _ _
  have hprogram : Preserves (fun _ => True) (followProgram s program) := by
    cases program with
    | program block => exact (preserves_followStatement s block).2
    | _ => exact preserves_looks (Action.looks_stop _)
  exact safe_bind hprogram fun _ _ => preserves_note s _

end statements

/-! ## Runs -/

/-- An expression has a plain value in every sound store. -/
theorem plain_of_evaluate {s : Settings} {node : Node} {m : Machine} {v : Value}
    (hm : m.store.Sound) (h : (evaluate s.toTracing s.depth node m).1 = .ok v) : v.Plain := by
  obtain ⟨_, _, hv⟩ := keeps_followValue s hm node m rfl
  rw [tracks_followValue s node m] at hv
  exact hv v h

/-- A run of any tree goes through sound stores only, also inside calls and up to a failure,
and the store it leaves is sound. Where stores are sound every expression has a plain value,
and a call that is let in binds each parameter of a declared function to its own argument, a
number. -/
theorem every_store_of_a_run_is_sound (s : Settings) (program : Node) :
    (walkRun s program .start).1 = run s program ∧
      (∀ store ∈ (walkRun s program .start).2, store.Sound) ∧
      (run s program).2.store.Sound ∧
      (∀ m node v, m.store.Sound → (evaluate s.toTracing s.depth node m).1 = .ok v → v.Plain) ∧
      ∀ (store : Store) f args, store.Sound → store.Declares f → checkCall f args = .ok () →
        args.length = f.params.length ∧ (∃ xs : List Number, args = xs.map .number) ∧
          store.enter f args = .ok { store with frames := f.params.zip args :: store.frames } := by
  have htracks := tracks_walkRun s program .start
  obtain ⟨hway, hstore, _⟩ := preserves_walkRun s program .start sound_empty
  refine ⟨htracks, hway, ?_, fun m node v hm h => plain_of_evaluate hm h, ?_⟩
  · rw [htracks] at hstore
    exact hstore
  · intro store f args hs hf hc
    obtain ⟨hlen, hnumbers⟩ := Store.checkCall_eq_ok hc
    exact ⟨hlen, hnumbers, Store.enter_eq (hs.distinct hf) args⟩

/-- The way of a run ends with the store that the run leaves, be it by a failure, and has on it the
store inside each call that the run takes note of. Only a defect may keep a call from beginning. -/
theorem way_of_run (s : Settings) (program : Node) :
    (walkRun s program .start).2.getLast? = some (run s program).2.store ∧
      ((∃ d, (run s program).1 = .error (.defect d)) ∨
        ∀ name args, .called name args ∈ (run s program).2.notes →
          HasCall (walkRun s program .start).2 name args) := by
  have htracks : (walkRun s program .start).1 = run s program := tracks_walkRun s program .start
  have hlast := (simulates_endsOnWay s.toTracing).run (fun _ _ => endsOnWay_step _) program .start
  have hquiet : ∀ n : Note, n.level ≤ 1 → ShowsCalls (step (Action.note s.toTracing n)) := by
    intro n hn
    apply showsCalls_note
    rintro name args rfl
    simp [Note.level] at hn
  obtain ⟨notes, hnotes, hcalls⟩ := (simulates_showsCalls s.toTracing).run hquiet program .start
  rw [← htracks]
  refine ⟨hlast, hcalls.imp_right fun hall name args hmem => ?_⟩
  rw [hnotes] at hmem
  exact hall name args hmem

/-- One frame inside the call, whose body fails, and none after it. -/
example :
    let program : Node := .program (.block
      [.functionDeclaration (.str "f") [.str "x"]
        (.subscript (.identifier (.str "x")) (.numeral 0)),
       .printStatement (.call (.str "f") [.numeral 1])])
    (walkRun {} program .start).2.map (·.frames.length) =
      [0, 0, 0, 0, 0, 0, 0, 0, 0, 1, 1, 1, 1, 0] := by
  decide +kernel

end BellaLang
