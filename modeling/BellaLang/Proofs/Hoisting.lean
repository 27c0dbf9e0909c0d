-- A function may be declared earlier than it is. A run that ends well never finds
-- out that a name was still free: had it looked the name up, it would have failed,
-- and had it declared the name, the function could not have been declared later.
-- So the same run goes through with the function among the globals from before.
import BellaLang.Proofs.Enacting
import BellaLang.Proofs.Joining

namespace BellaLang

open BellaLang.Action

/-! ## Results that are kept -/

/-- What the first one comes to, if it comes to a result, the second one comes to as well. -/
def Gives {α : Type} (x y : Except Stop α) : Prop := ∀ a, x = .ok a → y = .ok a

section gives

variable {α β : Type}

theorem gives_refl (x : Except Stop α) : Gives x x := fun _ h => h

theorem gives_of_eq {x y : Except Stop α} (h : x = y) : Gives x y := h ▸ gives_refl x

theorem gives_bind {x y : Except Stop α} {f g : α → Except Stop β} (hxy : Gives x y)
    (hfg : ∀ a, Gives (f a) (g a)) : Gives (x >>= f) (y >>= g) := by
  intro b hb
  obtain ⟨a, ha, hb⟩ := bind_eq_ok.1 hb
  exact bind_eq_ok.2 ⟨a, hxy a ha, hfg a b hb⟩

end gives

/-! ## Expressions in a larger store -/

/-- Under the same frames, the second store binds what the first one binds, and perhaps more. -/
structure Store.Within (s s' : Store) : Prop where
  globals : ∀ key v, s.globals.find? key = some v → s'.globals.find? key = some v
  frames : s'.frames = s.frames

section within

variable {t : Tracing} {depth : Nat} {s s' : Store}

theorem gives_get (h : s.Within s') (name : Json) : Gives (s.get name) (s'.get name) := by
  have hframe : s'.currentFrame = s.currentFrame := by
    rw [Store.currentFrame, h.frames, Store.currentFrame]
  unfold Store.get
  rw [hframe]
  apply gives_bind (gives_refl _)
  intro key v hv
  rcases hf : s.currentFrame.find? key with _ | w
  · rw [hf] at hv
    rcases hg : s.globals.find? key with _ | w
    · rw [hg] at hv
      cases hv
    · rw [hg] at hv
      rw [h.globals key w hg]
      exact hv
  · rw [hf] at hv
    exact hv

theorem gives_getFunction (h : s.Within s') (name : Json) :
    Gives (s.getFunction name) (s'.getFunction name) := by
  apply gives_bind (gives_refl _)
  intro key f hf
  rcases hg : s.globals.find? key with _ | w
  · rw [hg] at hf
    cases hf
  · rw [hg] at hf
    rw [h.globals key w hg]
    exact hf

theorem Store.Within.push (h : s.Within s') (frame : Scope) :
    (s.push frame).Within (s'.push frame) :=
  ⟨h.globals, congrArg (frame :: ·) h.frames⟩

/-- Whether a note is taken, or refused, is no matter of the store. -/
theorem answer_note_eq (t : Tracing) (n : Note) (s s' : Store) :
    (note t n).answer s = (note t n).answer s' := by
  unfold note
  split
  · split <;> rfl
  · rfl

theorem answer_noteDefined_eq (t : Tracing) (name : Json) (params : List Json) (s s' : Store) :
    (noteDefined t name params).answer s = (noteDefined t name params).answer s' := by
  unfold noteDefined
  split
  · split
    · exact answer_note_eq t _ s s'
    · rfl
  · rfl

theorem gives_evaluateAll {nodes : List Node}
    (h : ∀ node ∈ nodes,
      Gives ((evaluate t depth node).answer s) ((evaluate t depth node).answer s')) :
    Gives ((evaluateAll t depth nodes).answer s) ((evaluateAll t depth nodes).answer s') := by
  induction nodes with
  | nil => exact gives_refl _
  | cons node nodes ih =>
    rw [answer_evaluateAll_cons, answer_evaluateAll_cons]
    apply gives_bind (h node (by simp))
    intro value
    exact gives_bind (ih fun n hn => h n (by simp [hn])) fun values => gives_refl _

/-- A name that is looked up is bound, or else there is no result. -/
theorem gives_evaluate_of_calls (hw : s.Within s')
    (hcall : ∀ f args, Gives ((invoke t depth f args).answer s) ((invoke t depth f args).answer s'))
    (node : Node) :
    Gives ((evaluate t depth node).answer s) ((evaluate t depth node).answer s') := by
  induction node with
  | numeral value => exact gives_refl _
  | booleanLiteral value => exact gives_refl _
  | identifier name => exact gives_get hw name
  | unary op operand ih =>
    rw [answer_unary, answer_unary]
    exact gives_bind ih fun value => gives_refl _
  | binary op left right ihl ihr =>
    rcases hop : shortCircuit? op with _ | final
    · rw [answer_binary_plain s hop, answer_binary_plain s' hop]
      apply gives_bind ihl
      intro a
      exact gives_bind ihr fun b => gives_refl _
    · rw [answer_binary_logical s hop, answer_binary_logical s' hop]
      apply gives_bind ihl
      intro a
      apply gives_bind (gives_refl _)
      intro test
      split
      · exact gives_refl _
      · exact gives_bind ihr fun b => gives_refl _
  | conditional test consequent alternate iht ihc iha =>
    rw [answer_conditional, answer_conditional]
    apply gives_bind iht
    intro value
    apply gives_bind (gives_refl _)
    intro holds
    apply gives_bind (gives_of_eq (answer_note_eq t _ s s'))
    intro _
    split
    · exact ihc
    · exact iha
  | arrayLiteral elements ih =>
    rw [answer_arrayLiteral, answer_arrayLiteral]
    exact gives_bind (gives_evaluateAll ih) fun values => gives_refl _
  | subscript array index iha ihi =>
    rw [answer_subscript, answer_subscript]
    apply gives_bind iha
    intro target
    exact gives_bind ihi fun position => gives_refl _
  | call callee args ih =>
    rw [answer_call, answer_call]
    apply gives_bind (gives_getFunction hw callee)
    intro f
    exact gives_bind (gives_evaluateAll ih) fun values => hcall f values
  | _ => exact gives_refl _

theorem gives_invoke (hw : s.Within s') (depth : Nat) (f : Function) (args : List Value) :
    Gives ((invoke t depth f args).answer s) ((invoke t depth f args).answer s') := by
  induction depth generalizing s s' f args with
  | zero => exact gives_refl _
  | succ depth ih =>
    rw [answer_invoke_succ, answer_invoke_succ]
    apply gives_bind (gives_refl _)
    intro _
    apply gives_bind (gives_of_eq (answer_note_eq t _ s s'))
    intro _
    refine gives_bind ?_ fun result => gives_bind (gives_of_eq (answer_note_eq t _ s s')) fun _ =>
      gives_refl _
    rcases hframe : Scope.bindAll [] f.params args with e | frame
    · rw [enter_of_bindAll_error hframe, enter_of_bindAll_error hframe]
      exact gives_refl _
    · rw [enter_of_bindAll hframe, enter_of_bindAll hframe]
      exact gives_evaluate_of_calls (hw.push frame) (ih (hw.push frame)) f.body

theorem gives_evaluate (hw : s.Within s') (depth : Nat) (node : Node) :
    Gives ((evaluate t depth node).answer s) ((evaluate t depth node).answer s') :=
  gives_evaluate_of_calls hw (gives_invoke hw depth) node

end within

/-! ## Scopes in another order -/

namespace Scope

variable {scope scope' extra : Scope} {key : Key}

/-- The keys of the names, in their order. -/
def keys (scope : Scope) : List (Option Key) := scope.map (·.1.key?)

/-- In a scope without repeated names two neighbours are found, or bound, in either order. -/
theorem find?_of_perm (hp : scope'.Perm scope) (hn : scope.keys.Nodup) :
    scope'.find? key = scope.find? key := by
  induction hp with
  | nil => rfl
  | cons b _ ih => rw [find?, find?, ih (List.nodup_cons.1 hn).2]
  | swap b b' rest =>
    have hne : b.1.key? ≠ b'.1.key? := fun h => (List.nodup_cons.1 hn).1 (by simp [h])
    by_cases hb : b.1.key? = some key
    · simp [find?, hb, hb ▸ hne.symm]
    · simp [find?, hb]
  | trans hp₁ hp₂ ih₁ ih₂ => rw [ih₁ ((hp₂.map _).nodup_iff.2 hn), ih₂ hn]

theorem bind_perm (hp : scope'.Perm scope) (hn : scope.keys.Nodup) (name : Json) (v : Value) :
    (scope'.bind key name v).Perm (scope.bind key name v) := by
  induction hp with
  | nil => exact .refl _
  | cons b hp ih =>
    rw [bind, bind]
    split
    · exact hp.cons _
    · exact (ih (List.nodup_cons.1 hn).2).cons _
  | swap b b' rest =>
    have hne : b.1.key? ≠ b'.1.key? := fun h => (List.nodup_cons.1 hn).1 (by simp [h])
    by_cases hb : b.1.key? = some key
    · simpa [bind, hb, hb ▸ hne.symm] using List.Perm.swap _ _ _
    · by_cases hb' : b'.1.key? = some key
      · simpa [bind, hb, hb'] using List.Perm.swap _ _ _
      · simpa [bind, hb, hb'] using List.Perm.swap _ _ _
  | trans hp₁ hp₂ ih₁ ih₂ => exact (ih₁ ((hp₂.map _).nodup_iff.2 hn)).trans (ih₂ hn)

theorem bind_append (h : extra.find? key = none) (name : Json) (v : Value) :
    bind key name v (extra ++ scope) = extra ++ scope.bind key name v := by
  induction extra with
  | nil => rfl
  | cons b extra ih =>
    rw [find?] at h
    split at h
    · cases h
    · rename_i hk
      rw [List.cons_append, bind, if_neg hk, ih h]
      rfl

end Scope

/-! ## Two states side by side -/

/-- No name of the store is one of the extra names, and no name is repeated. -/
def Store.Apart (extra : Scope) (s : Store) : Prop := (Scope.keys (extra ++ s.globals)).Nodup

/-- The second state has some extra globals, and is the first one but for the order of globals. -/
structure Beside (extra : Scope) (m m' : Machine) : Prop where
  globals : m'.store.globals.Perm (extra ++ m.store.globals)
  apart : m.store.Apart extra
  frames : m'.store.frames = m.store.frames
  printed : m'.printed = m.printed

section beside

variable {extra : Scope} {m m' : Machine} {s s' : Store} {key : Key}

theorem Store.Apart.of_names (h : s'.Apart extra) (hnames : s.names <+: s'.names) :
    s.Apart extra := by
  have hkeys : ∀ s : Store, Scope.keys (extra ++ s.globals) =
      extra.keys ++ s.names.map Json.key? := by
    intro s
    simp [Scope.keys, Store.names]
  rw [Store.Apart, hkeys] at h ⊢
  exact h.sublist ((hnames.map _).sublist.append_left _)

theorem Beside.find?_eq (h : Beside extra m m') :
    m'.store.globals.find? key = (extra.find? key).or (m.store.globals.find? key) := by
  rw [Scope.find?_of_perm h.globals h.apart, Scope.find?_append]

/-- A name that the first state binds is no extra one. -/
theorem Store.Apart.find?_extra (h : s.Apart extra) {v : Value}
    (hv : s.globals.find? key = some v) : extra.find? key = none := by
  rw [Scope.find?_eq_none_iff]
  intro hmem
  have hbound : some key ∈ s.globals.map (·.1.key?) := by
    by_contra hnot
    rw [Scope.find?_eq_none_iff.2 hnot] at hv
    cases hv
  rw [Store.Apart, Scope.keys, List.map_append, List.nodup_append] at h
  exact h.2.2 _ hmem _ hbound rfl

theorem Beside.within (h : Beside extra m m') : m.store.Within m'.store := by
  refine ⟨fun key v hv => ?_, h.frames⟩
  rw [h.find?_eq, h.apart.find?_extra hv, hv]
  rfl

end beside

/-! ## What a store becomes -/

section operations

variable {s s' : Store} {name : Json}

theorem declareVariable_eq_ok {v : Value} :
    s.declareVariable name v = .ok s' ↔
      ∃ key, name.key? = some key ∧ s.globals.find? key = none ∧
        s' = { s with globals := s.globals ++ [(name, v)] } := by
  simp only [Store.declareVariable, bind_eq_ok, keyOf_eq_ok]
  refine exists_congr fun key => and_congr_right fun _ => ?_
  rcases s.globals.find? key with _ | w
  · simp [pure_eq_ok, @eq_comm _ s']
  · simp

theorem assign_eq_ok {v : Value} :
    s.assign name v = .ok s' ↔
      ∃ key old, name.key? = some key ∧ s.globals.find? key = some old ∧ old.IsData ∧
        s' = { s with globals := s.globals.bind key name v } := by
  simp only [Store.assign, bind_eq_ok, keyOf_eq_ok]
  refine exists_congr fun key => ?_
  rcases s.globals.find? key with _ | w
  · simp
  · cases w <;> simp [pure_eq_ok, @eq_comm _ s', Value.IsData]

theorem declareFunction_eq_ok {params : List Json} {body : Node} :
    (s.declareFunction name params body).map (·.2) = .ok s' ↔
      ∃ key, name.key? = some key ∧ s.globals.find? key = none ∧
        Store.checkParams name [] params = .ok () ∧
        s' = { s with globals := s.globals ++ [(name, .function ⟨name, params, body⟩)] } := by
  simp only [Store.declareFunction, map_eq_ok, bind_eq_ok, keyOf_eq_ok]
  constructor
  · rintro ⟨⟨f, s''⟩, ⟨key, hkey, h⟩, rfl⟩
    rcases hf : s.globals.find? key with _ | w
    · rw [hf] at h
      obtain ⟨_, hp, h⟩ := bind_eq_ok.1 h
      cases h
      exact ⟨key, hkey, hf, hp, rfl⟩
    · rw [hf] at h
      cases h
  · rintro ⟨key, hkey, hf, hp, rfl⟩
    refine ⟨(⟨name, params, body⟩, _), ⟨key, hkey, ?_⟩, rfl⟩
    rw [hf]
    exact bind_eq_ok.2 ⟨(), hp, rfl⟩

end operations

/-! ## Actions beside some extra names -/

/-- An action that ends well has only added names. If the names after it are apart from some extra
ones, it ends just so when these are there. -/
structure Hoists (extra : Scope) {α : Type} (act : Action α) : Prop where
  grows : ∀ m m₁ a, act m = (.ok a, m₁) → m.store.names <+: m₁.store.names
  moves : ∀ m m' m₁ a, Beside extra m m' → act m = (.ok a, m₁) → m₁.store.Apart extra →
    ∃ m₁', act m' = (.ok a, m₁') ∧ Beside extra m₁ m₁'

section actions

variable {α β : Type} {extra : Scope}

theorem bind_eq_ok_iff {x : Action α} {f : α → Action β} {m m₁ : Machine} {b : β} :
    (x >>= f) m = (.ok b, m₁) ↔ ∃ a m₂, x m = (.ok a, m₂) ∧ f a m₂ = (.ok b, m₁) := by
  constructor
  · intro h
    rcases hx : x m with ⟨e | a, m₂⟩
    · rw [bind_error hx] at h
      cases h
    · rw [bind_ok hx] at h
      exact ⟨a, m₂, rfl, h⟩
  · rintro ⟨a, m₂, hx, hf⟩
    exact (bind_ok hx).trans hf

theorem hoists_bind {x : Action α} {f : α → Action β} (hx : Hoists extra x)
    (hf : ∀ a, Hoists extra (f a)) : Hoists extra (x >>= f) := by
  constructor
  · intro m m₁ b h
    obtain ⟨a, m₂, hfirst, hnext⟩ := bind_eq_ok_iff.1 h
    exact (hx.grows _ _ _ hfirst).trans ((hf a).grows _ _ _ hnext)
  · intro m m' m₁ b hm h hapart
    obtain ⟨a, m₂, hfirst, hnext⟩ := bind_eq_ok_iff.1 h
    -- Names are only added, so in between they were apart as well.
    have hapart₂ := hapart.of_names ((hf a).grows _ _ _ hnext)
    obtain ⟨m₂', hfirst', hm₂⟩ := hx.moves _ _ _ _ hm hfirst hapart₂
    obtain ⟨m₁', hnext', hm₁⟩ := (hf a).moves _ _ _ _ hm₂ hnext hapart
    exact ⟨m₁', bind_eq_ok_iff.2 ⟨a, m₂', hfirst', hnext'⟩, hm₁⟩

theorem hoists_looks {act : Action α} (hl : Looks act)
    (hg : ∀ s s' : Store, s.Within s' → Gives (act.answer s) (act.answer s')) :
    Hoists extra act := by
  have hsame : ∀ {m m₁ : Machine} {a : α}, act m = (.ok a, m₁) →
      m₁.store = m.store ∧ m₁.printed = m.printed := by
    intro m m₁ a h
    have hstore := hl.store_eq m
    have hprinted := hl.printed_eq m
    rw [h] at hstore hprinted
    exact ⟨hstore, hprinted⟩
  constructor
  · intro m m₁ a h
    exact (hsame h).1 ▸ List.prefix_rfl
  · intro m m' m₁ a hm h _
    have hanswer : act.answer m.store = .ok a := by rw [← hl.fst_eq m, h]
    have hresult : (act m').1 = .ok a := (hl.fst_eq m').trans (hg _ _ hm.within a hanswer)
    have h' : act m' = (.ok a, (act m').2) := Prod.ext hresult rfl
    obtain ⟨hstore, hprinted⟩ := hsame h
    obtain ⟨hstore', hprinted'⟩ := hsame h'
    refine ⟨_, h', ?_, ?_, ?_, ?_⟩
    · rw [hstore, hstore']
      exact hm.globals
    · rw [hstore]
      exact hm.apart
    · rw [hstore, hstore']
      exact hm.frames
    · rw [hprinted, hprinted']
      exact hm.printed

/-- An action whose answer is no matter of the store. -/
theorem hoists_steady {act : Action α} (hl : Looks act)
    (h : ∀ s s' : Store, act.answer s = act.answer s') : Hoists extra act :=
  hoists_looks hl fun s s' _ => gives_of_eq (h s s')

theorem hoists_pure (a : α) : Hoists extra (pure a : Action α) :=
  hoists_steady (looks_pure a) fun _ _ => rfl

theorem hoists_stop (e : Stop) : Hoists extra (stop e : Action α) :=
  hoists_steady (looks_stop e) fun _ _ => rfl

theorem hoists_note (t : Tracing) (n : Note) : Hoists extra (note t n) :=
  hoists_steady (looks_note t n) (answer_note_eq t n)

theorem hoists_evaluate (t : Tracing) (depth : Nat) (node : Node) :
    Hoists extra (evaluate t depth node) :=
  hoists_looks (looks_evaluate depth node) fun _ _ hw => gives_evaluate hw depth node

theorem hoists_loopTest (s : Settings) (test : Node) : Hoists extra (loopTest s test) := by
  apply hoists_looks (looks_loopTest s test)
  intro store store' hw
  rw [answer_loopTest, answer_loopTest]
  exact gives_bind (gives_evaluate hw s.depth test) fun value => gives_refl _

theorem hoists_print (line : Text) : Hoists extra (record (.printed line)) := by
  constructor
  · intro m m₁ a h
    cases h
    exact List.prefix_rfl
  · intro m m' m₁ a hm h hapart
    cases h
    refine ⟨_, rfl, hm.globals, hapart, hm.frames, ?_⟩
    have hprinted := hm.printed
    simp only [Machine.printed, List.filterMap_cons, Event.printed?, List.reverse_cons]
      at hprinted ⊢
    rw [hprinted]

theorem update_eq_ok {g : Store → Except Stop Store} {m m₁ : Machine} {u : Unit} :
    update g m = (.ok u, m₁) ↔ ∃ s₁, g m.store = .ok s₁ ∧ m₁ = { m with store := s₁ } := by
  unfold update
  constructor
  · intro h
    split at h
    · rename_i s₁ hg
      cases h
      exact ⟨s₁, hg, rfl⟩
    · cases h
  · rintro ⟨s₁, hg, rfl⟩
    rw [hg]

/-- A change of the globals alone, given what it does to globals in another order and among extra
ones. -/
theorem hoists_update {g : Store → Except Stop Store}
    (hgrows : ∀ s s₁, g s = .ok s₁ → s.names <+: s₁.names ∧ s₁.frames = s.frames)
    (hmoves : ∀ s s' s₁ : Store, s'.globals.Perm (extra ++ s.globals) → s.Apart extra →
      g s = .ok s₁ → s₁.Apart extra →
      ∃ s₁', g s' = .ok s₁' ∧ s₁'.globals.Perm (extra ++ s₁.globals)) :
    Hoists extra (update g) := by
  constructor
  · intro m m₁ u h
    obtain ⟨s₁, hg, rfl⟩ := update_eq_ok.1 h
    exact (hgrows _ _ hg).1
  · intro m m' m₁ u hm h hapart
    obtain ⟨s₁, hg, rfl⟩ := update_eq_ok.1 h
    obtain ⟨s₁', hg', hperm⟩ := hmoves _ _ _ hm.globals hm.apart hg hapart
    refine ⟨{ m' with store := s₁' }, update_eq_ok.2 ⟨s₁', hg', rfl⟩, hperm, hapart, ?_,
      hm.printed⟩
    change s₁'.frames = s₁.frames
    rw [(hgrows _ _ hg).2, (hgrows _ _ hg').2, hm.frames]

/-- A name that is new beside the extra names is new among them. -/
theorem find?_of_apart {s s' : Store} {name : Json} {key : Key} {v : Value}
    (hp : s'.globals.Perm (extra ++ s.globals)) (hkey : name.key? = some key)
    (h : Store.Apart extra { s with globals := s.globals ++ [(name, v)] }) :
    s'.globals.find? key = none := by
  rw [Store.Apart, ← List.append_assoc, Scope.keys, List.map_append, List.nodup_append] at h
  obtain ⟨hn, -, hnew⟩ := h
  rw [Scope.find?_of_perm hp hn, Scope.find?_eq_none_iff]
  intro hmem
  exact hnew _ hmem (some key) (by simp [hkey]) rfl

theorem perm_append {s s' : Store} (hp : s'.globals.Perm (extra ++ s.globals)) (b : Json × Value) :
    (s'.globals ++ [b]).Perm (extra ++ (s.globals ++ [b])) := by
  rw [← List.append_assoc]
  exact hp.append_right [b]

theorem hoists_declareVariable (name : Json) (v : Value) :
    Hoists extra (update (·.declareVariable name v)) := by
  apply hoists_update
  · intro s s₁ h
    obtain ⟨key, _, _, rfl⟩ := declareVariable_eq_ok.1 h
    exact ⟨(grows_append name v).names, rfl⟩
  · intro s s' s₁ hp _ h hapart
    obtain ⟨key, hkey, _, rfl⟩ := declareVariable_eq_ok.1 h
    have hfree := find?_of_apart hp hkey hapart
    exact ⟨_, declareVariable_eq_ok.2 ⟨key, hkey, hfree, rfl⟩, perm_append hp _⟩

theorem hoists_declareFunction (name : Json) (params : List Json) (body : Node) :
    Hoists extra (update fun s => (s.declareFunction name params body).map (·.2)) := by
  apply hoists_update
  · intro s s₁ h
    obtain ⟨key, _, _, _, rfl⟩ := declareFunction_eq_ok.1 h
    exact ⟨(grows_append name _).names, rfl⟩
  · intro s s' s₁ hp _ h hapart
    obtain ⟨key, hkey, _, hparams, rfl⟩ := declareFunction_eq_ok.1 h
    have hfree := find?_of_apart hp hkey hapart
    exact ⟨_, declareFunction_eq_ok.2 ⟨key, hkey, hfree, hparams, rfl⟩, perm_append hp _⟩

theorem hoists_assign (name : Json) (v : Value) : Hoists extra (update (·.assign name v)) := by
  apply hoists_update
  · intro s s₁ h
    obtain ⟨key, old, _, hbound, _, rfl⟩ := assign_eq_ok.1 h
    exact ⟨names_bind hbound name v ▸ List.prefix_rfl, rfl⟩
  · intro s s' s₁ hp hapart h _
    obtain ⟨key, old, hkey, hbound, hold, rfl⟩ := assign_eq_ok.1 h
    have hextra := hapart.find?_extra hbound
    have hbound' : s'.globals.find? key = some old := by
      rw [Scope.find?_of_perm hp hapart, Scope.find?_append, hextra, hbound]
      rfl
    refine ⟨_, assign_eq_ok.2 ⟨key, old, hkey, hbound', hold, rfl⟩, ?_⟩
    change (s'.globals.bind key name v).Perm (extra ++ s.globals.bind key name v)
    rw [← Scope.bind_append hextra]
    exact Scope.bind_perm hp hapart name v

end actions

/-! ## Statements beside some extra names -/

section statements

variable {extra : Scope} {s : Settings}

theorem hoists_repeatWhile {test : Action Bool} {body : Action Unit} (ht : Hoists extra test)
    (hb : Hoists extra body) (rounds : Nat) : Hoists extra (repeatWhile rounds test body) := by
  induction rounds with
  | zero => exact hoists_stop _
  | succ rounds ih =>
    rw [repeatWhile]
    apply hoists_bind ht
    intro holds
    split
    · exact hoists_bind hb fun _ => ih
    · exact hoists_pure ()

theorem hoists_executeAll {nodes : List Node} (h : ∀ node ∈ nodes, Hoists extra (execute s node)) :
    Hoists extra (executeAll s nodes) := by
  induction nodes with
  | nil =>
    rw [executeAll]
    exact hoists_pure ()
  | cons node nodes ih =>
    rw [executeAll]
    exact hoists_bind (h node (by simp)) fun _ => ih fun n hn => h n (by simp [hn])

theorem hoists_functionDeclaration (name : Json) (params : List Json) (body : Node) :
    Hoists extra (execute s (.functionDeclaration name params body)) := by
  rw [execute]
  exact hoists_bind (hoists_declareFunction name params body) fun _ =>
    hoists_steady (looks_noteDefined _ name params) (answer_noteDefined_eq _ name params)

theorem hoists_execute (s : Settings) (node : Node) :
    Hoists extra (execute s node) ∧ Hoists extra (executeBlock s node) := by
  induction node with
  | block statements ih =>
    simp only [execute, executeBlock]
    exact ⟨hoists_stop _, hoists_executeAll fun n hn => (ih n hn).1⟩
  | variableDeclaration name expr =>
    simp only [execute, executeBlock]
    refine ⟨?_, hoists_stop _⟩
    apply hoists_bind (hoists_evaluate _ _ expr)
    intro value
    exact hoists_bind (hoists_declareVariable name value) fun _ => hoists_note _ _
  | functionDeclaration name params body =>
    exact ⟨hoists_functionDeclaration name params body, hoists_stop _⟩
  | assignment name expr =>
    simp only [execute, executeBlock]
    refine ⟨?_, hoists_stop _⟩
    apply hoists_bind (hoists_evaluate _ _ expr)
    intro value
    exact hoists_bind (hoists_assign name value) fun _ => hoists_note _ _
  | printStatement expr =>
    simp only [execute, executeBlock]
    exact ⟨hoists_bind (hoists_evaluate _ _ expr) fun value => hoists_print _, hoists_stop _⟩
  | whileStatement test body _ ihb =>
    simp only [execute, executeBlock]
    exact ⟨hoists_repeatWhile (hoists_loopTest s test) ihb.2 s.rounds, hoists_stop _⟩
  | _ =>
    simp only [execute, executeBlock]
    exact ⟨hoists_stop _, hoists_stop _⟩

/-- Statements in a row, beside any extra names. -/
theorem hoists_row (s : Settings) (nodes : List Node) : Hoists extra (executeAll s nodes) :=
  hoists_executeAll fun n _ => (hoists_execute s n).1

end statements

/-! ## Moving a declaration -/

section moving

variable {s : Settings} {m m₁ m₂ : Machine} {name : Json} {params : List Json} {body : Node}
  {before mid after : List Node}

theorem names_of_executeAll {nodes : List Node} (h : executeAll s nodes m = (.ok (), m₁)) :
    m.store.names <+: m₁.store.names := by
  have hrow : Hoists [] (executeAll s nodes) := hoists_row s nodes
  exact hrow.grows _ _ _ h

/-- What a function declaration that ends well has done. -/
theorem declares_of_execute
    (h : execute s (.functionDeclaration name params body) m = (.ok (), m₁)) :
    m₁.store.globals = m.store.globals ++ [(name, .function ⟨name, params, body⟩)] ∧
      m₁.store.frames = m.store.frames ∧ m₁.printed = m.printed := by
  rw [execute] at h
  obtain ⟨u, m₂, hfirst, hnext⟩ := bind_eq_ok_iff.1 h
  have hnote := agrees_of_looks (looks_noteDefined s.toTracing name params) m₂
  rw [hnext] at hnote
  rw [hnote.store, hnote.printed]
  obtain ⟨s₁, hdeclare, rfl⟩ := update_eq_ok.1 hfirst
  obtain ⟨key, _, _, _, rfl⟩ := declareFunction_eq_ok.1 hdeclare
  exact ⟨rfl, rfl, rfl⟩

/-- A function that can be declared can be declared where fewer names are bound. -/
theorem execute_functionDeclaration_of_names
    (h : execute s (.functionDeclaration name params body) m = (.ok (), m₁))
    (hnames : m₂.store.names <+: m.store.names) :
    ∃ m₃, execute s (.functionDeclaration name params body) m₂ = (.ok (), m₃) := by
  rw [execute] at h ⊢
  obtain ⟨u, m', hfirst, hnext⟩ := bind_eq_ok_iff.1 h
  obtain ⟨s₁, hdeclare, rfl⟩ := update_eq_ok.1 hfirst
  obtain ⟨key, hkey, hfree, hparams, rfl⟩ := declareFunction_eq_ok.1 hdeclare
  have hfree₂ : m₂.store.globals.find? key = none := by
    have hkeys := (hnames.map Json.key?).subset
    simp only [Store.names, List.map_map] at hkeys
    rw [Scope.find?_eq_none_iff] at hfree ⊢
    exact fun hmem => hfree (hkeys hmem)
  have hdeclare₂ : (m₂.store.declareFunction name params body).map (·.2) = .ok _ :=
    declareFunction_eq_ok.2 ⟨key, hkey, hfree₂, hparams, rfl⟩
  have hfirst₂ : update (fun store => (store.declareFunction name params body).map (·.2)) m₂ =
      (.ok (), _) := update_eq_ok.2 ⟨_, hdeclare₂, rfl⟩
  have hl := looks_noteDefined s.toTracing name params
  have hanswer : ∀ store, (noteDefined s.toTracing name params).answer store = .ok () := by
    intro store
    rw [answer_noteDefined_eq _ _ _ store _, ← hl.fst_eq, hnext]
  refine ⟨_, (bind_ok hfirst₂).trans (Prod.ext ?_ rfl)⟩
  rw [hl.fst_eq, hanswer]

/-- The statements between go through beside the function, and those after it with it in another
place. -/
theorem executeAll_moved
    (h : executeAll s (before ++ (mid ++ .functionDeclaration name params body :: after)) m =
      (.ok (), m₁))
    (hdistinct : m₁.store.Apart []) :
    ∃ m₁', executeAll s (before ++ .functionDeclaration name params body :: (mid ++ after)) m =
      (.ok (), m₁') ∧ Beside [] m₁ m₁' := by
  rw [executeAll_append] at h
  obtain ⟨_, n₁, hbefore, h⟩ := bind_eq_ok_iff.1 h
  rw [executeAll_append] at h
  obtain ⟨_, n₂, hmid, h⟩ := bind_eq_ok_iff.1 h
  rw [executeAll] at h
  obtain ⟨_, n₃, hdeclaration, hafter⟩ := bind_eq_ok_iff.1 h
  obtain ⟨hglobals₃, hframes₃, hprinted₃⟩ := declares_of_execute hdeclaration
  -- The names on the way are among those at the end, so they are not repeated either.
  have hapart₃ := hdistinct.of_names (names_of_executeAll hafter)
  let b : Json × Value := (name, .function ⟨name, params, body⟩)
  have hperm₃ : List.Perm ([b] ++ n₂.store.globals) n₃.store.globals :=
    hglobals₃ ▸ List.perm_append_comm
  have hapart₂ : n₂.store.Apart [b] := (hperm₃.map _).nodup_iff.2 hapart₃
  have hnames := names_of_executeAll hmid
  obtain ⟨n₁', hmoved⟩ := execute_functionDeclaration_of_names hdeclaration hnames
  obtain ⟨hglobals₁, hframes₁, hprinted₁⟩ := declares_of_execute hmoved
  have hbeside₁ : Beside [b] n₁ n₁' :=
    ⟨hglobals₁ ▸ List.perm_append_comm, hapart₂.of_names hnames, hframes₁, hprinted₁⟩
  obtain ⟨n₂', hmid', hbeside₂⟩ := (hoists_row s mid).moves _ _ _ _ hbeside₁ hmid hapart₂
  have hbeside₃ : Beside [] n₃ n₂' :=
    ⟨hbeside₂.globals.trans hperm₃, hapart₃, hbeside₂.frames.trans hframes₃.symm,
      hbeside₂.printed.trans hprinted₃.symm⟩
  obtain ⟨m₁', hafter', hbeside⟩ := (hoists_row s after).moves _ _ _ _ hbeside₃ hafter hdistinct
  refine ⟨m₁', ?_, hbeside⟩
  rw [executeAll_append, executeAll, executeAll_append]
  exact bind_eq_ok_iff.2 ⟨_, _, hbefore, bind_eq_ok_iff.2 ⟨_, _, hmoved,
    bind_eq_ok_iff.2 ⟨_, _, hmid', hafter'⟩⟩⟩

theorem distinct_of_run (s : Settings) (program : Node) :
    (run s program).2.store.Apart [] := by
  obtain ⟨ops, _, _, hstore, _⟩ := run_enacts s program
  have horderly : (run s program).2.store.Orderly := hstore ▸ orderly_afterAll orderly_empty ops
  have hkeys := horderly.distinct
  rwa [Store.names, List.map_map] at hkeys

end moving

/-- A function may be declared anywhere earlier. If a run ends well, then with one of the function
declarations among its statements moved to an earlier place it ends well, prints the same lines and
leaves the same bindings in some order, with no other frames. -/
theorem a_function_may_be_declared_earlier (s : Settings) (before mid after : List Node)
    (name : Json) (params : List Json) (body : Node) :
    let declaration : Node := .functionDeclaration name params body
    let ended := run s (.program (.block (before ++ mid ++ declaration :: after)))
    let moved := run s (.program (.block (before ++ declaration :: mid ++ after)))
    ended.1 = .ok () →
      moved.1 = .ok () ∧ moved.2.printed = ended.2.printed ∧
        moved.2.store.globals.Perm ended.2.store.globals ∧
        moved.2.store.frames = ended.2.store.frames := by
  intro declaration ended moved hok
  have hended : Alike ended
      (executeAll s (before ++ (mid ++ declaration :: after)) .start) := by
    rw [← List.append_assoc]
    exact alike_executeAll s _
  have hmoved : Alike moved (executeAll s (before ++ declaration :: (mid ++ after)) .start) := by
    rw [← List.cons_append, ← List.append_assoc]
    exact alike_executeAll s _
  rcases hrow : executeAll s (before ++ (mid ++ declaration :: after)) .start with ⟨result, m₁⟩
  rw [hrow] at hended
  obtain rfl : result = .ok () := hended.result.symm.trans hok
  have hdistinct : m₁.store.Apart [] := by
    have h := distinct_of_run s (.program (.block (before ++ mid ++ declaration :: after)))
    rw [Store.Apart, hended.globals] at h
    exact h
  obtain ⟨m₁', hrow', hbeside⟩ := executeAll_moved hrow hdistinct
  rw [hrow'] at hmoved
  refine ⟨hmoved.result, ?_, ?_, ?_⟩
  · rw [hmoved.printed, hended.printed, hbeside.printed]
  · rw [hmoved.globals, hended.globals]
    exact hbeside.globals
  · rw [hmoved.frames, hended.frames, hbeside.frames]

/-- The function is named in a loop before its declaration, but not called there. Declared first, it
comes before the variable of the loop among the globals. -/
theorem a_function_may_be_declared_earlier_than_a_loop :
    let n : Node := .identifier (.str "n")
    let loop : Node := .whileStatement (.binary (.str "<") n (.numeral 3)) (.block
      [.printStatement (.conditional (.binary (.str "<") n (.numeral 5)) n (.call (.str "f") [n])),
        .assignment (.str "n") (.binary (.str "+") n (.numeral 1))])
    let mid : List Node := [.variableDeclaration (.str "n") (.numeral 1), loop]
    let f : Node := .functionDeclaration (.str "f") [.str "k"]
      (.binary (.str "+") (.identifier (.str "k")) n)
    let after : List Node := [.printStatement (.call (.str "f") [.numeral 4])]
    let s : Settings := ⟨{}, 1, 9⟩
    let ended := run s (.program (.block ([] ++ mid ++ f :: after)))
    let moved := run s (.program (.block ([] ++ f :: mid ++ after)))
    ended.1 = .ok () ∧ ended.2.printed = ["1", "2", "7"].map Text.ofString ∧
      ended.2.store.names.map (·.key?) = [some (.text "n"), some (.text "f")] ∧
      moved.2.store.names.map (·.key?) = [some (.text "f"), some (.text "n")] ∧
      moved.1 = .ok () ∧ moved.2.printed = ended.2.printed ∧
      moved.2.store.globals.Perm ended.2.store.globals ∧
      moved.2.store.frames = ended.2.store.frames := by
  intro n loop mid f after s ended moved
  have hok : ended.1 = .ok () := by
    with_unfolding_all rfl
  exact ⟨hok, by decide +kernel, by decide +kernel, by decide +kernel,
    a_function_may_be_declared_earlier s [] mid after _ _ _ hok⟩

end BellaLang
