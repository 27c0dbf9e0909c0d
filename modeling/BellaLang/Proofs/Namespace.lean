-- The namespace as a state machine. Whatever operations are performed on a store,
-- names are only added, at the end; a function stays the function it is, a variable
-- stays a variable, and calls that have ended leave nothing behind.
import BellaLang.Proofs.Sight
import BellaLang.Proofs.Views

namespace BellaLang

/-! ## Scopes -/

namespace Scope

variable {scope : Scope} {key : Key} {name : Json} {v old : Value}

theorem find?_append (scope scope' : Scope) (key : Key) :
    find? key (scope ++ scope') = (scope.find? key).or (scope'.find? key) := by
  fun_induction Scope.find? key scope with
  | case1 => rfl
  | case2 name value rest hk => simp [find?, hk]
  | case3 name value rest hk ih => simpa [find?, hk] using ih

theorem find?_eq_none_iff : scope.find? key = none ↔ some key ∉ scope.map (·.1.key?) := by
  fun_induction Scope.find? key scope with
  | case1 => simp
  | case2 name value rest hk => simp [hk]
  | case3 name value rest hk ih => simp [ih, Ne.symm hk]

/-- Binding a name that is bound replaces its value where it stands. -/
theorem bind_of_find? (name : Json) (v : Value) (h : scope.find? key = some old) :
    ∃ before bound after, scope = before ++ (bound, old) :: after ∧ bound.key? = some key ∧
      scope.bind key name v = before ++ (bound, v) :: after := by
  fun_induction Scope.bind key name v scope with
  | case1 => cases h
  | case2 bound value rest hk =>
    rw [find?, if_pos hk] at h
    cases h
    exact ⟨[], bound, rest, rfl, hk, rfl⟩
  | case3 bound value rest hk ih =>
    rw [find?, if_neg hk] at h
    obtain ⟨before, bound', after, rfl, hbound, hbind⟩ := ih h
    exact ⟨(bound, value) :: before, bound', after, rfl, hbound, by rw [hbind]; rfl⟩

end Scope

/-! ## Operations -/

/-- A value that is no function. -/
def Value.IsData (v : Value) : Prop := ∀ f, v ≠ .function f

theorem Value.Plain.isData {v : Value} (h : v.Plain) : v.IsData := by
  rintro f rfl
  exact not_plain_function f h

/-- What may be done to a namespace. -/
inductive Operation where
  | declareVariable (name : Json) (value : Value)
  | declareFunction (name : Json) (params : List Json) (body : Node)
  | assign (name : Json) (value : Value)
  | get (name : Json)
  | getFunction (name : Json)
  /-- A call begins. -/
  | push (f : Function) (args : List Value)
  /-- The innermost call ends, with a value or without one. -/
  | pop

namespace Operation

/-- The store after an operation, unless it fails. -/
def effect : Operation → Store → Except Stop Store
  | declareVariable name value, s => s.declareVariable name value
  | declareFunction name params body, s => (s.declareFunction name params body).map (·.2)
  | assign name value, s => s.assign name value
  | get name, s => (s.get name).map fun _ => s
  | getFunction name, s => (s.getFunction name).map fun _ => s
  | push f args, s => s.enter f args
  | pop, s => .ok s.leave

/-- The operation as a step of a run. -/
def act (op : Operation) : Action Unit := Action.update op.effect

/-- The name that an operation declares or assigns. -/
def target? : Operation → Option Json
  | declareVariable name _ => some name
  | declareFunction name _ _ => some name
  | assign name _ => some name
  | _ => none

/-- The value that an operation gives to a variable, if it gives one, is no function. -/
def CarriesData : Operation → Prop
  | declareVariable _ value => value.IsData
  | assign _ value => value.IsData
  | _ => True

end Operation

/-- The store that an operation leaves, whether it fails or not. -/
def Store.after (s : Store) (op : Operation) : Store := (op.act ⟨s, []⟩).2.store

/-- The store after some operations. -/
def Store.afterAll (s : Store) (ops : List Operation) : Store := ops.foldl Store.after s

section performing

variable {s s' : Store} {op : Operation} {e : Stop}

theorem after_of_ok (h : op.effect s = .ok s') : s.after op = s' := by
  simp only [Store.after, Operation.act, Action.update, h]

theorem after_of_error (h : op.effect s = .error e) : s.after op = s := by
  simp only [Store.after, Operation.act, Action.update, h]

theorem store_of_act (op : Operation) (m : Machine) : (op.act m).2.store = m.store.after op := by
  rcases h : op.effect m.store with e | s'
  · rw [after_of_error h]
    simp only [Operation.act, Action.update, h]
  · rw [after_of_ok h]
    simp only [Operation.act, Action.update, h]

/-- An operation that fails leaves everything as it was. -/
theorem act_of_error {m : Machine} (h : (op.act m).1 = .error e) : (op.act m).2 = m := by
  rcases hop : op.effect m.store with e | s'
  · simp only [Operation.act, Action.update, hop]
  · simp only [Operation.act, Action.update, hop] at h
    cases h

theorem afterAll_cons (s : Store) (op : Operation) (ops : List Operation) :
    s.afterAll (op :: ops) = (s.after op).afterAll ops := rfl

theorem afterAll_append (s : Store) (ops ops' : List Operation) :
    s.afterAll (ops ++ ops') = (s.afterAll ops).afterAll ops' := List.foldl_append

end performing

/-! ## What an operation changes -/

/-- What an operation that succeeds does to a store. -/
inductive Changes (s : Store) : Operation → Store → Prop
  | declareVariable {name : Json} {key : Key} {value : Value} (hkey : name.key? = some key)
      (hfree : s.globals.find? key = none) :
      Changes s (.declareVariable name value) { s with globals := s.globals ++ [(name, value)] }
  | declareFunction {name : Json} {key : Key} {params : List Json} {body : Node}
      (hkey : name.key? = some key) (hfree : s.globals.find? key = none) :
      Changes s (.declareFunction name params body)
        { s with globals := s.globals ++ [(name, .function ⟨name, params, body⟩)] }
  | assign {name : Json} {key : Key} {value old : Value} (hkey : name.key? = some key)
      (hbound : s.globals.find? key = some old) (hold : old.IsData) :
      Changes s (.assign name value) { s with globals := s.globals.bind key name value }
  | get {name : Json} : Changes s (.get name) s
  | getFunction {name : Json} : Changes s (.getFunction name) s
  | push {f : Function} {args : List Value} {frame : Scope} :
      Changes s (.push f args) { s with frames := frame :: s.frames }
  | pop : Changes s .pop s.leave

theorem changes_of_effect {s s' : Store} {op : Operation} (h : op.effect s = .ok s') :
    Changes s op s' := by
  cases op with
  | declareVariable name value =>
    simp only [Operation.effect, Store.declareVariable, bind_eq_ok, keyOf_eq_ok] at h
    obtain ⟨key, hkey, h⟩ := h
    split at h
    · cases h
    · rename_i hfree
      cases h
      exact .declareVariable hkey hfree
  | declareFunction name params body =>
    simp only [Operation.effect, map_eq_ok, Store.declareFunction, bind_eq_ok, keyOf_eq_ok] at h
    obtain ⟨⟨f, s''⟩, ⟨key, hkey, h⟩, rfl⟩ := h
    split at h
    · cases h
    · rename_i hfree
      obtain ⟨_, _, h⟩ := bind_eq_ok.1 h
      cases h
      exact .declareFunction hkey hfree
  | assign name value =>
    simp only [Operation.effect, Store.assign, bind_eq_ok, keyOf_eq_ok] at h
    obtain ⟨key, hkey, h⟩ := h
    split at h
    · cases h
    · cases h
    · rename_i old hold hbound
      cases h
      exact .assign hkey hbound fun f => hold f
  | get name =>
    obtain ⟨_, _, rfl⟩ := map_eq_ok.1 h
    exact .get
  | getFunction name =>
    obtain ⟨_, _, rfl⟩ := map_eq_ok.1 h
    exact .getFunction
  | push f args =>
    simp only [Operation.effect, Store.enter, bind_eq_ok, pure_eq_ok] at h
    obtain ⟨frame, _, rfl⟩ := h
    exact .push
  | pop =>
    cases h
    exact .pop

/-- An operation changes the store as it does when it succeeds, or not at all. -/
theorem after_eq_or_changes (s : Store) (op : Operation) :
    s.after op = s ∨ Changes s op (s.after op) := by
  rcases h : op.effect s with e | s'
  · exact Or.inl (after_of_error h)
  · rw [after_of_ok h]
    exact Or.inr (changes_of_effect h)

/-! ## The names of a store -/

/-- The declared names, in the order of their declaration. -/
def Store.names (s : Store) : List Json := s.globals.map Prod.fst

/-- Every declared name can be a name, and no two are the same name. -/
structure Store.Orderly (s : Store) : Prop where
  usable : ∀ name ∈ s.names, name.key? ≠ none
  distinct : (s.names.map Json.key?).Nodup

/-- The second store comes after the first: it has the same names and perhaps more after them, the
same functions, and a variable for each variable. -/
structure Store.Grows (s s' : Store) : Prop where
  names : s.names <+: s'.names
  keepsFunction : ∀ key f, s.globals.find? key = some (.function f) →
    s'.globals.find? key = some (.function f)
  keepsVariable : ∀ key v, s.globals.find? key = some v → v.IsData →
    ∃ v', s'.globals.find? key = some v' ∧ v'.IsData

section growing

variable {s s' s'' : Store} {op : Operation} {name : Json} {key : Key} {v : Value}

theorem Store.Grows.refl (s : Store) : s.Grows s :=
  ⟨List.prefix_rfl, fun _ _ h => h, fun _ v h hv => ⟨v, h, hv⟩⟩

theorem Store.Grows.trans (h : s.Grows s') (h' : s'.Grows s'') : s.Grows s'' := by
  refine ⟨h.names.trans h'.names, ?_, ?_⟩
  · intro key f hf
    exact h'.keepsFunction key f (h.keepsFunction key f hf)
  · intro key v hv hdata
    obtain ⟨v', hv', hdata'⟩ := h.keepsVariable key v hv hdata
    exact h'.keepsVariable key v' hv' hdata'

theorem grows_of_globals (h : s'.globals = s.globals) : s.Grows s' := by
  have hnames : s'.names = s.names := by rw [Store.names, h, Store.names]
  refine ⟨hnames ▸ List.prefix_rfl, ?_, ?_⟩
  · intro key f hf
    rwa [h]
  · intro key v hv hdata
    exact ⟨v, by rwa [h], hdata⟩

theorem grows_append (name : Json) (v : Value) :
    s.Grows { s with globals := s.globals ++ [(name, v)] } := by
  have hkept : ∀ key w, s.globals.find? key = some w →
      Scope.find? key (s.globals ++ [(name, v)]) = some w := by
    intro key w hw
    rw [Scope.find?_append, hw, Option.some_or]
  refine ⟨?_, fun key f hf => hkept key _ hf, fun key w hw hdata => ⟨w, hkept key w hw, hdata⟩⟩
  simp [Store.names]

theorem names_bind {old : Value} (hbound : s.globals.find? key = some old) (name : Json)
    (v : Value) : Store.names { s with globals := s.globals.bind key name v } = s.names := by
  obtain ⟨before, bound, after, hglobals, _, hbind⟩ := Scope.bind_of_find? name v hbound
  simp only [Store.names, hbind]
  simp [hglobals]

/-- The one name whose value is replaced had no function, and has none afterwards. -/
theorem grows_bind (hkey : name.key? = some key) {old : Value}
    (hbound : s.globals.find? key = some old) (hold : old.IsData) (hv : v.IsData) :
    s.Grows { s with globals := s.globals.bind key name v } := by
  refine ⟨names_bind hbound name v ▸ List.prefix_rfl, ?_, ?_⟩
  · intro other f hf
    have hne : other ≠ key := by
      rintro rfl
      exact hold f (Option.some.inj (hbound.symm.trans hf))
    exact (Scope.find?_bind_ne hkey hne v s.globals).trans hf
  · intro other w hw hdata
    by_cases heq : other = key
    · rw [heq]
      exact ⟨v, Scope.find?_bind_self hkey v s.globals, hv⟩
    · exact ⟨w, (Scope.find?_bind_ne hkey heq v s.globals).trans hw, hdata⟩

theorem Changes.grows (h : Changes s op s') (hop : op.CarriesData) : s.Grows s' := by
  cases h with
  | declareVariable _ _ => exact grows_append _ _
  | declareFunction _ _ => exact grows_append _ _
  | assign hkey hbound hold => exact grows_bind hkey hbound hold hop
  | get => exact .refl s
  | getFunction => exact .refl s
  | push => exact grows_of_globals rfl
  | pop => exact grows_of_globals rfl

theorem orderly_empty : Store.empty.Orderly := ⟨by simp [Store.names, Store.empty], .nil⟩

theorem orderly_append (h : s.Orderly) (hkey : name.key? = some key)
    (hfree : s.globals.find? key = none) :
    Store.Orderly { s with globals := s.globals ++ [(name, v)] } := by
  have hnew : some key ∉ s.names.map Json.key? := by
    rw [Store.names, List.map_map]
    exact Scope.find?_eq_none_iff.1 hfree
  have hnames : Store.names { s with globals := s.globals ++ [(name, v)] } = s.names ++ [name] := by
    simp [Store.names]
  constructor
  · intro other hother
    rw [hnames] at hother
    rcases List.mem_append.1 hother with hother | hother
    · exact h.usable other hother
    · rw [List.mem_singleton.1 hother, hkey]
      simp
  · rw [hnames, List.map_append, List.nodup_append]
    refine ⟨h.distinct, by simp, ?_⟩
    rintro k hk k' hk' rfl
    rw [List.map_singleton, List.mem_singleton, hkey] at hk'
    exact hnew (hk' ▸ hk)

theorem Changes.orderly (h : Changes s op s') (hs : s.Orderly) : s'.Orderly := by
  cases h with
  | declareVariable hkey hfree => exact orderly_append hs hkey hfree
  | declareFunction hkey hfree => exact orderly_append hs hkey hfree
  | @assign name _ value _ _ hbound _ =>
    have hnames := names_bind hbound name value
    exact ⟨hnames ▸ hs.usable, hnames ▸ hs.distinct⟩
  | get => exact hs
  | getFunction => exact hs
  | push => exact ⟨hs.usable, hs.distinct⟩
  | pop => exact ⟨hs.usable, hs.distinct⟩

theorem grows_after (hop : op.CarriesData) (s : Store) : s.Grows (s.after op) := by
  rcases after_eq_or_changes s op with h | h
  · rw [h]
    exact .refl s
  · exact h.grows hop

theorem orderly_after (hs : s.Orderly) (op : Operation) : (s.after op).Orderly := by
  rcases after_eq_or_changes s op with h | h
  · rw [h]
    exact hs
  · exact h.orderly hs

theorem grows_afterAll {ops : List Operation} (hops : ∀ op ∈ ops, op.CarriesData) (s : Store) :
    s.Grows (s.afterAll ops) := by
  induction ops generalizing s with
  | nil => exact .refl s
  | cons op ops ih =>
    exact (grows_after (hops op (by simp)) s).trans (ih (fun o ho => hops o (by simp [ho])) _)

theorem orderly_afterAll (hs : s.Orderly) (ops : List Operation) : (s.afterAll ops).Orderly := by
  induction ops generalizing s with
  | nil => exact hs
  | cons op ops ih => exact ih (orderly_after hs op)

end growing

/-! ## The functions of a store -/

/-- Every function that a name is bound to has the property. -/
def Store.EachFunction (P : Key → Function → Prop) (s : Store) : Prop :=
  ∀ key f, s.globals.find? key = some (.function f) → P key f

section functions

variable {s s' : Store} {op : Operation} {name : Json} {v : Value} {P : Key → Function → Prop}

theorem eachFunction_append (hs : s.EachFunction P)
    (hv : ∀ key f, name.key? = some key → v = .function f → P key f) :
    Store.EachFunction P { s with globals := s.globals ++ [(name, v)] } := by
  intro key f hf
  rw [Scope.find?_append] at hf
  rcases hold : s.globals.find? key with _ | w
  · rw [hold, Option.none_or, Scope.find?] at hf
    split at hf
    · rename_i hkey
      exact hv key f hkey (Option.some.inj hf)
    · cases hf
  · rw [hold] at hf
    cases hf
    exact hs key f hold

/-- Only a declaration brings a function, and what it brings must have the property as well. -/
theorem Changes.eachFunction (h : Changes s op s') (hs : s.EachFunction P) (hop : op.CarriesData)
    (hdeclared : ∀ name params body key, op = .declareFunction name params body →
      name.key? = some key → P key ⟨name, params, body⟩) : s'.EachFunction P := by
  cases h with
  | declareVariable _ _ => exact eachFunction_append hs fun _ f _ hf => absurd hf (hop f)
  | declareFunction _ _ =>
    apply eachFunction_append hs
    intro key f hkey hf
    cases hf
    exact hdeclared _ _ _ key rfl hkey
  | @assign _ bound value _ hkey _ _ =>
    intro key f hf
    by_cases hk : key = bound
    · rw [hk, Scope.find?_bind_self hkey] at hf
      exact absurd (Option.some.inj hf) (hop f)
    · rw [Scope.find?_bind_ne hkey hk] at hf
      exact hs key f hf
  | get => exact hs
  | getFunction => exact hs
  | push => exact hs
  | pop => exact hs

end functions

/-! ## Calls that end -/

/-- Calls begin and end in turn. A call whose parameters cannot be bound does not begin. -/
inductive Matched : List Operation → Prop
  | nil : Matched []
  | plain {op : Operation} {rest : List Operation} (hpush : ∀ f args, op ≠ .push f args)
      (hpop : op ≠ .pop) (hrest : Matched rest) : Matched (op :: rest)
  | call {f : Function} {args : List Value} {frame : Scope} {inner rest : List Operation}
      (hframe : Scope.bindAll [] f.params args = .ok frame) (hinner : Matched inner)
      (hrest : Matched rest) : Matched (.push f args :: (inner ++ .pop :: rest))
  | refused {f : Function} {args : List Value} {e : Stop} {rest : List Operation}
      (hframe : Scope.bindAll [] f.params args = .error e) (hrest : Matched rest) :
      Matched (.push f args :: rest)

theorem Matched.append {ops ops' : List Operation} (h : Matched ops) (h' : Matched ops') :
    Matched (ops ++ ops') := by
  induction h with
  | nil => exact h'
  | plain hpush hpop _ ih => exact .plain hpush hpop ih
  | call hframe hinner _ _ ih =>
    rw [List.cons_append, List.append_assoc, List.cons_append]
    exact .call hframe hinner ih
  | refused hframe _ ih => exact .refused hframe ih

section calls

variable {s s' : Store} {op : Operation}

/-- A declaration or an assignment does the same inside any calls, and they go on. -/
theorem effect_of_target (h : op.target?.isSome) (s : Store) (frames : List Scope) :
    op.effect { s with frames := frames } =
      (op.effect s).map fun s' => { s' with frames := frames } := by
  cases op with
  | declareVariable name value =>
    simp only [Operation.effect, Store.declareVariable]
    rcases keyOf name with e | key
    · rfl
    · simp only [bind, Except.bind]
      rcases s.globals.find? key with _ | v <;> rfl
  | declareFunction name params body =>
    simp only [Operation.effect, Store.declareFunction]
    rcases keyOf name with e | key
    · rfl
    · simp only [bind, Except.bind]
      rcases s.globals.find? key with _ | v
      · rcases Store.checkParams name [] params with e | _ <;> rfl
      · rfl
  | assign name value =>
    simp only [Operation.effect, Store.assign]
    rcases keyOf name with e | key
    · rfl
    · simp only [bind, Except.bind]
      rcases s.globals.find? key with _ | _ | _ | _ | _ | _ <;> rfl
  | _ => cases h

theorem after_of_target (h : op.target?.isSome) (s : Store) (frames : List Scope) :
    Store.after { s with frames := frames } op = { s.after op with frames := frames } := by
  have heffect := effect_of_target h s frames
  rcases hop : op.effect s with e | s'
  · rw [hop] at heffect
    rw [after_of_error heffect, after_of_error hop]
  · rw [hop] at heffect
    rw [after_of_ok heffect, after_of_ok hop]

theorem afterAll_of_target {ops : List Operation} (h : ∀ op ∈ ops, op.target?.isSome) (s : Store)
    (frames : List Scope) :
    Store.afterAll { s with frames := frames } ops = { s.afterAll ops with frames := frames } := by
  induction ops generalizing s with
  | nil => rfl
  | cons op ops ih =>
    rw [afterAll_cons, afterAll_cons, after_of_target (h op (by simp)),
      ih fun o ho => h o (by simp [ho])]

/-- The declarations and assignments among some operations. -/
def writesOf (ops : List Operation) : List Operation := ops.filter (·.target?.isSome)

theorem target_of_mem_writesOf {ops : List Operation} : ∀ op ∈ writesOf ops, op.target?.isSome :=
  fun _ hop => (List.mem_filter.1 hop).2

theorem afterAll_writesOf (ops : List Operation) (s : Store) :
    s.afterAll (writesOf ops) = { s.afterAll (writesOf ops) with frames := s.frames } :=
  afterAll_of_target target_of_mem_writesOf s s.frames

theorem after_of_query (h : op.target? = none) (hpush : ∀ f args, op ≠ .push f args)
    (hpop : op ≠ .pop) (s : Store) : s.after op = s := by
  rcases after_eq_or_changes s op with hs | hs
  · exact hs
  · generalize s.after op = s' at hs
    cases hs with
    | get => rfl
    | getFunction => rfl
    | push => exact absurd rfl (hpush _ _)
    | pop => exact absurd rfl hpop
    | _ => cases h

/-- Calls that have ended leave nothing behind: the store is as if only the declarations and the
assignments had been performed, one after the other and outside these calls. -/
theorem Matched.afterAll_eq {ops : List Operation} (h : Matched ops) (s : Store) :
    s.afterAll ops = s.afterAll (writesOf ops) := by
  induction h generalizing s with
  | nil => rfl
  | @plain op rest hpush hpop _ ih =>
    rw [afterAll_cons, ih]
    by_cases htarget : op.target?.isSome
    · rw [writesOf, writesOf, List.filter_cons_of_pos (by exact htarget), afterAll_cons]
    · rw [after_of_query (by simpa using htarget) hpush hpop, writesOf, writesOf,
        List.filter_cons_of_neg (by exact htarget)]
  | @call f args frame inner rest hframe _ _ ihinner ihrest =>
    have hpush : s.after (.push f args) = s.push frame := after_of_ok (enter_of_bindAll hframe s)
    -- The writes of the call act under its frame, which the pop then takes away.
    have hinner : ((s.after (.push f args)).afterAll inner).after .pop =
        s.afterAll (writesOf inner) := by
      rw [ihinner, hpush, Store.push, afterAll_of_target target_of_mem_writesOf, after_of_ok rfl]
      exact (afterAll_writesOf inner s).symm
    rw [afterAll_cons, afterAll_append, afterAll_cons, hinner, ihrest, ← afterAll_append]
    simp [writesOf, Operation.target?]
  | @refused f args e rest hframe _ ih =>
    have hpush : s.after (.push f args) = s := after_of_error (enter_of_bindAll_error hframe s)
    rw [afterAll_cons, hpush, ih]
    rfl

theorem frames_of_matched {ops : List Operation} (h : Matched ops) (s : Store) :
    (s.afterAll ops).frames = s.frames := by
  rw [h.afterAll_eq, afterAll_writesOf]

/-- None of the operations declares or assigns the name. -/
def Untouched (name : Json) (ops : List Operation) : Prop :=
  ∀ op ∈ ops, ∀ target, op.target? = some target → target.key? ≠ name.key?

theorem find?_after {key : Key}
    (h : ∀ target, op.target? = some target → target.key? ≠ some key) (s : Store) :
    (s.after op).globals.find? key = s.globals.find? key := by
  have happend : ∀ {name : Json} {v : Value}, name.key? ≠ some key →
      Scope.find? key (s.globals ++ [(name, v)]) = s.globals.find? key := by
    intro name v hname
    simp [Scope.find?_append, Scope.find?, hname]
  rcases after_eq_or_changes s op with hs | hs
  · rw [hs]
  · generalize s.after op = s' at hs
    cases hs with
    | declareVariable _ _ => exact happend (h _ rfl)
    | declareFunction _ _ => exact happend (h _ rfl)
    | assign hkey _ _ =>
      have hne : key ≠ _ := fun heq => h _ rfl (hkey.trans (congrArg some heq.symm))
      exact Scope.find?_bind_ne hkey hne _ s.globals
    | _ => rfl

theorem find?_afterAll {name : Json} {key : Key} {ops : List Operation}
    (hkey : name.key? = some key) (h : Untouched name ops) (s : Store) :
    (s.afterAll ops).globals.find? key = s.globals.find? key := by
  induction ops generalizing s with
  | nil => rfl
  | cons op ops ih =>
    rw [afterAll_cons, ih fun o ho => h o (by simp [ho])]
    exact find?_after (fun target ht => hkey ▸ h op (by simp) target ht) s

/-- After calls that have ended, a name that was not touched stands for what it stood for. -/
theorem lookups_of_matched {name : Json} {ops : List Operation} (h : Matched ops)
    (hname : Untouched name ops) (s : Store) :
    (s.afterAll ops).get name = s.get name ∧
      (s.afterAll ops).getFunction name = s.getFunction name := by
  have hglobals : ∀ k ∈ name.key?, (s.afterAll ops).globals.find? k = s.globals.find? k :=
    fun k hk => find?_afterAll hk hname s
  have hframe : (s.afterAll ops).currentFrame = s.currentFrame := by
    rw [Store.currentFrame, frames_of_matched h, Store.currentFrame]
  exact ⟨get_congr (fun k _ => by rw [hframe]) hglobals, getFunction_congr hglobals⟩

end calls

/-! ## Single operations -/

section operations

variable {s s' : Store}

/-- An assignment replaces the value of one variable where it stands, and changes nothing else. -/
theorem assign_replaces {name : Json} {v : Value} (h : s.assign name v = .ok s') :
    ∃ before bound old after, s.globals = before ++ (bound, old) :: after ∧
      bound.key? = name.key? ∧ old.IsData ∧
      s' = { s with globals := before ++ (bound, v) :: after } := by
  have hchanges : Changes s (.assign name v) s' := changes_of_effect h
  cases hchanges with
  | assign hkey hbound hold =>
    obtain ⟨before, bound, after, hglobals, hk, hbind⟩ := Scope.bind_of_find? name v hbound
    exact ⟨before, bound, _, after, hglobals, hk.trans hkey.symm, hold, by rw [hbind]⟩

theorem declareFunction_of_bound {x : Text} {v : Value} (h : s.globals.find? (.text x) = some v)
    (params : List Json) (body : Node) :
    s.declareFunction (.str x) params body = .error (.fault (.alreadyDeclared (.str x))) := by
  simp only [Store.declareFunction, keyOf, Json.key?, h, bind, Except.bind]

theorem declareFunction_of_free {x : Text} (h : s.globals.find? (.text x) = none)
    (params : List Json) (body : Node) :
    s.declareFunction (.str x) params body =
      (Store.checkParams (.str x) [] params).map fun _ =>
        (⟨.str x, params, body⟩,
          { s with globals := s.globals ++ [(.str x, .function ⟨.str x, params, body⟩)] }) := by
  simp only [Store.declareFunction, keyOf, Json.key?, h, bind, Except.bind]
  rcases Store.checkParams (.str x) [] params with e | _ <;> rfl

/-- A function is declared if its name is free and no parameter repeats another one. -/
theorem declareFunction_succeeds_iff (s : Store) (x : Text) (ps : List Text) (body : Node) :
    (∃ r, s.declareFunction (.str x) (ps.map .str) body = .ok r) ↔
      s.globals.find? (.text x) = none ∧ ps.Nodup := by
  rcases hx : s.globals.find? (.text x) with _ | v
  · rw [declareFunction_of_free hx]
    rcases nodup_or_repeats ps with hp | ⟨p, hp⟩
    · rw [checkParams_nodup hp]
      exact ⟨fun _ => ⟨rfl, hp⟩, fun _ => ⟨_, rfl⟩⟩
    · rw [checkParams_repeats hp]
      constructor
      · rintro ⟨r, hr⟩
        cases hr
      · rintro ⟨_, hnodup⟩
        obtain ⟨before, after, rfl, hmem, _⟩ := hp
        exact absurd rfl ((List.nodup_append.1 hnodup).2.2 p hmem p (by simp))
  · rw [declareFunction_of_bound hx]
    constructor
    · rintro ⟨r, hr⟩
      cases hr
    · rintro ⟨hfree, _⟩
      cases hfree

theorem declareFunction_repeated {x : Text} {ps : List Text}
    (hx : s.globals.find? (.text x) = none) (hp : ¬ ps.Nodup) (body : Node) :
    ∃ p, Rules.Repeats ps p ∧ s.declareFunction (.str x) (ps.map .str) body =
      .error (.fault (.repeatedParameter (.str p) (.str x))) := by
  obtain ⟨p, hrepeats⟩ := (nodup_or_repeats ps).resolve_left hp
  refine ⟨p, hrepeats, ?_⟩
  rw [declareFunction_of_free hx, checkParams_repeats hrepeats]
  rfl

/-! ### What is bound is found -/

theorem get_of_data {name : Json} {key : Key} {v : Value} (hkey : name.key? = some key)
    (hv : s.globals.find? key = some v) (hdata : v.IsData) :
    s.get name = .ok ((s.currentFrame.find? key).getD v) := by
  simp only [Store.get, keyOf, hkey, hv, bind, Except.bind]
  rcases s.currentFrame.find? key with _ | w
  · cases v with
    | function f => exact absurd rfl (hdata f)
    | _ => rfl
  · rfl

theorem getFunction_of_data {name : Json} {key : Key} {v : Value} (hkey : name.key? = some key)
    (hv : s.globals.find? key = some v) (hdata : v.IsData) :
    s.getFunction name = .error (.fault (.notFunction name)) := by
  simp only [Store.getFunction, keyOf, hkey, hv, bind, Except.bind]
  cases v with
  | function f => exact absurd rfl (hdata f)
  | _ => rfl

theorem get_of_function {name : Json} {key : Key} {f : Function} (hkey : name.key? = some key)
    (hf : s.globals.find? key = some (.function f)) :
    s.get name = (s.currentFrame.find? key).elim (.error (.fault (.functionAsValue name))) .ok := by
  simp only [Store.get, keyOf, hkey, hf, bind, Except.bind]
  rcases s.currentFrame.find? key with _ | w <;> rfl

theorem getFunction_of_function {name : Json} {key : Key} {f : Function}
    (hkey : name.key? = some key) (hf : s.globals.find? key = some (.function f)) :
    s.getFunction name = .ok f := by
  simp only [Store.getFunction, keyOf, hkey, hf, bind, Except.bind]
  rfl

theorem find?_append_self {scope : Scope} {name : Json} {key : Key} (hkey : name.key? = some key)
    (hfree : scope.find? key = none) (v : Value) :
    Scope.find? key (scope ++ [(name, v)]) = some v := by
  simp [Scope.find?_append, hfree, Scope.find?, hkey]

/-- What is declared or assigned as a variable is what the name stands for, unless the innermost
call has a parameter of that name; it cannot be called. -/
theorem lookups_of_variable {name : Json} {v : Value} (hdata : v.IsData)
    (h : s.declareVariable name v = .ok s' ∨ s.assign name v = .ok s') :
    ∃ key, name.key? = some key ∧ s'.get name = .ok ((s.currentFrame.find? key).getD v) ∧
      s'.getFunction name = .error (.fault (.notFunction name)) := by
  have hbound : ∃ key, name.key? = some key ∧ s'.globals.find? key = some v ∧
      s'.currentFrame = s.currentFrame := by
    rcases h with h | h
    · have hchanges : Changes s (.declareVariable name v) s' := changes_of_effect h
      cases hchanges with
      | declareVariable hkey hfree => exact ⟨_, hkey, find?_append_self hkey hfree v, rfl⟩
    · have hchanges : Changes s (.assign name v) s' := changes_of_effect h
      cases hchanges with
      | assign hkey _ _ => exact ⟨_, hkey, Scope.find?_bind_self hkey v s.globals, rfl⟩
  obtain ⟨key, hkey, hfind, hframe⟩ := hbound
  exact ⟨key, hkey, hframe ▸ get_of_data hkey hfind hdata, getFunction_of_data hkey hfind hdata⟩

/-- What is declared as a function is what the name stands for in calls. In expressions it stands
for nothing but a parameter of that name. -/
theorem lookups_of_function {name : Json} {params : List Json} {body : Node} {f : Function}
    (h : s.declareFunction name params body = .ok (f, s')) :
    f = ⟨name, params, body⟩ ∧ ∃ key, name.key? = some key ∧ s'.getFunction name = .ok f ∧
      s'.get name =
        (s.currentFrame.find? key).elim (.error (.fault (.functionAsValue name))) .ok := by
  simp only [Store.declareFunction, bind_eq_ok, keyOf_eq_ok] at h
  obtain ⟨key, hkey, h⟩ := h
  split at h
  · cases h
  · rename_i hfree
    obtain ⟨_, _, h⟩ := bind_eq_ok.1 h
    cases h
    have hfind := find?_append_self hkey hfree (.function ⟨name, params, body⟩)
    refine ⟨rfl, key, hkey, ?_, ?_⟩
    · exact getFunction_of_function hkey hfind
    · exact get_of_function hkey hfind

end operations

end BellaLang
