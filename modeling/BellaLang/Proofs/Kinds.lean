-- The kinds of values that a store may hold. A global is a plain value or a
-- function under its own name, and a frame binds the parameters of a global
-- function to numbers; every operation on a store keeps this.
import BellaLang.Evaluate

namespace BellaLang

/-! ## Results -/

/-- A sequence succeeds if both of its parts do. -/
theorem bind_eq_ok {ε α β : Type} {x : Except ε α} {f : α → Except ε β} {b : β} :
    (x >>= f) = .ok b ↔ ∃ a, x = .ok a ∧ f a = .ok b := by
  rcases x with e | a
  · exact ⟨fun h => (by cases h), fun ⟨a, h, _⟩ => (by cases h)⟩
  · exact ⟨fun h => ⟨a, rfl, h⟩, fun ⟨a', h, hb⟩ => by cases h; exact hb⟩

theorem pure_eq_ok {ε α : Type} {a b : α} : (pure a : Except ε α) = .ok b ↔ a = b :=
  ⟨fun h => by cases h; rfl, fun h => by rw [h]; rfl⟩

theorem map_eq_ok {ε α β : Type} {x : Except ε α} {f : α → β} {b : β} :
    x.map f = .ok b ↔ ∃ a, x = .ok a ∧ f a = b := by
  rcases x with e | a
  · exact ⟨fun h => (by cases h), fun ⟨a, h, _⟩ => (by cases h)⟩
  · exact ⟨fun h => ⟨a, rfl, by cases h; rfl⟩, fun ⟨a', h, hb⟩ => by cases h; rw [← hb]; rfl⟩

/-! ## Plain values -/

/-- A Number, a Boolean, or an Array of plain values. -/
inductive Value.Plain : Value → Prop
  | number (x : Number) : Plain (.number x)
  | boolean (b : Bool) : Plain (.boolean b)
  | array {items : List Value} (h : ∀ v ∈ items, Plain v) : Plain (.array items)

theorem not_plain_function (f : Function) : ¬ (Value.function f).Plain := by
  intro h
  cases h

theorem plain_applyUnary {op : Json} {a v : Value} (h : applyUnary op a = .ok v) : v.Plain := by
  unfold applyUnary at h
  split at h
  · simp only [bind_eq_ok, pure_eq_ok] at h
    obtain ⟨x, _, rfl⟩ := h
    exact .number _
  · simp only [bind_eq_ok, pure_eq_ok] at h
    obtain ⟨x, _, rfl⟩ := h
    exact .number _
  · simp only [bind_eq_ok, pure_eq_ok] at h
    obtain ⟨b, _, rfl⟩ := h
    exact .boolean _
  · cases h

theorem plain_onNumbers {op : Json} {f : Number → Number → Value} {a b v : Value}
    (hf : ∀ x y, (f x y).Plain) (h : onNumbers op f a b = .ok v) : v.Plain := by
  simp only [onNumbers, bind_eq_ok, pure_eq_ok] at h
  obtain ⟨x, _, y, _, rfl⟩ := h
  exact hf x y

theorem plain_applyBinary {op : Json} {a b v : Value} (h : applyBinary op a b = .ok v) :
    v.Plain := by
  unfold applyBinary at h
  split at h
  case h_10 | h_11 =>
    simp only [bind_eq_ok, pure_eq_ok] at h
    obtain ⟨x, _, rfl⟩ := h
    exact .boolean _
  all_goals first
    | cases h
    | exact plain_onNumbers (fun _ _ => .number _) h
    | exact plain_onNumbers (fun _ _ => .boolean _) h

/-- The items of a plain array are plain. -/
theorem plain_applySubscript {target index v : Value} (ht : target.Plain)
    (h : applySubscript target index = .ok v) : v.Plain := by
  cases ht with
  | number x => cases h
  | boolean b => cases h
  | array hitems =>
    simp only [applySubscript, bind_eq_ok] at h
    obtain ⟨k, _, h⟩ := h
    split at h
    · cases h
    · split at h
      · rename_i hget
        cases h
        exact hitems _ (List.mem_of_getElem? hget)
      · cases h

/-! ## Sound stores -/

/-- The parameters of a function can be names, and no two are the same name. -/
structure Function.Distinct (f : Function) : Prop where
  usable : ∀ p ∈ f.params, p.key? ≠ none
  nodup : (f.params.map Json.key?).Nodup

/-- What may be bound to a global name: a plain value, or a function under its own name. -/
inductive Bound (name : Json) : Value → Prop
  | plain {v : Value} (h : v.Plain) : Bound name v
  | function {f : Function} (named : f.name = name) (h : f.Distinct) : Bound name (.function f)

/-- The function is bound to a global name. -/
def Store.Declares (s : Store) (f : Function) : Prop := ∃ name, (name, .function f) ∈ s.globals

/-- The frame binds the parameters of a function, in their order and all of them, to numbers. -/
def FrameOf (f : Function) (frame : Scope) : Prop :=
  ∃ xs : List Number, xs.length = f.arity ∧ frame = f.params.zip (xs.map .number)

/-- What holds of a store between any two steps. -/
structure Store.Sound (s : Store) : Prop where
  globals : ∀ b ∈ s.globals, Bound b.1 b.2
  frames : ∀ frame ∈ s.frames, ∃ f, s.Declares f ∧ FrameOf f frame

theorem sound_empty : Store.empty.Sound := by
  constructor
  · intro b hb
    cases hb
  · intro frame hf
    cases hf

theorem Store.Sound.distinct {s : Store} (h : s.Sound) {f : Function} (hf : s.Declares f) :
    f.Distinct := by
  obtain ⟨name, hmem⟩ := hf
  cases h.globals _ hmem with
  | plain hp => exact absurd hp (not_plain_function f)
  | function _ hd => exact hd

/-! ## Scopes -/

theorem keyOf_eq_ok {name : Json} {key : Key} : keyOf name = .ok key ↔ name.key? = some key := by
  unfold keyOf
  split
  · rename_i k hk
    simp [hk]
  · rename_i hk
    simp [hk]

namespace Scope

/-- What is found under a key stands in the scope under a name with that key. -/
theorem mem_of_find? {scope : Scope} {key : Key} {v : Value} (h : scope.find? key = some v) :
    ∃ name, (name, v) ∈ scope ∧ name.key? = some key := by
  fun_induction Scope.find? key scope with
  | case1 => cases h
  | case2 name value rest hk =>
    cases h
    exact ⟨name, by simp, hk⟩
  | case3 name value rest hk ih =>
    obtain ⟨n, hm, hn⟩ := ih h
    exact ⟨n, by simp [hm], hn⟩

theorem find?_eq_none {scope : Scope} {key : Key} (h : ∀ b ∈ scope, b.1.key? ≠ some key) :
    scope.find? key = none := by
  fun_induction Scope.find? key scope with
  | case1 => rfl
  | case2 name value rest hk => exact absurd hk (h (name, value) (by simp))
  | case3 name value rest hk ih => exact ih fun b hb => h b (by simp [hb])

/-- A new name goes to the end. -/
theorem bind_of_find?_none {scope : Scope} {key : Key} (name : Json) (v : Value)
    (h : scope.find? key = none) : scope.bind key name v = scope ++ [(name, v)] := by
  induction scope with
  | nil => rfl
  | cons b rest ih =>
    obtain ⟨bound, old⟩ := b
    simp only [find?] at h
    split at h
    · cases h
    · rename_i hk
      rw [Scope.bind, if_neg hk, ih h]
      rfl

theorem mem_bind {scope : Scope} {key : Key} {name : Json} {v : Value} {b : Json × Value}
    (h : b ∈ scope.bind key name v) : b ∈ scope ∨ b.2 = v := by
  fun_induction Scope.bind key name v scope with
  | case1 =>
    rw [List.mem_singleton] at h
    exact Or.inr (by rw [h])
  | case2 bound old rest hk =>
    rcases List.mem_cons.1 h with h | h
    · exact Or.inr (by rw [h])
    · exact Or.inl (List.mem_cons_of_mem _ h)
  | case3 bound old rest hk ih =>
    rcases List.mem_cons.1 h with h | h
    · exact Or.inl (by rw [h]; simp)
    · exact (ih h).imp_left (List.mem_cons_of_mem _)

/-- Only the binding that a key finds is replaced. -/
theorem mem_bind_of_ne {scope : Scope} {key : Key} {b : Json × Value} (name : Json) (v : Value)
    (h : b ∈ scope) (hne : scope.find? key ≠ some b.2) : b ∈ scope.bind key name v := by
  fun_induction Scope.bind key name v scope with
  | case1 => cases h
  | case2 bound old rest hk =>
    rcases List.mem_cons.1 h with h | h
    · exact absurd (by rw [find?, if_pos hk, h]) hne
    · exact List.mem_cons_of_mem _ h
  | case3 bound old rest hk ih =>
    rw [find?, if_neg hk] at hne
    rcases List.mem_cons.1 h with h | h
    · exact h ▸ List.mem_cons_self
    · exact List.mem_cons_of_mem _ (ih h hne)

/-- Binding distinct parameters overwrites nothing: each one goes to the end. -/
theorem bindAll_eq_append {params : List Json} (args : List Value) (scope : Scope)
    (hu : ∀ p ∈ params, p.key? ≠ none) (hn : (params.map Json.key?).Nodup)
    (hs : ∀ b ∈ scope, b.1.key? ∉ params.map Json.key?) :
    scope.bindAll params args = .ok (scope ++ params.zip args) := by
  induction params generalizing args scope with
  | nil => simp [bindAll]
  | cons p params ih =>
    rcases args with _ | ⟨arg, args⟩
    · simp [bindAll]
    · obtain ⟨key, hkey⟩ := Option.ne_none_iff_exists'.1 (hu p (by simp))
      rw [List.map_cons, List.nodup_cons] at hn
      have hfree : scope.find? key = none :=
        find?_eq_none fun b hb hbk => hs b hb (by simp [hbk, hkey])
      rw [bindAll, keyOf_eq_ok.2 hkey]
      change Scope.bindAll (scope.bind key p arg) params args = _
      rw [bind_of_find?_none p arg hfree, ih args _ (fun q hq => hu q (by simp [hq])) hn.2]
      · simp
      · intro b hb
        rcases List.mem_append.1 hb with hb | hb
        · exact fun hmem => hs b hb (List.mem_cons_of_mem _ hmem)
        · rw [List.mem_singleton] at hb
          rw [hb]
          exact hn.1

end Scope

/-! ## Looking up -/

namespace Store

variable {s s' : Store} {f : Function} {args : List Value}

theorem declares_of_getFunction {callee : Json} (h : s.getFunction callee = .ok f) :
    s.Declares f := by
  simp only [getFunction, bind_eq_ok] at h
  obtain ⟨key, _, h⟩ := h
  split at h
  · rename_i g hg
    cases h
    obtain ⟨name, hm, _⟩ := Scope.mem_of_find? hg
    exact ⟨name, hm⟩
  · cases h

theorem plain_of_mem_currentFrame (hs : s.Sound) {b : Json × Value} (hb : b ∈ s.currentFrame) :
    b.2.Plain := by
  rcases hf : s.frames with _ | ⟨frame, rest⟩
  · rw [currentFrame, hf] at hb
    cases hb
  · rw [currentFrame, hf] at hb
    obtain ⟨g, _, xs, _, heq⟩ := hs.frames frame (by simp [hf])
    have hmem := (List.of_mem_zip (heq ▸ hb)).2
    obtain ⟨x, _, hx⟩ := List.mem_map.1 hmem
    rw [← hx]
    exact .number x

/-- A name that stands for a function is refused, so what is got is plain. -/
theorem plain_of_get (hs : s.Sound) {name : Json} {v : Value} (h : s.get name = .ok v) :
    v.Plain := by
  simp only [get, bind_eq_ok] at h
  obtain ⟨key, _, h⟩ := h
  split at h
  · rename_i w hw
    cases h
    obtain ⟨p, hm, _⟩ := Scope.mem_of_find? hw
    exact plain_of_mem_currentFrame hs hm
  · split at h
    · cases h
    · cases h
    · rename_i w hnot hw
      cases h
      obtain ⟨x, hm, _⟩ := Scope.mem_of_find? hw
      cases hs.globals _ hm with
      | plain hp => exact hp
      | function _ _ => exact absurd rfl (hnot _)

/-! ## Calls -/

theorem checkArguments_eq_ok {name : Json} {position : Nat}
    (h : checkArguments name position args = .ok ()) :
    ∃ xs : List Number, args = xs.map .number := by
  induction args generalizing position with
  | nil => exact ⟨[], rfl⟩
  | cons arg args ih =>
    rw [checkArguments] at h
    split at h
    · rename_i hn
      obtain ⟨xs, rfl⟩ := ih h
      cases arg with
      | number x => exact ⟨x :: xs, rfl⟩
      | _ => cases hn
    · cases h

/-- A call that is let through has as many arguments as parameters, and all of them are numbers. -/
theorem checkCall_eq_ok (h : checkCall f args = .ok ()) :
    args.length = f.arity ∧ ∃ xs : List Number, args = xs.map .number := by
  unfold checkCall at h
  split at h
  · rename_i hlen
    exact ⟨hlen, checkArguments_eq_ok h⟩
  · cases h

/-- A call binds every parameter to its argument: none is left out and none is overwritten. -/
theorem enter_eq (hd : f.Distinct) (args : List Value) :
    s.enter f args = .ok { s with frames := f.params.zip args :: s.frames } := by
  rw [enter, Scope.bindAll_eq_append args [] hd.usable hd.nodup (by simp)]
  rfl

/-- A call that is let through can be entered, whatever its arguments. -/
theorem sound_enter (hs : s.Sound) (hf : s.Declares f) (hc : checkCall f args = .ok ()) :
    ∃ inner, s.enter f args = .ok inner ∧ inner.Sound := by
  obtain ⟨hlen, xs, rfl⟩ := checkCall_eq_ok hc
  refine ⟨_, enter_eq (hs.distinct hf) _, hs.globals, ?_⟩
  intro frame hmem
  rcases List.mem_cons.1 hmem with rfl | hmem
  · exact ⟨f, hf, xs, by simpa using hlen, rfl⟩
  · exact hs.frames frame hmem

/-! ## Declarations and assignments -/

theorem sound_append (hs : s.Sound) {name : Json} {v : Value} (hv : Bound name v) :
    Sound { s with globals := s.globals ++ [(name, v)] } := by
  constructor
  · intro b hb
    rcases List.mem_append.1 hb with hb | hb
    · exact hs.globals b hb
    · rw [List.mem_singleton] at hb
      rw [hb]
      exact hv
  · intro frame hframe
    obtain ⟨g, ⟨x, hx⟩, hg⟩ := hs.frames frame hframe
    exact ⟨g, ⟨x, List.mem_append_left _ hx⟩, hg⟩

theorem sound_declareVariable (hs : s.Sound) {name : Json} {v : Value} (hv : v.Plain)
    (h : s.declareVariable name v = .ok s') : s'.Sound := by
  simp only [declareVariable, bind_eq_ok] at h
  obtain ⟨key, _, h⟩ := h
  split at h
  · cases h
  · cases h
    exact sound_append hs (.plain hv)

/-- Parameters that are let through differ from each other and from those seen before. -/
theorem checkParams_eq_ok {function : Json} {seen : List Key} {params : List Json}
    (h : checkParams function seen params = .ok ()) :
    (∀ p ∈ params, p.key? ≠ none) ∧ (params.map Json.key?).Nodup ∧
      ∀ k ∈ seen, some k ∉ params.map Json.key? := by
  induction params generalizing seen with
  | nil => simp
  | cons p params ih =>
    simp only [checkParams, bind_eq_ok, keyOf_eq_ok] at h
    obtain ⟨key, hkey, h⟩ := h
    split at h
    · cases h
    · rename_i hseen
      obtain ⟨hu, hn, hs⟩ := ih h
      have hfree : key ∉ seen := by simpa using hseen
      refine ⟨?_, ?_, ?_⟩
      · intro q hq
        rcases List.mem_cons.1 hq with rfl | hq
        · simp [hkey]
        · exact hu q hq
      · rw [List.map_cons, List.nodup_cons, hkey]
        exact ⟨hs key (by simp), hn⟩
      · intro k hk hmem
        rw [List.map_cons, hkey] at hmem
        rcases List.mem_cons.1 hmem with heq | hmem
        · cases heq
          exact hfree hk
        · exact hs k (by simp [hk]) hmem

theorem sound_declareFunction (hs : s.Sound) {name : Json} {params : List Json} {body : Node}
    (h : s.declareFunction name params body = .ok (f, s')) : s'.Sound := by
  simp only [declareFunction, bind_eq_ok] at h
  obtain ⟨key, _, h⟩ := h
  split at h
  · cases h
  · simp only [bind_eq_ok] at h
    obtain ⟨_, hp, h⟩ := h
    obtain ⟨hu, hn, _⟩ := checkParams_eq_ok hp
    cases h
    exact sound_append hs (.function rfl ⟨hu, hn⟩)

/-- An assignment replaces a variable, so every function stays where it is bound. -/
theorem sound_assign (hs : s.Sound) {name : Json} {v : Value} (hv : v.Plain)
    (h : s.assign name v = .ok s') : s'.Sound := by
  simp only [assign, bind_eq_ok] at h
  obtain ⟨key, _, h⟩ := h
  split at h
  · cases h
  · cases h
  · rename_i old hnot hold
    cases h
    constructor
    · intro b hb
      rcases Scope.mem_bind hb with hb | hb
      · exact hs.globals b hb
      · exact .plain (hb ▸ hv)
    · intro frame hframe
      obtain ⟨g, ⟨x, hx⟩, hg⟩ := hs.frames frame hframe
      refine ⟨g, ⟨x, Scope.mem_bind_of_ne name v hx ?_⟩, hg⟩
      intro heq
      exact hnot g (Option.some.inj (hold.symm.trans heq))

end Store

end BellaLang
