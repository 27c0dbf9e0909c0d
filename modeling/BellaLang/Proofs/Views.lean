-- How a store shows the globals and the frame of the rules, and what the
-- operations on stores do in these terms.
import BellaLang.Proofs.Kinds
import BellaLang.Proofs.Rules
import BellaLang.Proofs.Sorts

namespace BellaLang

open Rules

/-! ## Globals and frames as scopes -/

theorem lookup_mem {β : Type} {l : List (Text × β)} {x : Text} {b : β}
    (h : l.lookup x = some b) : (x, b) ∈ l := by
  obtain ⟨before, after, rfl, _⟩ := List.lookup_eq_some_iff.1 h
  simp

/-- Names and what is bound to them, with the value that a store holds for each. -/
def scopeWith {β : Type} (valueOf : Text → β → Value) (l : List (Text × β)) : Scope :=
  l.map fun b => (.str b.1, valueOf b.1 b.2)

/-- Looking a name up in a store is looking it up in the globals of the rules. -/
theorem find?_scopeWith {β : Type} (valueOf : Text → β → Value) (l : List (Text × β))
    (x : Text) : (scopeWith valueOf l).find? (.text x) = (l.lookup x).map (valueOf x) := by
  induction l with
  | nil => rfl
  | cons b l ih =>
    obtain ⟨y, b⟩ := b
    by_cases h : x = y
    · subst h
      simp [scopeWith, Scope.find?, Json.key?]
    · have hne : ¬ y = x := fun hyx => h hyx.symm
      have hbeq : (x == y) = false := by simp [h]
      simpa [scopeWith, Scope.find?, Json.key?, List.lookup_cons, hbeq, hne] using ih

/-- The value that a store holds for a global. -/
def valueOf (x : Text) : Binding → Value
  | .value v => v
  | .function ps body => .function ⟨.str x, ps.map .str, body⟩

abbrev scopeOf (g : Globals) : Scope := scopeWith valueOf g

abbrev frameOf (fr : Frame) : Scope := scopeWith (fun _ v => v) fr

/-! ## Stores that show globals and a frame -/

/-- What the globals of a program over a vocabulary may be. -/
inductive Fits (v : Vocabulary) : Text × Binding → Prop
  | value {x : Text} {w : Value} (h : w.Plain) : Fits v (x, .value w)
  | function {x : Text} {ps : List Text} {body : Node} (hx : v.declared x) (hp : ps.Nodup)
      (hb : body.IsExpr v) : Fits v (x, .function ps body)

/-- The store holds these globals, and this frame for the innermost call. -/
structure Views (v : Vocabulary) (s : Store) (g : Globals) (fr : Frame) : Prop where
  sound : s.Sound
  globals : s.globals = scopeOf g
  frame : s.currentFrame = frameOf fr
  fits : ∀ b ∈ g, Fits v b
  once : (g.map (·.1)).Nodup

section looking

variable {v : Vocabulary} {s : Store} {g : Globals} {fr : Frame} {x : Text}

theorem Views.find?_globals (h : Views v s g fr) :
    s.globals.find? (.text x) = (g.lookup x).map (valueOf x) := by
  rw [h.globals, find?_scopeWith]

theorem Views.find?_frame (h : Views v s g fr) :
    s.currentFrame.find? (.text x) = fr.lookup x := by
  rw [h.frame, find?_scopeWith]
  simp

theorem Views.plain (h : Views v s g fr) {w : Value} (hx : g.lookup x = some (.value w)) :
    w.Plain := by
  cases h.fits _ (lookup_mem hx) with
  | value hw => exact hw

/-- The parameters of the innermost call hide the globals. -/
theorem get_parameter (h : Views v s g fr) {w : Value} (hx : fr.lookup x = some w) :
    s.get (.str x) = .ok w := by
  simp [Store.get, keyOf, Json.key?, h.find?_frame, hx, bind, Except.bind, pure, Except.pure]

theorem get_value (h : Views v s g fr) (hp : fr.lookup x = none) {w : Value}
    (hx : g.lookup x = some (.value w)) : s.get (.str x) = .ok w := by
  have hw := h.plain hx
  simp only [Store.get, keyOf, Json.key?, h.find?_frame, hp, h.find?_globals, hx, bind, Except.bind]
  cases hw <;> rfl

/-- A function is no value of its name. -/
theorem get_function (h : Views v s g fr) (hp : fr.lookup x = none) {ps : List Text} {body : Node}
    (hx : g.lookup x = some (.function ps body)) :
    s.get (.str x) = .error (.fault (.functionAsValue (.str x))) := by
  simp only [Store.get, keyOf, Json.key?, h.find?_frame, hp, h.find?_globals, hx, bind, Except.bind]
  rfl

theorem get_nothing (h : Views v s g fr) (hp : fr.lookup x = none) (hx : g.lookup x = none) :
    s.get (.str x) = .error (.fault (.undeclared (.str x))) := by
  simp only [Store.get, keyOf, Json.key?, h.find?_frame, hp, h.find?_globals, hx, bind, Except.bind]
  rfl

theorem getFunction_function (h : Views v s g fr) {ps : List Text} {body : Node}
    (hx : g.lookup x = some (.function ps body)) :
    s.getFunction (.str x) = .ok ⟨.str x, ps.map .str, body⟩ := by
  simp only [Store.getFunction, keyOf, Json.key?, h.find?_globals, hx, bind, Except.bind]
  rfl

/-- Whatever else the name stands for, it is no function, and neither is an undeclared name. -/
theorem getFunction_other (h : Views v s g fr)
    (hx : ∀ ps body, g.lookup x ≠ some (.function ps body)) :
    s.getFunction (.str x) = .error (.fault (.notFunction (.str x))) := by
  simp only [Store.getFunction, keyOf, Json.key?, h.find?_globals, bind, Except.bind]
  rcases hb : g.lookup x with _ | b
  · rfl
  · cases b with
    | value w =>
      have hw := h.plain hb
      cases hw <;> rfl
    | function ps body => exact absurd hb (hx ps body)

end looking

/-! ## Calls -/

theorem frameOf_zip (ps : List Text) (args : List Value) :
    (ps.map Json.str).zip args = frameOf (ps.zip args) := by
  rw [frameOf, scopeWith, List.zip_map_left]
  rfl

/-- Inside a call, the frame is the parameters with the arguments, and the globals are the same. -/
theorem Views.enter {v : Vocabulary} {s : Store} {g : Globals} {fr : Frame} (h : Views v s g fr)
    {x : Text} {ps : List Text} {body : Node} (hx : g.lookup x = some (.function ps body))
    {args : List Value} (hc : checkCall ⟨.str x, ps.map .str, body⟩ args = .ok ()) :
    ∃ inner, s.enter ⟨.str x, ps.map .str, body⟩ args = .ok inner ∧
      Views v inner g (ps.zip args) := by
  have hdeclares := Store.declares_of_getFunction (getFunction_function h hx)
  obtain ⟨inner, he, hsound⟩ := Store.sound_enter h.sound hdeclares hc
  refine ⟨inner, he, hsound, ?_, ?_, h.fits, h.once⟩
  · rw [Store.enter_eq (h.sound.distinct hdeclares)] at he
    cases he
    exact h.globals
  · rw [Store.enter_eq (h.sound.distinct hdeclares)] at he
    cases he
    exact frameOf_zip ps args

/-! ## Declarations -/

section declaring

variable {v : Vocabulary} {s : Store} {g : Globals} {x : Text}

/-- A declaration adds one global whose name was free. -/
theorem Views.append (h : Views v s g []) (hx : g.lookup x = none) {b : Binding}
    (hb : Fits v (x, b)) {s' : Store} (hs : s'.Sound)
    (heq : s' = { s with globals := s.globals ++ [(.str x, valueOf x b)] }) :
    Views v s' (g ++ [(x, b)]) [] := by
  subst heq
  refine ⟨hs, ?_, h.frame, ?_, ?_⟩
  · rw [h.globals]
    simp [scopeOf, scopeWith]
  · intro c hc
    rcases List.mem_append.1 hc with hc | hc
    · exact h.fits c hc
    · rw [List.mem_singleton.1 hc]
      exact hb
  · rw [List.map_append, List.nodup_append]
    refine ⟨h.once, by simp, ?_⟩
    intro y hy z hz hyz
    obtain ⟨c, hc, rfl⟩ := List.mem_map.1 hy
    have hne := List.lookup_eq_none_iff.1 hx c hc
    simp only [List.map_cons, List.map_nil, List.mem_singleton] at hz
    simp [hyz, hz] at hne

theorem declareVariable_new (h : Views v s g []) (hx : g.lookup x = none) (w : Value) :
    s.declareVariable (.str x) w = .ok { s with globals := s.globals ++ [(.str x, w)] } := by
  simp only [Store.declareVariable, keyOf, Json.key?, h.find?_globals, hx, bind, Except.bind]
  rfl

/-- A name is declared once, whatever it stands for. -/
theorem declareVariable_bound (h : Views v s g []) {b : Binding} (hx : g.lookup x = some b)
    (w : Value) :
    s.declareVariable (.str x) w = .error (.fault (.alreadyDeclared (.str x))) := by
  simp only [Store.declareVariable, keyOf, Json.key?, h.find?_globals, hx, bind, Except.bind]
  rfl

/-- The parameters seen so far are all different, so each is let through. -/
theorem checkParams_append (name : Json) (seen : List Text) {before : List Text}
    (rest : List Text) (hn : before.Nodup) (hs : ∀ p ∈ before, p ∉ seen) :
    Store.checkParams name (seen.map .text) ((before ++ rest).map .str) =
      Store.checkParams name ((before.reverse ++ seen).map .text) (rest.map .str) := by
  induction before generalizing seen with
  | nil => rfl
  | cons p before ih =>
    rw [List.nodup_cons] at hn
    have hfree : (seen.map Key.text).contains (.text p) = false := by
      have := hs p (by simp)
      simpa using this
    simp only [List.cons_append, List.map_cons, Store.checkParams, keyOf, Json.key?, bind,
      Except.bind, hfree, Bool.false_eq_true, if_false]
    rw [← List.map_cons (f := Key.text), ih _ hn.2]
    · simp
    · intro q hq hmem
      rcases List.mem_cons.1 hmem with rfl | hmem
      · exact hn.1 hq
      · exact hs q (by simp [hq]) hmem

theorem checkParams_nodup {name : Json} {ps : List Text} (h : ps.Nodup) :
    Store.checkParams name [] (ps.map .str) = .ok () := by
  have hall := checkParams_append name [] [] h (by simp)
  rw [List.append_nil] at hall
  exact hall

/-- The first parameter that was there before is the one that is reported. -/
theorem checkParams_repeats {name : Json} {ps : List Text} {p : Text} (h : Repeats ps p) :
    Store.checkParams name [] (ps.map .str) =
      .error (.fault (.repeatedParameter (.str p) name)) := by
  obtain ⟨before, after, rfl, hp, hn⟩ := h
  have hall := checkParams_append name [] (p :: after) hn (by simp)
  have hseen : ((before.reverse ++ []).map Key.text).contains (.text p) = true := by
    simpa using hp
  rw [List.map_nil] at hall
  rw [hall, List.map_cons, Store.checkParams]
  simp only [keyOf, Json.key?, bind, Except.bind, hseen, if_true]

/-- Either all parameters are different or one of them is the first to be repeated. -/
theorem nodup_or_repeats (ps : List Text) : ps.Nodup ∨ ∃ p, Repeats ps p := by
  have step : ∀ (rest before : List Text), before.Nodup →
      (before ++ rest).Nodup ∨ ∃ p, Repeats (before ++ rest) p := by
    intro rest
    induction rest with
    | nil =>
      intro before h
      exact Or.inl (by simpa using h)
    | cons p rest ih =>
      intro before h
      by_cases hp : p ∈ before
      · exact Or.inr ⟨p, before, rest, rfl, hp, h⟩
      · have hnext : (before ++ [p]).Nodup := by
          rw [List.nodup_append]
          refine ⟨h, by simp, ?_⟩
          intro a ha b hb hab
          rw [List.mem_singleton] at hb
          exact hp (hb ▸ hab ▸ ha)
        have hrest := ih (before ++ [p]) hnext
        rwa [List.append_assoc] at hrest
  exact step ps [] List.nodup_nil

section functions

variable {ps : List Text} (body : Node)

theorem declareFunction_new (h : Views v s g []) (hx : g.lookup x = none) (hp : ps.Nodup) :
    s.declareFunction (.str x) (ps.map .str) body =
      .ok (⟨.str x, ps.map .str, body⟩,
        { s with globals := s.globals ++ [(.str x, valueOf x (.function ps body))] }) := by
  simp only [Store.declareFunction, keyOf, Json.key?, h.find?_globals, hx, bind, Except.bind,
    checkParams_nodup hp]
  rfl

/-- The name is looked at before the parameters are. -/
theorem declareFunction_bound (h : Views v s g []) {b : Binding} (hx : g.lookup x = some b) :
    s.declareFunction (.str x) (ps.map .str) body =
      .error (.fault (.alreadyDeclared (.str x))) := by
  simp only [Store.declareFunction, keyOf, Json.key?, h.find?_globals, hx, bind, Except.bind]
  rfl

theorem declareFunction_repeats (h : Views v s g []) (hx : g.lookup x = none) {p : Text}
    (hp : Repeats ps p) :
    s.declareFunction (.str x) (ps.map .str) body =
      .error (.fault (.repeatedParameter (.str p) (.str x))) := by
  simp only [Store.declareFunction, keyOf, Json.key?, h.find?_globals, hx, bind, Except.bind,
    checkParams_repeats hp]
  rfl

end functions

end declaring

/-! ## Assignments -/

section assigning

variable {v : Vocabulary} {s : Store} {g : Globals} {x : Text}

theorem map_fst_reassign (g : Globals) (x : Text) (w : Value) :
    (reassign g x w).map (·.1) = g.map (·.1) := by
  rw [reassign, List.map_map]
  apply List.map_congr_left
  intro b _
  simp only [Function.comp_apply]
  split
  · rename_i h
    exact h.symm
  · rfl

theorem reassign_of_notMem {g : Globals} (w : Value) (h : x ∉ g.map (·.1)) :
    reassign g x w = g := by
  rw [reassign]
  conv => rhs; rw [← List.map_id g]
  apply List.map_congr_left
  intro b hb
  rw [if_neg fun hbx => h (List.mem_map.2 ⟨b, hb, hbx⟩)]
  rfl

/-- The name stands once, so the only binding that a store replaces is the one of the rules. -/
theorem bind_scopeOf {g : Globals} {b : Binding} (hx : g.lookup x = some b)
    (hn : (g.map (·.1)).Nodup) (w : Value) :
    (scopeOf g).bind (.text x) (.str x) w = scopeOf (reassign g x w) := by
  induction g with
  | nil => cases hx
  | cons c g ih =>
    obtain ⟨y, c⟩ := c
    rw [List.map_cons, List.nodup_cons] at hn
    by_cases h : y = x
    · subst h
      have hrest := reassign_of_notMem w hn.1
      simp only [scopeOf, scopeWith, List.map_cons, Scope.bind, Json.key?, if_true, reassign]
        at hrest ⊢
      rw [hrest]
      rfl
    · have hbeq : (x == y) = false := by simp [Ne.symm h]
      rw [List.lookup_cons, hbeq] at hx
      have hrest := ih hx hn.2
      simp only [scopeOf, scopeWith, List.map_cons, Scope.bind, Json.key?, reassign, h,
        Option.some.injEq, Key.text.injEq, if_false] at hrest ⊢
      rw [hrest]

/-- An assignment replaces the value of a variable where it stands. -/
theorem assign_value (h : Views v s g []) {old : Value} (hx : g.lookup x = some (.value old))
    (w : Value) :
    s.assign (.str x) w = .ok { s with globals := scopeOf (reassign g x w) } := by
  have hold := h.plain hx
  rw [← bind_scopeOf hx h.once, ← h.globals]
  simp only [Store.assign, keyOf, Json.key?, h.find?_globals, hx, bind, Except.bind]
  cases hold <;> rfl

theorem assign_function (h : Views v s g []) {ps : List Text} {body : Node}
    (hx : g.lookup x = some (.function ps body)) (w : Value) :
    s.assign (.str x) w = .error (.fault (.assignedFunction (.str x))) := by
  simp only [Store.assign, keyOf, Json.key?, h.find?_globals, hx, bind, Except.bind]
  rfl

theorem assign_nothing (h : Views v s g []) (hx : g.lookup x = none) (w : Value) :
    s.assign (.str x) w = .error (.fault (.undeclared (.str x))) := by
  simp only [Store.assign, keyOf, Json.key?, h.find?_globals, hx, bind, Except.bind]
  rfl

theorem Views.reassign (h : Views v s g []) {old w : Value} (hw : w.Plain)
    (hx : g.lookup x = some (.value old)) :
    Views v { s with globals := scopeOf (reassign g x w) } (reassign g x w) [] := by
  refine ⟨Store.sound_assign h.sound hw (assign_value h hx w), rfl, h.frame, ?_, ?_⟩
  · intro b hb
    obtain ⟨c, hc, rfl⟩ := List.mem_map.1 hb
    split
    · exact .value hw
    · exact h.fits c hc
  · rw [map_fst_reassign]
    exact h.once

end assigning

end BellaLang
