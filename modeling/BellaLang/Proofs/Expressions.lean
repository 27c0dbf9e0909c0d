-- Expressions come to what the rules say. What the evaluator answers follows
-- from the rules, unless it was cut short; and what follows from the rules is
-- answered as soon as calls may nest deeply enough.
import BellaLang.Proofs.Operators
import BellaLang.Proofs.Views
import BellaLang.Proofs.Walk

namespace BellaLang

open Rules

/-! ## Results that meet a specification -/

/-- The result is one that is specified, or the run was cut short. A defect meets nothing. -/
def Meets {α : Type} (P : Except Fault α → Prop) : Except Stop α → Prop
  | .ok a => P (.ok a)
  | .error (.fault f) => P (.error f)
  | .error (.defect _) => False
  | .error .tooDeep => True
  | .error .outOfFuel => True

section meets

variable {α β : Type} {P : Except Fault α → Prop} {Q : Except Fault β → Prop}

theorem Meets.mono {x : Except Stop α} {P' : Except Fault α → Prop} (h : Meets P x)
    (hp : ∀ r, P r → P' r) : Meets P' x := by
  rcases x with e | a
  · cases e with
    | fault f => exact hp _ h
    | defect d => exact h
    | tooDeep => trivial
    | outOfFuel => trivial
  · exact hp _ h

theorem meets_mapError {r : Except Fault α} (h : P r) : Meets P (r.mapError .fault) := by
  rcases r with f | a <;> exact h

/-- What a sequence meets is decided by its first part, if that is at fault, and else by its second.
-/
theorem meets_bind {x : Except Stop α} {k : α → Except Stop β} (hx : Meets P x)
    (hok : ∀ a, x = .ok a → P (.ok a) → Meets Q (k a))
    (herror : ∀ f, P (.error f) → Q (.error f)) : Meets Q (x >>= k) := by
  rcases x with e | a
  · cases e with
    | fault f => exact herror f hx
    | defect d => exact hx
    | tooDeep => trivial
    | outOfFuel => trivial
  · exact hok a rfl hx

end meets

/-! ## Answers in the long run -/

/-- From some bound on, the answer is the given one. -/
def Settles {α : Type} (x : Nat → Except Stop α) (r : Except Fault α) : Prop :=
  ∃ least, ∀ depth, least ≤ depth → x depth = r.mapError .fault

section settles

variable {α β : Type} {x : Nat → Except Stop α} {k : Nat → α → Except Stop β}

theorem settles_const (r : Except Fault α) : Settles (fun _ => r.mapError .fault) r :=
  ⟨0, fun _ _ => rfl⟩

/-- The long run is the same from the next depth on. -/
theorem settles_succ {r : Except Fault α} (h : Settles (fun depth => x (depth + 1)) r) :
    Settles x r := by
  obtain ⟨least, h⟩ := h
  refine ⟨least + 1, fun depth hd => ?_⟩
  obtain ⟨d, rfl⟩ : ∃ d, depth = d + 1 := ⟨depth - 1, by omega⟩
  exact h d (by omega)

/-- Two answers that settle do so together from the larger of their depths on. -/
theorem settles_bind {a : α} {r : Except Fault β} (hx : Settles x (.ok a))
    (hk : Settles (fun depth => k depth a) r) : Settles (fun depth => x depth >>= k depth) r := by
  obtain ⟨n, hx⟩ := hx
  obtain ⟨m, hk⟩ := hk
  refine ⟨max n m, fun depth hd => ?_⟩
  change x depth >>= k depth = _
  rw [hx depth (by omega)]
  exact hk depth (by omega)

theorem settles_bind_error {f : Fault} (hx : Settles x (.error f)) :
    Settles (fun depth => x depth >>= k depth) (.error f) := by
  obtain ⟨n, hx⟩ := hx
  refine ⟨n, fun depth hd => ?_⟩
  change x depth >>= k depth = _
  rw [hx depth hd]
  rfl

end settles

/-! ## Lists of expressions -/

/-- What some expressions come to: all of them have values, or the first that has none fails. -/
inductive EvaluatesAll (g : Globals) (fr : Frame) :
    List Node → Except Fault (List Value) → Prop
  | all {es : List Node} {vs : List Value} (hl : es.length = vs.length)
      (h : ∀ p ∈ es.zip vs, Evaluates g fr p.1 (.ok p.2)) : EvaluatesAll g fr es (.ok vs)
  | fails (before : List Node) {after : List Node} {e : Node} (vs : List Value) {f : Fault}
      (hl : before.length = vs.length) (h : ∀ p ∈ before.zip vs, Evaluates g fr p.1 (.ok p.2))
      (he : Evaluates g fr e (.error f)) :
      EvaluatesAll g fr (before ++ e :: after) (.error f)

section lists

variable {t : Tracing} {s : Store} {g : Globals} {fr : Frame}

/-- The values of some expressions with one more in front. -/
theorem evaluates_zip_cons {e : Node} {es : List Node} {v : Value} {vs : List Value}
    (he : Evaluates g fr e (.ok v)) (h : ∀ p ∈ es.zip vs, Evaluates g fr p.1 (.ok p.2)) :
    ∀ p ∈ (e :: es).zip (v :: vs), Evaluates g fr p.1 (.ok p.2) := by
  intro p hp
  rw [List.zip_cons_cons] at hp
  rcases List.mem_cons.1 hp with rfl | hp
  · exact he
  · exact h p hp

theorem evaluatesAll_cons {e : Node} {es : List Node} {v : Value} {r : Except Fault (List Value)}
    (he : Evaluates g fr e (.ok v)) (h : EvaluatesAll g fr es r) :
    EvaluatesAll g fr (e :: es) (r.map (v :: ·)) := by
  cases h with
  | all hl h => exact .all (by simp [hl]) (evaluates_zip_cons he h)
  | @fails before after e' vs f hl h he' =>
    exact .fails (e :: before) (v :: vs) (by simp [hl]) (evaluates_zip_cons he h) he'

theorem meets_evaluateAll {depth : Nat} {es : List Node}
    (h : ∀ e ∈ es, Meets (Evaluates g fr e) ((evaluate t depth e).answer s)) :
    Meets (EvaluatesAll g fr es) ((evaluateAll t depth es).answer s) := by
  induction es with
  | nil => exact .all rfl (by simp)
  | cons e es ih =>
    rw [answer_evaluateAll_cons]
    refine meets_bind (h e (by simp)) (fun v _ hv => ?_)
      (fun f hf => .fails [] [] rfl (by simp) hf)
    refine meets_bind (ih fun e' he' => h e' (by simp [he'])) (fun vs _ hvs => ?_)
      (fun f hf => evaluatesAll_cons hv hf)
    exact evaluatesAll_cons hv hvs

theorem settles_evaluateAll {es : List Node} {vs : List Value} (hl : es.length = vs.length)
    (h : ∀ p ∈ es.zip vs, Settles (fun depth => (evaluate t depth p.1).answer s) (.ok p.2)) :
    Settles (fun depth => (evaluateAll t depth es).answer s) (.ok vs) := by
  induction es generalizing vs with
  | nil =>
    obtain rfl := List.length_eq_zero_iff.1 hl.symm
    exact ⟨0, fun _ _ => rfl⟩
  | cons e es ih =>
    rcases vs with _ | ⟨v, vs⟩
    · cases hl
    · simp only [answer_evaluateAll_cons]
      apply settles_bind (h (e, v) (by simp))
      apply settles_bind (ih (by simpa using hl) fun p hp => h p (by simp [hp]))
      exact settles_const (.ok (v :: vs))

/-- The first expression at fault settles the whole list. -/
theorem settles_evaluateAll_error {before after : List Node} {e : Node} {vs : List Value}
    {f : Fault} (hl : before.length = vs.length)
    (h : ∀ p ∈ before.zip vs, Settles (fun depth => (evaluate t depth p.1).answer s) (.ok p.2))
    (he : Settles (fun depth => (evaluate t depth e).answer s) (.error f)) :
    Settles (fun depth => (evaluateAll t depth (before ++ e :: after)).answer s) (.error f) := by
  induction before generalizing vs with
  | nil =>
    simp only [List.nil_append, answer_evaluateAll_cons]
    exact settles_bind_error he
  | cons e' before ih =>
    rcases vs with _ | ⟨v, vs⟩
    · cases hl
    · simp only [List.cons_append, answer_evaluateAll_cons]
      apply settles_bind (h (e', v) (by simp))
      exact settles_bind_error (ih (by simpa using hl) fun p hp => h p (by simp [hp]))

end lists

/-! ## Arguments -/

theorem checkArguments_numbers (name : Json) (position : Nat) (xs : List Number) :
    checkArguments name position (xs.map .number) = .ok () := by
  induction xs generalizing position with
  | nil => rfl
  | cons x xs ih => exact ih (position + 1)

theorem checkArguments_first (name : Json) (position : Nat) (xs : List Number) {v : Value}
    (hv : NotNumber v) (rest : List Value) :
    checkArguments name position (xs.map .number ++ v :: rest) =
      .error (.wrongArgument name (position + xs.length) v.kind) := by
  induction xs generalizing position with
  | nil =>
    cases v with
    | number x => exact absurd rfl (hv x)
    | _ => rfl
  | cons x xs ih =>
    have hrest := ih (position + 1)
    rw [List.length_cons, Nat.add_comm xs.length 1, ← Nat.add_assoc, ← hrest]
    rfl

/-- Either all arguments are numbers, or there is a first one that is none. -/
theorem numbers_or_first (vs : List Value) :
    (∃ xs : List Number, vs = xs.map .number) ∨
      ∃ (xs : List Number) (v : Value) (rest : List Value),
        vs = xs.map .number ++ v :: rest ∧ NotNumber v := by
  induction vs with
  | nil => exact Or.inl ⟨[], rfl⟩
  | cons v vs ih =>
    rcases number_or_not v with ⟨x, rfl⟩ | hv
    · rcases ih with ⟨xs, rfl⟩ | ⟨xs, w, rest, rfl, hw⟩
      · exact Or.inl ⟨x :: xs, rfl⟩
      · exact Or.inr ⟨x :: xs, w, rest, rfl, hw⟩
    · exact Or.inr ⟨[], v, vs, rfl, hv⟩

section checks

variable {x : Text} {ps : List Text} {body : Node} {vs : List Value}

theorem arity_str : Function.arity ⟨.str x, ps.map .str, body⟩ = ps.length := List.length_map _

/-- The number of arguments is checked before their kinds. -/
theorem checkCall_arity (h : vs.length ≠ ps.length) :
    checkCall ⟨.str x, ps.map .str, body⟩ vs =
      .error (.wrongArity (.str x) ps.length vs.length) := by
  rw [checkCall, arity_str, if_neg h]

theorem checkCall_length (h : vs.length = ps.length) :
    checkCall ⟨.str x, ps.map .str, body⟩ vs = checkArguments (.str x) 1 vs := by
  rw [checkCall, arity_str, if_pos h]

end checks

/-! ## Calls -/

section calls

variable {v : Vocabulary} {t : Tracing} {s : Store} {g : Globals} {fr : Frame} {x : Text}
  {ps : List Text} {body : Node} {args : List Node}

/-- No expression answers with a function. -/
theorem plain_of_answer {depth : Nat} {node : Node} {w : Value} (hs : s.Sound)
    (h : (evaluate t depth node).answer s = .ok w) : w.Plain :=
  plain_of_evaluate (s := ⟨t, depth, 0⟩) (m := ⟨s, []⟩) hs h

/-- Inside a call of numbers, the body is evaluated with the parameters bound to them; nothing
else is left to go wrong. -/
theorem answer_invoke_numbers (hw : ∀ y, v.declared y → t.Writes y) (h : Views v s g fr)
    (hx : g.lookup x = some (.function ps body)) {xs : List Number}
    (hn : (xs.map Value.number).length = ps.length) :
    ∃ inner, Views v inner g (ps.zip (xs.map .number)) ∧ ∀ depth,
      (invoke t (depth + 1) ⟨.str x, ps.map .str, body⟩ (xs.map .number)).answer s =
        (evaluate t depth body).answer inner := by
  have hcheck : checkCall ⟨.str x, ps.map .str, body⟩ (xs.map .number) = .ok () := by
    rw [checkCall_length hn]
    exact checkArguments_numbers _ _ xs
  obtain ⟨inner, he, hinner⟩ := h.enter hx hcheck
  refine ⟨inner, hinner, fun depth => ?_⟩
  have hname : t.Writes x := by
    cases h.fits _ (lookup_mem hx) with
    | function hdeclared _ _ => exact hw x hdeclared
  have hargs : ∀ a ∈ xs.map Value.number, a.Plain := by
    intro a ha
    obtain ⟨y, _, rfl⟩ := List.mem_map.1 ha
    exact .number y
  rw [answer_invoke_succ, hcheck, he, answer_note_called s hname hargs]
  change ((evaluate t depth body).answer inner >>= fun result => _) = _
  rcases hr : (evaluate t depth body).answer inner with e | w
  · rfl
  · change ((Action.note t (.returned (.str x) w)).answer s >>= fun _ => .ok w) = _
    rw [answer_note_returned s hname (plain_of_answer hinner.sound hr)]
    rfl

theorem answer_call_function (h : Views v s g fr) {x : Text} {ps : List Text} {body : Node}
    (hx : g.lookup x = some (.function ps body)) (args : List Node) (depth : Nat) :
    (evaluate t depth (.call (.str x) args)).answer s =
      (evaluateAll t depth args).answer s >>= fun vs =>
        (invoke t depth ⟨.str x, ps.map .str, body⟩ vs).answer s := by
  rw [answer_call, getFunction_function h hx]
  rfl

theorem answer_invoke_refused {depth : Nat} {f : Function} {vs : List Value} {fault : Fault}
    (hc : checkCall f vs = .error fault) :
    (invoke t (depth + 1) f vs).answer s = .error (.fault fault) := by
  rw [answer_invoke_succ, hc]
  rfl

/-- A call answers what its rule says, if its body does so in the frame of the call. -/
theorem meets_invoke (hw : ∀ y, v.declared y → t.Writes y) (h : Views v s g fr)
    (hx : g.lookup x = some (.function ps body)) {vs : List Value}
    (hl : args.length = vs.length) (hargs : ∀ p ∈ args.zip vs, Evaluates g fr p.1 (.ok p.2))
    {depth : Nat} (hbody : ∀ inner frame, Views v inner g frame →
      Meets (Evaluates g frame body) ((evaluate t depth body).answer inner)) :
    Meets (Evaluates g fr (.call (.str x) args))
      ((invoke t (depth + 1) ⟨.str x, ps.map .str, body⟩ vs).answer s) := by
  by_cases hn : vs.length = ps.length
  · rcases numbers_or_first vs with ⟨xs, rfl⟩ | ⟨xs, w, rest, rfl, hnot⟩
    · obtain ⟨inner, hinner, heq⟩ := answer_invoke_numbers hw h hx hn
      rw [heq]
      exact (hbody inner _ hinner).mono fun r hr => .call hx hl hargs hn hr
    · rw [answer_invoke_refused ((checkCall_length hn).trans
        (checkArguments_first _ 1 xs hnot rest)), Nat.add_comm]
      exact .argumentKind hx hl hargs hn hnot
  · rw [answer_invoke_refused (checkCall_arity hn)]
    exact .arity hx hl hargs hn

end calls

/-! ## Answers follow the rules -/

section sound

variable {v : Vocabulary} {t : Tracing} {s : Store} {g : Globals} {fr : Frame}

theorem meets_get (h : Views v s g fr) (x : Text) : Meets (Stands g fr x) (s.get (.str x)) := by
  rcases hp : fr.lookup x with _ | w
  · rcases hx : g.lookup x with _ | b
    · rw [get_nothing h hp hx]
      exact .nothing hp hx
    · cases b with
      | value w =>
        rw [get_value h hp hx]
        exact .value hp hx
      | function ps body =>
        rw [get_function h hp hx]
        exact .function hp hx
  · rw [get_parameter h hp]
    exact .parameter hp

theorem asTest_of_notBoolean {w : Value} (h : NotBoolean w) :
    asTest w = .error (.conditionalTest w.kind) := by
  cases w with
  | boolean b => exact absurd rfl (h b)
  | _ => rfl

theorem logical_boolean (op : Json) (test final : Bool) (rest : Except Stop Value) :
    ((asBoolean op (.boolean test)).mapError .fault >>= fun b =>
      if b = final then .ok (.boolean final) else rest) =
      if test = final then .ok (.boolean final) else rest := rfl

theorem conditional_boolean (holds : Bool) (rest : Bool → Except Stop Value) :
    ((asTest (.boolean holds)).mapError .fault >>= fun b =>
      (Action.note t (.conditionalTest b)).answer s >>= fun _ => rest b) = rest holds := by
  change ((Action.note t (.conditionalTest holds)).answer s >>= fun _ => rest holds) = _
  rw [answer_note_conditionalTest]
  rfl

/-- A logical operator whose left operand has a value. -/
theorem meets_logical {op : Text} {final : Bool} (hop : (op, final) ∈ logical) {a b : Node}
    {w : Value} (ha : Evaluates g fr a (.ok w)) {answer : Except Stop Value}
    (hb : Meets (Evaluates g fr b) answer) :
    Meets (Evaluates g fr (.binary (.str op) a b))
      ((asBoolean (.str op) w).mapError .fault >>= fun test =>
        if test = final then .ok (.boolean final)
        else answer >>= fun c =>
          (asBoolean (.str op) c).mapError .fault >>= fun result => .ok (.boolean result)) := by
  have hname : op ∈ logical.map (·.1) := List.mem_map.2 ⟨_, hop, rfl⟩
  rcases boolean_or_not w with ⟨test, rfl⟩ | hw
  · rw [logical_boolean]
    split
    · rename_i htest
      subst htest
      exact .decided hop ha
    · rename_i htest
      have hleft : test = !final := by cases test <;> cases final <;> simp_all
      subst hleft
      refine meets_bind hb (fun c _ hc => ?_) (fun f hf => .logicalRightFails hop ha hf)
      rcases boolean_or_not c with ⟨result, rfl⟩ | hnot
      · exact .undecided hop ha hc
      · rw [asBoolean_of_notBoolean hnot]
        exact .logicalRight hop ha hc hnot
  · rw [asBoolean_of_notBoolean hw]
    exact .logicalLeft hname ha hw

/-- A conditional whose test has a value. -/
theorem meets_conditional {test consequent alternate : Node} {w : Value}
    (ht : Evaluates g fr test (.ok w)) (answer : Node → Except Stop Value)
    (hc : Meets (Evaluates g fr consequent) (answer consequent))
    (ha : Meets (Evaluates g fr alternate) (answer alternate)) :
    Meets (Evaluates g fr (.conditional test consequent alternate))
      ((asTest w).mapError .fault >>= fun holds =>
        (Action.note t (.conditionalTest holds)).answer s >>= fun _ =>
          answer (if holds then consequent else alternate)) := by
  rcases boolean_or_not w with ⟨holds, rfl⟩ | hw
  · rw [conditional_boolean]
    cases holds with
    | true => exact hc.mono fun r hr => .consequent ht hr
    | false => exact ha.mono fun r hr => .alternate ht hr
  · rw [asTest_of_notBoolean hw]
    exact .testKind ht hw

/-- What an expression is answered with follows from the rules, if the answers of calls do. -/
theorem meets_evaluate_of_calls {depth : Nat} (h : Views v s g fr)
    (hcall : ∀ x ps body args vs, g.lookup x = some (.function ps body) →
      args.length = vs.length → (∀ p ∈ args.zip vs, Evaluates g fr p.1 (.ok p.2)) →
      Meets (Evaluates g fr (.call (.str x) args))
        ((invoke t depth ⟨.str x, ps.map .str, body⟩ vs).answer s))
    {node : Node} (hn : node.IsExpr v) :
    Meets (Evaluates g fr node) ((evaluate t depth node).answer s) := by
  induction hn with
  | numeral _ => exact .numeral _
  | booleanLiteral b => exact .booleanLiteral b
  | @identifier x _ =>
    rw [answer_identifier]
    exact (meets_get h x).mono fun r hr => .identifier hr
  | unary _ _ ih =>
    rw [answer_unary]
    refine meets_bind ih (fun w _ hw => ?_) (fun f hf => .unaryFails hf)
    exact meets_mapError (.unary hw (unary_iff.2 rfl))
  | @binary op left right _ _ _ ihl ihr =>
    rcases hop : shortCircuit? (.str op) with _ | final
    · rw [answer_binary_plain s hop]
      have hnot := shortCircuit?_eq_none.1 hop
      refine meets_bind ihl (fun a _ ha => ?_) (fun f hf => .leftFails hf)
      refine meets_bind ihr (fun b _ hb => ?_) (fun f hf => .rightFails hnot ha hf)
      exact meets_mapError (.binary hnot ha hb (binary_iff.2 rfl))
    · rw [answer_binary_logical s hop]
      refine meets_bind ihl (fun a _ ha => ?_) (fun f hf => .leftFails hf)
      exact meets_logical (shortCircuit?_eq_some hop) ha ihr
  | conditional _ _ _ iht ihc iha =>
    rw [answer_conditional]
    refine meets_bind iht (fun w _ hw => ?_) (fun f hf => .testFails hf)
    exact meets_conditional hw (fun node => (evaluate t _ node).answer s) ihc iha
  | arrayLiteral _ ih =>
    rw [answer_arrayLiteral]
    refine meets_bind (meets_evaluateAll ih) (fun vs _ hvs => ?_) (fun f hf => ?_)
    · cases hvs with
      | all hl hall => exact .arrayLiteral hl hall
    · cases hf with
      | fails _ _ hl hall he => exact .elementFails hl hall he
  | subscript _ _ iha ihi =>
    rw [answer_subscript]
    refine meets_bind iha (fun a _ ha => ?_) (fun f hf => .targetFails hf)
    refine meets_bind ihi (fun i _ hi => ?_) (fun f hf => .indexFails ha hf)
    exact meets_mapError (.subscript ha hi (subscript_iff.2 rfl))
  | @call callee args _ _ ih =>
    by_cases hf : ∃ ps body, g.lookup callee = some (.function ps body)
    · obtain ⟨ps, body, hx⟩ := hf
      rw [answer_call_function h hx]
      refine meets_bind (meets_evaluateAll ih) (fun vs _ hvs => ?_) (fun f hf => ?_)
      · cases hvs with
        | all hl hall => exact hcall callee ps body args vs hx hl hall
      · cases hf with
        | fails _ _ hl hall he => exact .argumentFails hx hl hall he
    · have hnot : ∀ ps body, g.lookup callee ≠ some (.function ps body) :=
        fun ps body hx => hf ⟨ps, body, hx⟩
      rw [answer_call, getFunction_other h hnot]
      exact .notCallable hnot

/-- Whatever an expression is answered with follows from the rules, and it is no defect. -/
theorem meets_evaluate (hw : ∀ y, v.declared y → t.Writes y) (h : Views v s g fr) {node : Node}
    (hn : node.IsExpr v) (depth : Nat) :
    Meets (Evaluates g fr node) ((evaluate t depth node).answer s) := by
  induction depth generalizing s fr node with
  | zero =>
    refine meets_evaluate_of_calls h (fun x ps body args vs _ _ _ => ?_) hn
    rw [answer_invoke_zero]
    trivial
  | succ depth ih =>
    refine meets_evaluate_of_calls h (fun x ps body args vs hx hl hargs => ?_) hn
    apply meets_invoke hw h hx hl hargs
    intro inner frame hinner
    cases h.fits _ (lookup_mem hx) with
    | function _ _ hbody => exact ih hinner hbody

end sound

/-! ## What follows from the rules is answered -/

section complete

variable {v : Vocabulary} {t : Tracing} {s : Store} {g : Globals} {fr : Frame}

/-- A name is answered in one way only. -/
theorem get_of_stands (h : Views v s g fr) {x : Text} {r : Result} (hr : Stands g fr x r) :
    s.get (.str x) = r.mapError .fault := by
  cases hr with
  | parameter hp => exact get_parameter h hp
  | value hp hx => exact get_value h hp hx
  | function hp hx => exact get_function h hp hx
  | nothing hp hx => exact get_nothing h hp hx

theorem settles_call (h : Views v s g fr) {x : Text} {ps : List Text} {body : Node}
    {args : List Node} {vs : List Value} {r : Result}
    (hx : g.lookup x = some (.function ps body)) (hl : args.length = vs.length)
    (hargs : ∀ p ∈ args.zip vs, Settles (fun depth => (evaluate t depth p.1).answer s) (.ok p.2))
    (hcall : Settles (fun depth =>
      (invoke t (depth + 1) ⟨.str x, ps.map .str, body⟩ vs).answer s) r) :
    Settles (fun depth => (evaluate t depth (.call (.str x) args)).answer s) r := by
  simp only [answer_call_function h hx]
  exact settles_bind (settles_evaluateAll hl hargs) (settles_succ hcall)

theorem settles_refused {f : Function} {vs : List Value} {fault : Fault}
    (hc : checkCall f vs = .error fault) :
    Settles (fun depth => (invoke t (depth + 1) f vs).answer s) (.error fault) :=
  ⟨0, fun _ _ => answer_invoke_refused hc⟩

/-- Whatever follows from the rules is the answer from some depth of calls on. -/
theorem settles_evaluate (hw : ∀ y, v.declared y → t.Writes y) {node : Node} {r : Result}
    (hr : Evaluates g fr node r) (h : Views v s g fr) :
    Settles (fun depth => (evaluate t depth node).answer s) r := by
  induction hr generalizing s with
  | numeral x => exact settles_const (.ok (Value.number x))
  | booleanLiteral b => exact settles_const (.ok (Value.boolean b))
  | identifier hx =>
    simp only [answer_identifier, get_of_stands h hx]
    exact settles_const _
  | unary _ hop ih =>
    simp only [answer_unary]
    apply settles_bind (ih h)
    simp only [unary_iff.1 hop]
    exact settles_const _
  | unaryFails _ ih =>
    simp only [answer_unary]
    exact settles_bind_error (ih h)
  | @leftFails fr op a b f _ ih =>
    rcases hop : shortCircuit? (.str op) with _ | final
    · simp only [answer_binary_plain s hop]
      exact settles_bind_error (ih h)
    · simp only [answer_binary_logical s hop]
      exact settles_bind_error (ih h)
  | binary hop _ _ hab iha ihb =>
    simp only [answer_binary_plain s (shortCircuit?_eq_none.2 hop)]
    apply settles_bind (iha h)
    apply settles_bind (ihb h)
    simp only [binary_iff.1 hab]
    exact settles_const _
  | rightFails hop _ _ iha ihb =>
    simp only [answer_binary_plain s (shortCircuit?_eq_none.2 hop)]
    exact settles_bind (iha h) (settles_bind_error (ihb h))
  | decided hop _ iha =>
    simp only [answer_binary_logical s (shortCircuit?_of_mem hop)]
    apply settles_bind (iha h)
    simp only [logical_boolean, if_true]
    exact settles_const (.ok (Value.boolean _))
  | logicalLeft hop _ hv iha =>
    obtain ⟨⟨_, final⟩, hfinal, rfl⟩ := List.mem_map.1 hop
    simp only [answer_binary_logical s (shortCircuit?_of_mem hfinal)]
    apply settles_bind (iha h)
    simp only [asBoolean_of_notBoolean hv]
    exact settles_const (.error _)
  | undecided hop _ _ iha ihb =>
    simp only [answer_binary_logical s (shortCircuit?_of_mem hop)]
    apply settles_bind (iha h)
    simp only [logical_boolean, Bool.not_eq_self, if_false]
    apply settles_bind (ihb h)
    exact settles_const (.ok (Value.boolean _))
  | logicalRight hop _ _ hv iha ihb =>
    simp only [answer_binary_logical s (shortCircuit?_of_mem hop)]
    apply settles_bind (iha h)
    simp only [logical_boolean, Bool.not_eq_self, if_false]
    apply settles_bind (ihb h)
    simp only [asBoolean_of_notBoolean hv]
    exact settles_const (.error _)
  | logicalRightFails hop _ _ iha ihb =>
    simp only [answer_binary_logical s (shortCircuit?_of_mem hop)]
    apply settles_bind (iha h)
    simp only [logical_boolean, Bool.not_eq_self, if_false]
    exact settles_bind_error (ihb h)
  | consequent _ _ iht ihc =>
    simp only [answer_conditional]
    apply settles_bind (iht h)
    simp only [conditional_boolean, if_true]
    exact ihc h
  | alternate _ _ iht iha =>
    simp only [answer_conditional]
    apply settles_bind (iht h)
    simp only [conditional_boolean, Bool.false_eq_true, if_false]
    exact iha h
  | testKind _ hv iht =>
    simp only [answer_conditional]
    apply settles_bind (iht h)
    simp only [asTest_of_notBoolean hv]
    exact settles_const (.error _)
  | testFails _ iht =>
    simp only [answer_conditional]
    exact settles_bind_error (iht h)
  | arrayLiteral hl _ ih =>
    simp only [answer_arrayLiteral]
    apply settles_bind (settles_evaluateAll hl fun p hp => ih p hp h)
    exact settles_const (.ok _)
  | elementFails hl _ _ ih ihe =>
    simp only [answer_arrayLiteral]
    exact settles_bind_error (settles_evaluateAll_error hl (fun p hp => ih p hp h) (ihe h))
  | subscript _ _ hab iha ihi =>
    simp only [answer_subscript]
    apply settles_bind (iha h)
    apply settles_bind (ihi h)
    simp only [subscript_iff.1 hab]
    exact settles_const _
  | targetFails _ iha =>
    simp only [answer_subscript]
    exact settles_bind_error (iha h)
  | indexFails _ _ iha ihi =>
    simp only [answer_subscript]
    exact settles_bind (iha h) (settles_bind_error (ihi h))
  | notCallable hf =>
    simp only [answer_call, getFunction_other h hf]
    exact settles_const (.error _)
  | argumentFails hf hl _ _ ih ihe =>
    simp only [answer_call_function h hf]
    exact settles_bind_error (settles_evaluateAll_error hl (fun p hp => ih p hp h) (ihe h))
  | arity hf hl _ hn ih =>
    apply settles_call h hf hl fun p hp => ih p hp h
    exact settles_refused (checkCall_arity hn)
  | @argumentKind fr x ps body args xs w rest hf hl _ hn hw ih =>
    apply settles_call h hf hl fun p hp => ih p hp h
    have hfirst := checkArguments_first (.str x) 1 xs hw rest
    rw [Nat.add_comm] at hfirst
    exact settles_refused ((checkCall_length hn).trans hfirst)
  | call hf hl _ hn _ ih ihb =>
    apply settles_call h hf hl fun p hp => ih p hp h
    obtain ⟨inner, hinner, heq⟩ := answer_invoke_numbers hw h hf hn
    simp only [heq]
    exact ihb hinner

end complete

end BellaLang
