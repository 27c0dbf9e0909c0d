-- The bounds of a run. A run that is cut short, because its calls nest too
-- deeply or a loop goes too many rounds, has no outcome yet; a run that is not
-- cut short ends just so under every larger bound.
import BellaLang.Execute
import BellaLang.Proofs.Looking

namespace BellaLang

/-- The ends that only tell that a bound was reached. -/
def Stop.IsBound : Stop → Prop
  | .tooDeep => True
  | .outOfFuel => True
  | _ => False

/-- Whether a result is one of the given ends. -/
def EndsBy (ends : Stop → Prop) {α : Type} : Except Stop α → Prop
  | .ok _ => False
  | .error e => ends e

/-- Whether a result only tells that a bound was reached. -/
abbrev Cut {α : Type} (x : Except Stop α) : Prop := EndsBy Stop.IsBound x

namespace Action

/-! ## The order of actions -/

section order

variable {α β : Type} {ends : Stop → Prop}

/-- Wherever the first action does not end in one of these ways, the second one does just the
same. -/
def Below (ends : Stop → Prop) (x y : Action α) : Prop :=
  ∀ m, ¬ EndsBy ends (x m).1 → y m = x m

theorem below_refl (x : Action α) : Below ends x x := fun _ _ => rfl

theorem below_stop {e : Stop} (he : ends e) (y : Action α) : Below ends (stop e) y :=
  fun _ h => absurd he h

theorem below_bind {x y : Action α} {f g : α → Action β} (hxy : Below ends x y)
    (hfg : ∀ a, Below ends (f a) (g a)) : Below ends (x >>= f) (y >>= g) := by
  intro m h
  rcases hx : x m with ⟨e | a, m'⟩
  · rw [bind_error hx] at h ⊢
    have hy := hxy m (by rw [hx]; exact h)
    rw [bind_error (hy.trans hx)]
  · rw [bind_ok hx] at h ⊢
    have hy := hxy m (by rw [hx]; exact id)
    rw [bind_ok (hy.trans hx)]
    exact hfg a m' h

theorem below_inside {x y : Action α} (f : Function) (args : List Value)
    (h : Below ends x y) : Below ends (inside f args x) (inside f args y) := by
  rintro ⟨s, log⟩ hc
  rcases he : s.enter f args with e | inner
  · rw [inside_error he, inside_error he]
  · rw [inside_ok he] at hc ⊢
    rw [inside_ok he, h ⟨inner, log⟩ hc]

end order

end Action

open BellaLang.Action

/-! ## Expressions -/

section expressions

variable {ends : Stop → Prop} {t : Tracing} {call call' : Caller}

theorem below_evaluateAllWith {nodes : List Node}
    (h : ∀ node ∈ nodes, Below ends (evaluateWith t call node) (evaluateWith t call' node)) :
    Below ends (evaluateAllWith t call nodes) (evaluateAllWith t call' nodes) := by
  induction nodes with
  | nil => exact below_refl _
  | cons node nodes ih =>
    rw [evaluateAllWith, evaluateAllWith]
    apply below_bind (h node (by simp))
    intro value
    exact below_bind (ih fun n hn => h n (by simp [hn])) fun values => below_refl _

/-- Answering more calls changes the value of no expression that had one. -/
theorem below_evaluateWith (h : ∀ f args, Below ends (call f args) (call' f args)) (node : Node) :
    Below ends (evaluateWith t call node) (evaluateWith t call' node) := by
  induction node with
  | unary op operand ih =>
    rw [evaluateWith, evaluateWith]
    exact below_bind ih fun value => below_refl _
  | binary op left right ihl ihr =>
    rw [evaluateWith, evaluateWith]
    apply below_bind ihl
    intro a
    rcases shortCircuit? op with _ | final
    · exact below_bind ihr fun b => below_refl _
    · apply below_bind (below_refl _)
      intro test
      split
      · exact below_refl _
      · exact below_bind ihr fun b => below_refl _
  | conditional test consequent alternate iht ihc iha =>
    rw [evaluateWith, evaluateWith]
    apply below_bind iht
    intro value
    apply below_bind (below_refl _)
    intro holds
    apply below_bind (below_refl _)
    intro _
    split
    · exact ihc
    · exact iha
  | arrayLiteral elements ih =>
    rw [evaluateWith, evaluateWith]
    exact below_bind (below_evaluateAllWith ih) fun values => below_refl _
  | subscript array index iha ihi =>
    rw [evaluateWith, evaluateWith]
    apply below_bind iha
    intro target
    exact below_bind ihi fun position => below_refl _
  | call callee args ih =>
    rw [evaluateWith, evaluateWith]
    apply below_bind (below_refl _)
    intro f
    exact below_bind (below_evaluateAllWith ih) fun values => h f values
  | _ => exact below_refl _

theorem below_invoke (hends : ends .tooDeep) {depth depth' : Nat} (h : depth ≤ depth')
    (f : Function) (args : List Value) :
    Below ends (invoke t depth f args) (invoke t depth' f args) := by
  induction depth generalizing depth' f args with
  | zero => exact below_stop hends _
  | succ depth ih =>
    obtain ⟨depth', rfl⟩ : ∃ d, depth' = d + 1 := ⟨depth' - 1, by omega⟩
    rw [invoke, invoke]
    apply below_bind (below_refl _)
    intro _
    apply below_bind (below_refl _)
    intro _
    apply below_bind (below_inside f args (below_evaluateWith (ih (by omega)) f.body))
    intro result
    exact below_refl _

end expressions

/-! ## Statements -/

theorem below_repeatWhile {ends : Stop → Prop} (hends : ends .outOfFuel) {rounds rounds' : Nat}
    {test test' : Action Bool} {body body' : Action Unit} (hr : rounds ≤ rounds')
    (ht : Below ends test test') (hb : Below ends body body') :
    Below ends (repeatWhile rounds test body) (repeatWhile rounds' test' body') := by
  induction rounds generalizing rounds' with
  | zero => exact below_stop hends _
  | succ rounds ih =>
    obtain ⟨rounds', rfl⟩ : ∃ r, rounds' = r + 1 := ⟨rounds' - 1, by omega⟩
    rw [repeatWhile, repeatWhile]
    apply below_bind ht
    intro holds
    split
    · exact below_bind hb fun _ => ih (by omega)
    · exact below_refl _

/-- The second settings trace the same and have bounds that are no smaller. A bound may only be
larger if reaching it is one of the given ends. -/
structure Settings.Within (ends : Stop → Prop) (s s' : Settings) : Prop where
  tracing : s'.toTracing = s.toTracing
  depth : s.depth = s'.depth ∨ ends .tooDeep ∧ s.depth ≤ s'.depth
  rounds : s.rounds ≤ s'.rounds
  outOfFuel : ends .outOfFuel

section statements

variable {ends : Stop → Prop} {s s' : Settings}

theorem below_evaluate (h : s.Within ends s') (node : Node) :
    Below ends (evaluate s.toTracing s.depth node) (evaluate s.toTracing s'.depth node) := by
  rcases h.depth with heq | ⟨hends, hle⟩
  · rw [heq]
    exact below_refl _
  · exact below_evaluateWith (below_invoke hends hle) node

theorem below_loopTest (h : s.Within ends s') (test : Node) :
    Below ends (loopTest s test) (loopTest s' test) := by
  rw [loopTest, loopTest, h.tracing]
  exact below_bind (below_evaluate h test) fun value => below_refl _

theorem below_executeAll {nodes : List Node}
    (h : ∀ node ∈ nodes, Below ends (execute s node) (execute s' node)) :
    Below ends (executeAll s nodes) (executeAll s' nodes) := by
  induction nodes with
  | nil => exact below_refl _
  | cons node nodes ih =>
    rw [executeAll, executeAll]
    exact below_bind (h node (by simp)) fun _ => ih fun n hn => h n (by simp [hn])

/-- Larger bounds change nothing in a statement that was not cut short. The body of a loop is
a node of its own, so blocks are part of the induction. -/
theorem below_execute (h : s.Within ends s') (node : Node) :
    Below ends (execute s node) (execute s' node) ∧
      Below ends (executeBlock s node) (executeBlock s' node) := by
  induction node with
  | block statements ih =>
    simp only [execute, executeBlock]
    exact ⟨below_refl _, below_executeAll fun n hn => (ih n hn).1⟩
  | variableDeclaration name expr =>
    simp only [execute, executeBlock, h.tracing]
    refine ⟨?_, below_refl _⟩
    exact below_bind (below_evaluate h expr) fun value => below_refl _
  | functionDeclaration name params body =>
    simp only [execute, executeBlock, h.tracing]
    exact ⟨below_refl _, below_refl _⟩
  | assignment name expr =>
    simp only [execute, executeBlock, h.tracing]
    refine ⟨?_, below_refl _⟩
    exact below_bind (below_evaluate h expr) fun value => below_refl _
  | printStatement expr =>
    simp only [execute, executeBlock, h.tracing]
    refine ⟨?_, below_refl _⟩
    exact below_bind (below_evaluate h expr) fun value => below_refl _
  | whileStatement test body _ ihb =>
    simp only [execute, executeBlock]
    refine ⟨?_, below_refl _⟩
    exact below_repeatWhile h.outOfFuel h.rounds (below_loopTest h test) ihb.2
  | _ =>
    simp only [execute, executeBlock]
    exact ⟨below_refl _, below_refl _⟩

theorem below_runProgram (h : s.Within ends s') (program : Node) :
    Below ends (runProgram s program) (runProgram s' program) := by
  rw [runProgram, runProgram, h.tracing]
  apply below_bind (below_refl _)
  intro _
  refine below_bind ?_ fun _ => below_refl _
  cases program with
  | program block => exact (below_execute h block).2
  | _ => exact below_refl _

/-- Loops that came to an end do so just the same with more rounds. -/
theorem run_more_rounds {t : Tracing} {depth rounds more : Nat} {program : Node}
    (hr : rounds ≤ more) (h : (run ⟨t, depth, rounds⟩ program).1 ≠ .error .outOfFuel) :
    run ⟨t, depth, more⟩ program = run ⟨t, depth, rounds⟩ program := by
  have hwithin : Settings.Within (· = .outOfFuel) ⟨t, depth, rounds⟩ ⟨t, depth, more⟩ :=
    ⟨rfl, Or.inl rfl, hr, rfl⟩
  apply below_runProgram hwithin program .start
  change ¬ EndsBy _ (run ⟨t, depth, rounds⟩ program).1
  rcases hrun : (run ⟨t, depth, rounds⟩ program).1 with e | _
  · intro he
    rw [hrun] at h
    exact h (congrArg _ he)
  · exact id

end statements

end BellaLang
