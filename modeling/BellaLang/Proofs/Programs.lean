-- Programs do what the rules say: every run that is not cut short ends with an
-- outcome of the rules, and every outcome of the rules is how a run ends once
-- its bounds are large enough. So no program has two outcomes.
import BellaLang.Proofs.Statements

namespace BellaLang

open Rules BellaLang.Action

/-! ## Runs follow the rules -/

def Rules.Outcome.result (o : Outcome) : Except Fault Unit :=
  match o.failure with
  | none => .ok ()
  | some f => .error f

/-- What the rules let some statements do before whatever comes after them. -/
def Derives (g : Globals) (statements : List Node) (lines : List Text) (g' : Globals) :
    Except Fault Unit → Prop
  | .ok _ => ∀ rest o, Executes g' rest o →
      Executes g (statements ++ rest) ⟨lines ++ o.printed, o.globals, o.failure⟩
  | .error f => ∀ rest, Executes g (statements ++ rest) ⟨lines, g', some f⟩

/-- Wherever the action is not cut short, it does what the rules let the statements do. -/
def Follows (v : Vocabulary) (statements : List Node) (act : Action Unit) : Prop :=
  ∀ m g, m.store = topStore g → Ready v g →
    Cut (act m).1 ∨ ∃ r lines g', Does act m r lines g' ∧ Ready v g' ∧
      Derives g statements lines g' r

section follows

variable {v : Vocabulary} {s : Settings} {g : Globals}

theorem derives_nil (g : Globals) : Derives g [] [] g (.ok ()) := fun _ _ h => h

/-- What two lists of statements do one after the other. -/
theorem derives_append {g₁ g₂ : Globals} {first second : List Node} {lines₁ lines₂ : List Text}
    {r : Except Fault Unit} (h₁ : Derives g first lines₁ g₁ (.ok ()))
    (h₂ : Derives g₁ second lines₂ g₂ r) :
    Derives g (first ++ second) (lines₁ ++ lines₂) g₂ r := by
  rcases r with f | a
  · intro rest
    rw [List.append_assoc]
    exact h₁ _ _ (h₂ rest)
  · intro rest o ho
    rw [List.append_assoc, List.append_assoc]
    exact h₁ _ _ (h₂ rest o ho)

theorem cut_bind {α β : Type} {act : Action α} {next : α → Action β} {m : Machine}
    (h : Cut (act m).1) : Cut ((act >>= next) m).1 := by
  rcases ha : act m with ⟨e | a, m'⟩
  · rw [bind_error ha]
    rw [ha] at h
    exact h
  · rw [ha] at h
    exact h.elim

/-- The second action starts where the first one ends, and not at all if that one is at fault. -/
theorem follows_append {first second : List Node} {a b : Action Unit} (ha : Follows v first a)
    (hb : Follows v second b) : Follows v (first ++ second) (a >>= fun _ => b) := by
  intro m g hm hg
  rcases ha m g hm hg with hcut | ⟨r, lines, g₁, hdoes, hg₁, hder⟩
  · exact Or.inl (cut_bind hcut)
  · rcases r with f | u
    · refine Or.inr ⟨.error f, lines, g₁, does_bind_error hdoes, hg₁, ?_⟩
      intro rest
      rw [List.append_assoc]
      exact hder _
    · obtain ⟨m₁, heq, hs₁, hp₁⟩ := hdoes
      rcases hb m₁ g₁ hs₁ hg₁ with hcut | ⟨r, lines₂, g₂, hdoes₂, hg₂, hder₂⟩
      · refine Or.inl ?_
        rw [bind_ok heq]
        exact hcut
      · refine Or.inr ⟨r, lines ++ lines₂, g₂, ?_, hg₂, derives_append hder hder₂⟩
        obtain ⟨m₂, heq₂, hs₂, hp₂⟩ := hdoes₂
        refine ⟨m₂, (bind_ok heq).trans heq₂, hs₂, ?_⟩
        rw [hp₂, hp₁, List.append_assoc]

theorem Meets.cases {α : Type} {P : Except Fault α → Prop} {x : Except Stop α} (h : Meets P x) :
    Cut x ∨ (∃ a, x = .ok a ∧ P (.ok a)) ∨ ∃ f, x = .error (.fault f) ∧ P (.error f) := by
  rcases x with err | w
  · cases err with
    | fault f => exact Or.inr (Or.inr ⟨f, rfl, h⟩)
    | defect d => exact h.elim
    | tooDeep => exact Or.inl trivial
    | outOfFuel => exact Or.inl trivial
  · exact Or.inr (Or.inl ⟨w, rfl, h⟩)

/-- A statement that evaluates an expression first follows the rules if it does so with the
value, and if the rules pass on the failure of the expression. -/
theorem follows_evaluate (hv : v.Traceable s.toTracing) {node e : Node}
    {next : Value → Action Unit} (he : e.IsExpr v)
    (hnode : execute s node = evaluate s.toTracing s.depth e >>= next)
    (hok : ∀ m g w, m.store = topStore g → Ready v g →
      (evaluate s.toTracing s.depth e).answer (topStore g) = .ok w → Evaluates g [] e (.ok w) →
      ∃ r lines g', Does (execute s node) m r lines g' ∧ Ready v g' ∧
        Derives g [node] lines g' r)
    (hfail : ∀ g f rest, Evaluates g [] e (.error f) →
      Executes g (node :: rest) ⟨[], g, some f⟩) :
    Follows v [node] (execute s node) := by
  intro m g hm hg
  rcases (meets_evaluate hv.declared hg he s.depth).cases with hcut | ⟨w, ha, hw⟩ | ⟨f, ha, hf⟩
  · refine Or.inl ?_
    rw [hnode]
    apply cut_bind
    rw [(looks_evaluate _ _).fst_eq, hm]
    exact hcut
  · exact Or.inr (hok m g w hm hg ha hw)
  · refine Or.inr ⟨.error f, [], g, ?_, hg, fun rest => hfail g f rest hf⟩
    rw [hnode]
    exact does_looks_error (looks_evaluate _ _) hm ha

theorem follows_variableDeclaration (hv : v.Traceable s.toTracing) {x : Text} {e : Node}
    (hx : v.declared x) (he : e.IsExpr v) :
    Follows v [.variableDeclaration (.str x) e] (execute s (.variableDeclaration (.str x) e)) := by
  refine follows_evaluate hv he (by rw [execute]) (fun m g w hm hg ha hw => ?_)
    (fun g f rest hf => .letFails hf)
  rcases hb : g.lookup x with _ | b
  · refine ⟨.ok (), [], _, does_letValue hv hg hm ha hb hx,
      hg.declareVariable hb (plain_of_answer hg.sound ha), ?_⟩
    exact fun rest o ho => .letValue hw hb ho
  · refine ⟨.error _, [], g, does_letTwice hg hm ha hb, hg, ?_⟩
    exact fun rest => .letTwice hw hb

theorem follows_functionDeclaration (hv : v.Traceable s.toTracing) {x : Text} {ps : List Text}
    {body : Node} (hx : v.declared x) (hps : ∀ p ∈ ps, v.declared p) (hbody : body.IsExpr v) :
    Follows v [.functionDeclaration (.str x) (ps.map .str) body]
      (execute s (.functionDeclaration (.str x) (ps.map .str) body)) := by
  intro m g hm hg
  refine Or.inr ?_
  rcases hb : g.lookup x with _ | b
  · rcases nodup_or_repeats ps with hp | ⟨p, hp⟩
    · refine ⟨.ok (), [], _, does_define hv hg hm hb hx hp hps,
        hg.declareFunction hb hx hp hbody, ?_⟩
      exact fun rest o ho => .define hb hp ho
    · refine ⟨.error _, [], g, does_define_error hm (declareFunction_repeats body hg hb hp), hg, ?_⟩
      exact fun rest => .parameterTwice hb hp
  · refine ⟨.error _, [], g, does_define_error hm (declareFunction_bound body hg hb), hg, ?_⟩
    exact fun rest => .defineTwice hb

theorem follows_assignment (hv : v.Traceable s.toTracing) {x : Text} {e : Node}
    (hx : v.assigned x) (he : e.IsExpr v) :
    Follows v [.assignment (.str x) e] (execute s (.assignment (.str x) e)) := by
  refine follows_evaluate hv he (by rw [execute]) (fun m g w hm hg ha hw => ?_)
    (fun g f rest hf => .assignFails hf)
  rcases hb : g.lookup x with _ | b
  · refine ⟨.error _, [], g, does_assign_error hm ha (assign_nothing hg hb w), hg, ?_⟩
    exact fun rest => .assignNothing hw hb
  · cases b with
    | value old =>
      refine ⟨.ok (), [], _, does_assign hv hg hm ha hb hx,
        hg.reassign (plain_of_answer hg.sound ha) hb, ?_⟩
      exact fun rest o ho => .assign hw hb ho
    | function ps body =>
      refine ⟨.error _, [], g, does_assign_error hm ha (assign_function hg hb w), hg, ?_⟩
      exact fun rest => .assignFunction hw hb

theorem follows_printStatement (hv : v.Traceable s.toTracing) {e : Node} (he : e.IsExpr v) :
    Follows v [.printStatement e] (execute s (.printStatement e)) := by
  refine follows_evaluate hv he (by rw [execute]) (fun m g w hm hg ha hw => ?_)
    (fun g f rest hf => .printFails hf)
  refine ⟨.ok (), _, g, does_printStatement hm ha, hg, ?_⟩
  exact fun rest o ho => .print hw ho

theorem derives_whileTrue {test : Node} {body : List Node} {lines : List Text} {g' : Globals}
    {r : Except Fault Unit} (ht : Evaluates g [] test (.ok (.boolean true)))
    (h : Derives g (body ++ [.whileStatement test (.block body)]) lines g' r) :
    Derives g [.whileStatement test (.block body)] lines g' r := by
  rcases r with f | u
  · intro rest
    have hrest := h rest
    rw [List.append_assoc] at hrest
    exact .whileTrue ht hrest
  · intro rest o ho
    have hrest := h rest o ho
    rw [List.append_assoc] at hrest
    exact .whileTrue ht hrest

/-- Each round of a loop tests anew, so the rounds are by induction on how many there may be. -/
theorem follows_repeatWhile (hv : v.Traceable s.toTracing) {test : Node} {body : List Node}
    (ht : test.IsExpr v) (hbody : Follows v body (executeAll s body)) (rounds : Nat) :
    Follows v [.whileStatement test (.block body)]
      (repeatWhile rounds (loopTest s test) (executeAll s body)) := by
  induction rounds with
  | zero => exact fun _ _ _ _ => Or.inl trivial
  | succ rounds ih =>
    intro m g hm hg
    rw [repeatWhile]
    have hl := looks_loopTest s test
    rcases (meets_evaluate hv.declared hg ht s.depth).cases with hcut | ⟨w, ha, hw⟩ | ⟨f, ha, hf⟩
    · refine Or.inl (cut_bind ?_)
      rw [hl.fst_eq, hm, answer_loopTest]
      rcases he : (evaluate s.toTracing s.depth test).answer (topStore g) with e | w
      · rw [he] at hcut
        exact hcut
      · rw [he] at hcut
        exact hcut.elim
    · rcases boolean_or_not w with ⟨holds, rfl⟩ | hnot
      · have hanswer := loopTest_boolean ha
        cases holds with
        | true =>
          obtain ⟨m₁, heq, hs₁, hp₁⟩ := looks_topStore hl hm
          rw [hanswer] at heq
          rcases follows_append hbody ih m₁ g hs₁ hg with
            hcut | ⟨r, lines, g', ⟨m₂, heq₂, hs₂, hp₂⟩, hg', hder⟩
          · refine Or.inl ?_
            rw [bind_ok heq]
            exact hcut
          · refine Or.inr ⟨r, lines, g', ?_, hg', derives_whileTrue hw hder⟩
            exact ⟨m₂, (bind_ok heq).trans heq₂, hs₂, by rw [hp₂, hp₁]⟩
        | false =>
          refine Or.inr ⟨.ok (), [], g, does_looks hl hm hanswer fun _ h => does_pure h, hg, ?_⟩
          exact fun rest o ho => .whileFalse hw ho
      · have hanswer := loopTest_notBoolean ha hnot
        refine Or.inr ⟨.error _, [], g, does_looks_error hl hm hanswer, hg, ?_⟩
        exact fun rest => .whileKind hw hnot
    · have hanswer := loopTest_error ha
      refine Or.inr ⟨.error f, [], g, does_looks_error hl hm hanswer, hg, ?_⟩
      exact fun rest => .whileFails hf

theorem follows_executeAll {nodes : List Node}
    (h : ∀ node ∈ nodes, Follows v [node] (execute s node)) :
    Follows v nodes (executeAll s nodes) := by
  induction nodes with
  | nil =>
    intro m g hm hg
    rw [executeAll]
    exact Or.inr ⟨.ok (), [], g, does_pure hm, hg, derives_nil g⟩
  | cons node nodes ih =>
    rw [executeAll]
    exact follows_append (h node (by simp)) (ih fun n hn => h n (by simp [hn]))

/-- One case for each kind of statement; a loop is followed round by round. -/
theorem follows_execute (hv : v.Traceable s.toTracing) {node : Node} (h : node.IsStatement v) :
    Follows v [node] (execute s node) := by
  induction h with
  | variableDeclaration hx he => exact follows_variableDeclaration hv hx he
  | functionDeclaration hx hp hb => exact follows_functionDeclaration hv hx hp hb
  | assignment hx he => exact follows_assignment hv hx he
  | printStatement he => exact follows_printStatement hv he
  | whileStatement ht _ ih =>
    rw [execute, executeBlock]
    exact follows_repeatWhile hv ht (follows_executeAll ih) s.rounds

end follows

/-! ## What follows from the rules is run -/

/-- Whatever the bounds are, if they are large enough. -/
def Eventually (t : Tracing) (P : Settings → Prop) : Prop :=
  ∃ depth rounds, ∀ s : Settings, s.toTracing = t → depth ≤ s.depth → rounds ≤ s.rounds → P s

section eventually

variable {t : Tracing} {P Q : Settings → Prop}

theorem Eventually.mono (h : Eventually t P) (hpq : ∀ s, s.toTracing = t → P s → Q s) :
    Eventually t Q := by
  obtain ⟨depth, rounds, h⟩ := h
  exact ⟨depth, rounds, fun s ht hd hr => hpq s ht (h s ht hd hr)⟩

theorem Eventually.and (hp : Eventually t P) (hq : Eventually t Q) :
    Eventually t fun s => P s ∧ Q s := by
  obtain ⟨d₁, r₁, hp⟩ := hp
  obtain ⟨d₂, r₂, hq⟩ := hq
  refine ⟨max d₁ d₂, max r₁ r₂, fun s ht hd hr => ⟨?_, ?_⟩⟩
  · exact hp s ht (by omega) (by omega)
  · exact hq s ht (by omega) (by omega)

theorem eventually_rounds : Eventually t fun s => 0 < s.rounds :=
  ⟨0, 1, fun _ _ _ hr => hr⟩

theorem eventually_evaluate {v : Vocabulary} (hv : v.Traceable t) {g : Globals} (hg : Ready v g)
    {e : Node} {r : Result} (h : Evaluates g [] e r) :
    Eventually t fun s =>
      (evaluate s.toTracing s.depth e).answer (topStore g) = r.mapError .fault := by
  obtain ⟨least, hl⟩ := settles_evaluate hv.declared h hg
  refine ⟨least, 0, ?_⟩
  rintro s rfl hd _
  exact hl s.depth hd

/-- The rules give plain values only, since what they give is answered. -/
theorem plain_of_evaluates {v : Vocabulary} (hv : v.Traceable t) {g : Globals} (hg : Ready v g)
    {e : Node} {w : Value} (h : Evaluates g [] e (.ok w)) : w.Plain := by
  obtain ⟨least, hl⟩ := settles_evaluate hv.declared h hg
  exact plain_of_answer hg.sound (hl least (Nat.le_refl _))

end eventually

section complete

variable {v : Vocabulary} {t : Tracing}

theorem executeAll_append (s : Settings) (first second : List Node) :
    executeAll s (first ++ second) = executeAll s first >>= fun _ => executeAll s second := by
  induction first with
  | nil => simp [executeAll]
  | cons node first ih => simp [executeAll, ih]

/-- A loop that may go a round is its test, and then its body and the rest of the rounds. -/
theorem execute_while {s : Settings} (hpos : 0 < s.rounds) (test : Node) (body : List Node) :
    execute s (.whileStatement test (.block body)) =
      loopTest s test >>= fun holds =>
        if holds then
          executeAll s body >>= fun _ =>
            repeatWhile (s.rounds - 1) (loopTest s test) (executeAll s body)
        else pure () := by
  obtain ⟨n, hn⟩ : ∃ n, s.rounds = n + 1 := ⟨s.rounds - 1, by omega⟩
  rw [execute, executeBlock, hn, repeatWhile]
  rfl

section whileRules

variable {s : Settings} {test : Node} {body rest : List Node} {m : Machine} {g g' : Globals}
  {r : Except Fault Unit} {lines : List Text}

/-- A loop whose test holds does what its body and then the loop itself do. The body leaves one
round less, so the rounds have to be one more. -/
theorem does_whileTrue (hpos : 0 < s.rounds) (hm : m.store = topStore g)
    (ha : (evaluate s.toTracing s.depth test).answer (topStore g) = .ok (.boolean true))
    (h : ∀ m', m'.store = topStore g →
      Does (executeAll { s with rounds := s.rounds - 1 }
        (body ++ .whileStatement test (.block body) :: rest)) m' r lines g') :
    Does (executeAll s (.whileStatement test (.block body) :: rest)) m r lines g' := by
  have hwithin : Settings.Within Stop.IsBound { s with rounds := s.rounds - 1 } s :=
    ⟨rfl, Or.inl rfl, Nat.sub_le _ _, trivial⟩
  have hnodes : ∀ nodes, Below Stop.IsBound (executeAll { s with rounds := s.rounds - 1 } nodes)
      (executeAll s nodes) :=
    fun nodes => below_executeAll fun node _ => (below_execute hwithin node).1
  have hbelow : Below Stop.IsBound
      (executeAll { s with rounds := s.rounds - 1 }
        (body ++ .whileStatement test (.block body) :: rest))
      (executeAll s body >>= fun _ =>
        repeatWhile (s.rounds - 1) (loopTest s test) (executeAll s body) >>= fun _ =>
          executeAll s rest) := by
    rw [executeAll_append, executeAll, execute, executeBlock]
    apply below_bind (hnodes body)
    intro _
    apply below_bind (below_repeatWhile hwithin.outOfFuel (Nat.le_refl _)
      (below_loopTest hwithin test) (hnodes body))
    intro _
    exact hnodes rest
  rw [executeAll, execute_while hpos, bind_assoc]
  apply does_looks (looks_loopTest s test) hm (loopTest_boolean ha)
  intro m₁ hm₁
  rw [if_pos rfl, bind_assoc]
  exact (h m₁ hm₁).of_below hbelow

/-- A loop whose test fails at once does nothing. -/
theorem does_whileFalse (hpos : 0 < s.rounds) (hm : m.store = topStore g)
    (ha : (evaluate s.toTracing s.depth test).answer (topStore g) = .ok (.boolean false)) :
    Does (execute s (.whileStatement test (.block body))) m (.ok ()) [] g := by
  rw [execute_while hpos]
  apply does_looks (looks_loopTest s test) hm (loopTest_boolean ha)
  intro m₁ hm₁
  exact does_pure hm₁

theorem does_while_error (hpos : 0 < s.rounds) (hm : m.store = topStore g) {f : Fault}
    (ha : (loopTest s test).answer (topStore g) = .error (.fault f)) :
    Does (execute s (.whileStatement test (.block body))) m (.error f) [] g := by
  rw [execute_while hpos]
  exact does_looks_error (looks_loopTest s test) hm ha

end whileRules

/-- A loop that is unrolled by one round is still made of statements. -/
theorem isStatement_unrolled {test : Node} {body rest : List Node}
    (h : ∀ n ∈ .whileStatement test (.block body) :: rest, n.IsStatement v) :
    ∀ n ∈ body ++ .whileStatement test (.block body) :: rest, n.IsStatement v := by
  intro n hn
  rcases List.mem_append.1 hn with hn | hn
  · cases h _ List.mem_cons_self with
    | whileStatement _ hb => exact hb n hn
  · exact h n hn

/-- By induction on the rules: with depth and rounds enough, the statements do what the rules say.
-/
theorem does_of_executes (hv : v.Traceable t) {g : Globals} {statements : List Node}
    {o : Outcome} (h : Executes g statements o) (hg : Ready v g)
    (hs : ∀ n ∈ statements, n.IsStatement v) :
    Eventually t fun s => ∀ m, m.store = topStore g →
      Does (executeAll s statements) m o.result o.printed o.globals := by
  induction h with
  | done =>
    refine ⟨0, 0, fun s _ _ _ m hm => ?_⟩
    rw [executeAll]
    exact does_pure hm
  | @letValue g x e w rest o he hx _ ih =>
    have hd : v.declared x := by
      cases hs _ List.mem_cons_self with
      | variableDeclaration hd _ => exact hd
    have hnext := ih (hg.declareVariable hx (plain_of_evaluates hv hg he))
      fun n hn => hs n (by simp [hn])
    refine ((eventually_evaluate hv hg he).and hnext).mono ?_
    rintro s rfl ⟨ha, hrest⟩ m hm
    rw [executeAll]
    exact does_bind (does_letValue hv hg hm ha hx hd) hrest
  | letTwice he hx =>
    refine (eventually_evaluate hv hg he).mono ?_
    rintro s rfl ha m hm
    rw [executeAll]
    exact does_bind_error (does_letTwice hg hm ha hx)
  | letFails he =>
    refine (eventually_evaluate hv hg he).mono ?_
    rintro s rfl ha m hm
    rw [executeAll, execute]
    exact does_bind_error (does_looks_error (looks_evaluate _ _) hm ha)
  | @define g x ps body rest o hx hp _ ih =>
    obtain ⟨hd, hps, hb⟩ := (hs _ List.mem_cons_self).of_functionDeclaration
    refine (ih (hg.declareFunction hx hd hp hb) fun n hn => hs n (by simp [hn])).mono ?_
    rintro s rfl hrest m hm
    rw [executeAll]
    exact does_bind (does_define hv hg hm hx hd hp hps) hrest
  | defineTwice hx =>
    refine ⟨0, 0, fun s _ _ _ m hm => ?_⟩
    rw [executeAll]
    exact does_bind_error (does_define_error hm (declareFunction_bound _ hg hx))
  | parameterTwice hx hp =>
    refine ⟨0, 0, fun s _ _ _ m hm => ?_⟩
    rw [executeAll]
    exact does_bind_error (does_define_error hm (declareFunction_repeats _ hg hx hp))
  | @assign g x e w old rest o he hx _ ih =>
    have ha : v.assigned x := by
      cases hs _ List.mem_cons_self with
      | assignment ha _ => exact ha
    have hnext := ih (hg.reassign (plain_of_evaluates hv hg he) hx) fun n hn => hs n (by simp [hn])
    refine ((eventually_evaluate hv hg he).and hnext).mono ?_
    rintro s rfl ⟨he, hrest⟩ m hm
    rw [executeAll]
    exact does_bind (does_assign hv hg hm he hx ha) hrest
  | assignFunction he hx =>
    refine (eventually_evaluate hv hg he).mono ?_
    rintro s rfl ha m hm
    rw [executeAll]
    exact does_bind_error (does_assign_error hm ha (assign_function hg hx _))
  | assignNothing he hx =>
    refine (eventually_evaluate hv hg he).mono ?_
    rintro s rfl ha m hm
    rw [executeAll]
    exact does_bind_error (does_assign_error hm ha (assign_nothing hg hx _))
  | assignFails he =>
    refine (eventually_evaluate hv hg he).mono ?_
    rintro s rfl ha m hm
    rw [executeAll, execute]
    exact does_bind_error (does_looks_error (looks_evaluate _ _) hm ha)
  | print he _ ih =>
    have hnext := ih hg fun n hn => hs n (by simp [hn])
    refine ((eventually_evaluate hv hg he).and hnext).mono ?_
    rintro s rfl ⟨ha, hrest⟩ m hm
    rw [executeAll]
    exact does_bind (does_printStatement hm ha) hrest
  | printFails he =>
    refine (eventually_evaluate hv hg he).mono ?_
    rintro s rfl ha m hm
    rw [executeAll, execute]
    exact does_bind_error (does_looks_error (looks_evaluate _ _) hm ha)
  | whileTrue ht _ ih =>
    obtain ⟨d₁, r₁, ht⟩ := eventually_evaluate hv hg ht
    obtain ⟨d₂, r₂, hnext⟩ := ih hg (isStatement_unrolled hs)
    refine ⟨max d₁ d₂, max r₁ (r₂ + 1), ?_⟩
    intro s htracing hd hr m hm
    apply does_whileTrue (by omega) hm (ht s htracing (by omega) (by omega))
    exact hnext _ htracing (by simp only; omega) (by simp only; omega)
  | whileFalse ht _ ih =>
    have hnext := ih hg fun n hn => hs n (by simp [hn])
    refine (((eventually_evaluate hv hg ht).and hnext).and eventually_rounds).mono ?_
    rintro s rfl ⟨⟨ha, hrest⟩, hpos⟩ m hm
    rw [executeAll]
    exact does_bind (does_whileFalse hpos hm ha) hrest
  | whileKind ht hw =>
    refine ((eventually_evaluate hv hg ht).and eventually_rounds).mono ?_
    rintro s rfl ⟨ha, hpos⟩ m hm
    rw [executeAll]
    exact does_bind_error (does_while_error hpos hm (loopTest_notBoolean ha hw))
  | whileFails ht =>
    refine ((eventually_evaluate hv hg ht).and eventually_rounds).mono ?_
    rintro s rfl ⟨ha, hpos⟩ m hm
    rw [executeAll]
    exact does_bind_error (does_while_error hpos hm (loopTest_error ha))

/-- The globals that the rules lead to are those of some run, so a program may go on from them. -/
theorem ready_of_executes (hv : v.Traceable t) {g : Globals} {statements : List Node}
    {o : Outcome} (h : Executes g statements o) (hg : Ready v g)
    (hs : ∀ n ∈ statements, n.IsStatement v) : Ready v o.globals := by
  induction h with
  | letValue he hx _ ih =>
    exact ih (hg.declareVariable hx (plain_of_evaluates hv hg he)) fun n hn => hs n (by simp [hn])
  | define hx hp _ ih =>
    obtain ⟨hd, _, hb⟩ := (hs _ List.mem_cons_self).of_functionDeclaration
    exact ih (hg.declareFunction hx hd hp hb) fun n hn => hs n (by simp [hn])
  | assign he hx _ ih =>
    exact ih (hg.reassign (plain_of_evaluates hv hg he) hx) fun n hn => hs n (by simp [hn])
  | print _ _ ih => exact ih hg fun n hn => hs n (by simp [hn])
  | whileTrue _ _ ih => exact ih hg (isStatement_unrolled hs)
  | whileFalse _ _ ih => exact ih hg fun n hn => hs n (by simp [hn])
  | _ => exact hg

end complete

/-! ## Programs -/

/-- What can be seen of a run, after it, is the outcome. -/
structure Shows (o : Outcome) (ended : Except Stop Unit × Machine) : Prop where
  result : ended.1 = o.result.mapError .fault
  printed : ended.2.printed = o.printed
  globals : ended.2.store.globals = scopeOf o.globals
  frames : ended.2.store.frames = []

section programs

variable {v : Vocabulary} {program : Node} {o o' : Outcome}

theorem valueOf_inj {x : Text} {b b' : Binding} (hb : Fits v (x, b)) (hb' : Fits v (x, b'))
    (h : valueOf x b = valueOf x b') : b = b' := by
  cases hb with
  | value hw =>
    cases hb' with
    | value _ => exact congrArg _ h
    | function _ _ _ =>
      simp only [valueOf] at h
      rw [h] at hw
      exact absurd hw (not_plain_function _)
  | function _ _ _ =>
    cases hb' with
    | value hw =>
      simp only [valueOf] at h
      rw [← h] at hw
      exact absurd hw (not_plain_function _)
    | function _ _ _ =>
      simp only [valueOf, Value.function.injEq, Function.mk.injEq, true_and] at h
      rw [(List.map_inj_right fun _ _ hp => Json.str.inj hp).1 h.1, h.2]

theorem scopeOf_inj {g g' : Globals} (hg : ∀ b ∈ g, Fits v b) (hg' : ∀ b ∈ g', Fits v b)
    (h : scopeOf g = scopeOf g') : g = g' := by
  induction g generalizing g' with
  | nil =>
    rcases g' with _ | ⟨c, g'⟩
    · rfl
    · simp [scopeOf, scopeWith] at h
  | cons b g ih =>
    rcases g' with _ | ⟨c, g'⟩
    · simp [scopeOf, scopeWith] at h
    · obtain ⟨x, b⟩ := b
      obtain ⟨y, c⟩ := c
      simp only [scopeOf, scopeWith, List.map_cons, List.cons.injEq, Prod.mk.injEq,
        Json.str.injEq] at h
      obtain ⟨⟨rfl, hbc⟩, hrest⟩ := h
      rw [valueOf_inj (hg _ (by simp)) (hg' _ (by simp)) hbc,
        ih (fun b hb => hg b (by simp [hb])) (fun b hb => hg' b (by simp [hb])) hrest]

theorem Shows.unique {ended : Except Stop Unit × Machine} (h : Shows o ended) (h' : Shows o' ended)
    (hg : ∀ b ∈ o.globals, Fits v b) (hg' : ∀ b ∈ o'.globals, Fits v b) : o = o' := by
  obtain ⟨printed, globals, failure⟩ := o
  obtain ⟨printed', globals', failure'⟩ := o'
  have hp : printed = printed' := h.printed.symm.trans h'.printed
  have hglobals : globals = globals' := scopeOf_inj hg hg' (h.globals.symm.trans h'.globals)
  have hf : failure = failure' := by
    have hr := h.result.symm.trans h'.result
    rcases failure with _ | f <;> rcases failure' with _ | f'
    · rfl
    · cases hr
    · cases hr
    · cases hr
      rfl
  rw [hp, hglobals, hf]

theorem note_start (t : Tracing) : ∃ m, note t .runStart .start = (.ok (), m) ∧
    m.store = topStore [] ∧ m.printed = [] := by
  obtain ⟨m, heq, hs, hp⟩ := looks_topStore (m := .start) (g := []) (looks_note t .runStart) rfl
  rw [answer_note_runStart] at heq
  exact ⟨m, heq, hs, hp⟩

/-- A run is its statements between two notes that are never refused. -/
theorem run_eq {s : Settings} {statements : List Node} {m : Machine}
    (h : note s.toTracing .runStart .start = (.ok (), m)) :
    run s (.program (.block statements)) =
      (executeAll s statements >>= fun _ => note s.toTracing .runFinished) m := by
  rw [run, runProgram, executeProgram, executeBlock, bind_ok h]

theorem shows_of_does {s : Settings} {statements : List Node} {m : Machine}
    (hm : note s.toTracing .runStart .start = (.ok (), m)) (hp : m.printed = [])
    (h : Does (executeAll s statements) m o.result o.printed o.globals) :
    Shows o (run s (.program (.block statements))) := by
  have hrun : Does (executeAll s statements >>= fun _ => note s.toTracing .runFinished) m
      o.result o.printed o.globals := by
    rcases hr : o.result with f | u
    · rw [hr] at h
      exact does_bind_error h
    · rw [hr] at h
      rw [← List.append_nil o.printed]
      exact does_bind h fun m' hm' =>
        does_looks_last (looks_note _ _) hm' (answer_note_runFinished _)
  obtain ⟨m', heq, hs, hprinted⟩ := hrun
  rw [run_eq hm, heq]
  rw [hp] at hprinted
  exact ⟨rfl, hprinted, by rw [hs]; rfl, by rw [hs]; rfl⟩

/-- A run of a well-sorted program is cut short or has an outcome of the rules. -/
theorem shows_of_run {s : Settings} (hv : v.Traceable s.toTracing) (hp : program.IsProgram v) :
    Cut (run s program).1 ∨ ∃ o, Runs program o ∧ Shows o (run s program) := by
  obtain ⟨hs⟩ := hp
  obtain ⟨m, heq, hstore, hprinted⟩ := note_start s.toTracing
  rcases follows_executeAll (fun n hn => follows_execute hv (hs n hn)) m [] hstore ready_nil with
    hcut | ⟨r, lines, g, hdoes, _, hder⟩
  · refine Or.inl ?_
    rw [run_eq heq]
    exact cut_bind hcut
  · refine Or.inr ?_
    rcases r with f | u
    · have hexec := hder []
      rw [List.append_nil] at hexec
      exact ⟨⟨lines, g, some f⟩, .program hexec, shows_of_does heq hprinted hdoes⟩
    · have hexec := hder [] _ .done
      rw [List.append_nil, List.append_nil] at hexec
      exact ⟨⟨lines, g, none⟩, .program hexec, shows_of_does heq hprinted hdoes⟩

/-- What the rules allow is shown by every run with depth and rounds enough. -/
theorem run_shows {t : Tracing} (hv : v.Traceable t) (hp : program.IsProgram v)
    (h : Runs program o) : Eventually t fun s => Shows o (run s program) := by
  obtain ⟨hs⟩ := hp
  obtain ⟨hexec⟩ := h
  refine (does_of_executes hv hexec ready_nil hs).mono ?_
  rintro s rfl hdoes
  obtain ⟨m, heq, hstore, hprinted⟩ := note_start s.toTracing
  exact shows_of_does heq hprinted (hdoes m hstore)

/-- Two outcomes of one program are both what a run with large bounds shows. -/
theorem runs_unique {t : Tracing} (hv : v.Traceable t) (hp : program.IsProgram v)
    (h : Runs program o) (h' : Runs program o') : o = o' := by
  obtain ⟨depth, rounds, hboth⟩ := (run_shows hv hp h).and (run_shows hv hp h')
  obtain ⟨hshows, hshows'⟩ := hboth ⟨t, depth, rounds⟩ rfl (Nat.le_refl _) (Nat.le_refl _)
  obtain ⟨hs⟩ := hp
  obtain ⟨hexec⟩ := h
  obtain ⟨hexec'⟩ := h'
  exact hshows.unique hshows' (ready_of_executes hv hexec ready_nil hs).fits
    (ready_of_executes hv hexec' ready_nil hs).fits

end programs

/-- Every text for an operator or a name in an expression and every number; where names are
declared or assigned, the texts that a trace can hold, which at levels zero and one are all. -/
def Vocabulary.traced (t : Tracing) : Vocabulary where
  declared := t.Writes
  assigned := t.Writes
  used _ := True
  unary _ := True
  binary _ := True
  numeral _ := True

theorem traceable_traced (t : Tracing) : (Vocabulary.traced t).Traceable t :=
  ⟨fun _ h => h, fun _ h => h⟩

/-- A run of a well-sorted program that is not cut short ends with an outcome of the rules; an
outcome of the rules is how every run ends whose bounds are large enough; and the rules give no
program two outcomes. -/
theorem a_run_does_what_the_rules_say (t : Tracing) {program : Node}
    (hp : program.IsProgram (.traced t)) :
    (∀ s : Settings, s.toTracing = t →
      Cut (run s program).1 ∨ ∃ o, Runs program o ∧ Shows o (run s program)) ∧
    (∀ o, Runs program o → ∃ depth rounds, ∀ s : Settings, s.toTracing = t →
      depth ≤ s.depth → rounds ≤ s.rounds → Shows o (run s program)) ∧
    ∀ o o', Runs program o → Runs program o' → o = o' := by
  have hv := traceable_traced t
  refine ⟨?_, fun o h => run_shows hv hp h, fun o o' h h' => runs_unique hv hp h h'⟩
  rintro s rfl
  exact shows_of_run hv hp

/-- A program whose only call fails for the kind of its argument: the rules give it this fault
and no other outcome. -/
theorem a_run_does_what_the_rules_say_of_a_call :
    let program : Node := .program (.block [
      .functionDeclaration (.str "f") [.str "n"] (.identifier (.str "n")),
      .variableDeclaration (.str "x") (.call (.str "f") [.booleanLiteral true])])
    program.IsProgram (.traced {}) ∧
      ∃ o, Runs program o ∧ Shows o (run {} program) ∧
        o.failure = some (.wrongArgument (.str "f") 1 "Boolean") ∧
        ∀ o', Runs program o' → o' = o := by
  intro program
  have hwrites : ∀ x, Tracing.Writes {} x := by
    intro x hlevel
    cases hlevel
  have hp : program.IsProgram (.traced {}) := by
    apply Node.IsProgram.program
    intro statement hmem
    simp only [List.mem_cons, List.not_mem_nil, or_false] at hmem
    rcases hmem with rfl | rfl
    · exact @Node.IsStatement.functionDeclaration _ "f" ["n"] _ (hwrites _)
        (fun p _ => hwrites p) (.identifier trivial)
    · refine .variableDeclaration (hwrites _) (.call trivial fun a ha => ?_)
      rw [List.mem_singleton.1 ha]
      exact .booleanLiteral true
  obtain ⟨hruns, _, hunique⟩ := a_run_does_what_the_rules_say {} hp
  rcases hruns {} rfl with hcut | ⟨o, ho, hshows⟩
  · exact absurd hcut id
  · refine ⟨hp, o, ho, hshows, ?_, fun o' ho' => hunique o' o ho' ho⟩
    have hresult : Except.error (.fault (.wrongArgument (.str "f") 1 "Boolean")) =
        o.result.mapError Stop.fault := hshows.result
    unfold Outcome.result at hresult
    rcases hf : o.failure with _ | f
    · rw [hf] at hresult
      cases hresult
    · rw [hf] at hresult
      cases hresult
      rfl

end BellaLang
