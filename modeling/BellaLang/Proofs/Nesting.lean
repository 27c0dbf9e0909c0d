-- How deeply calls nest. In a program whose calls go round in no cycle a call nests
-- no deeper than the rank of its function: a body calls functions of lower rank, and
-- a name that is bound to a function stays bound to it. So only loops can run forever.
import BellaLang.Proofs.Bounds
import BellaLang.Proofs.Leading

namespace BellaLang

open Walk

/-! ## Runs that are cut short -/

section cut

variable {P : Stop → Prop}

theorem admits_cut (defects : List Defect) : Admits (fun e => e.IsBound → P e) defects :=
  ⟨fun _ h => h.elim, fun _ _ h => h.elim⟩

theorem note_not_cut (t : Tracing) (n : Note) (s : Store) :
    StopsOnly (fun e => e.IsBound → P e) ((Action.note t n).answer s) := by
  unfold Action.note
  split
  · split
    · exact stopsOnly_error fun h => h.elim
    · exact stopsOnly_ok ()
  · exact stopsOnly_ok ()

theorem noteDefined_not_cut (t : Tracing) (name : Json) (params : List Json) (s : Store) :
    StopsOnly (fun e => e.IsBound → P e) ((noteDefined t name params).answer s) := by
  unfold noteDefined
  split
  · split
    · exact note_not_cut t _ s
    · exact stopsOnly_error fun h => h.elim
  · exact stopsOnly_ok ()

end cut

/-! ## How deeply an expression goes -/

/-- From the store the walk comes back to it. On its way there are up to `rank` more frames, and the
same globals; and it is cut short only where fewer than `rank` calls may nest. -/
abbrev Shallow {α : Type} (s : Store) (depth rank : Nat) (w : Walk α) : Prop :=
  Returns s (fun s' => s'.globals = s.globals ∧ s'.frames.length ≤ s.frames.length + rank)
    (fun e => e.IsBound → e = .tooDeep ∧ depth < rank) (fun _ => True) w

/-- Every function of the store is declared by the program under the name it is bound to. -/
abbrev Store.Draws (program : Node) (s : Store) : Prop :=
  s.EachFunction fun k f => program.Declares k f.body

section expressions

variable {α : Type} {t : Tracing} {s : Store} {depth rank : Nat}

theorem Shallow.of_le {w : Walk α} {rank' : Nat} (h : Shallow s depth rank w)
    (hle : rank ≤ rank') : Shallow s depth rank' w := by
  refine h.mono ?_ ?_ fun _ h => h
  · rintro s' ⟨hglobals, hlength⟩
    exact ⟨hglobals, by omega⟩
  · intro e he hbound
    obtain ⟨htooDeep, hlt⟩ := he hbound
    exact ⟨htooDeep, by omega⟩

/-- What is shallow inside a call is so outside, with one call more to nest. -/
theorem Shallow.outside {w : Walk α} {frame : Scope} (h : Shallow (s.push frame) depth rank w) :
    Returns (s.push frame)
      (fun s' => s'.globals = s.globals ∧ s'.frames.length ≤ s.frames.length + (rank + 1))
      (fun e => e.IsBound → e = .tooDeep ∧ depth + 1 < rank + 1) (fun _ => True) w := by
  refine h.mono ?_ ?_ fun _ h => h
  · rintro s' ⟨hglobals, hlength⟩
    simp only [Store.push, List.length_cons] at hlength
    exact ⟨hglobals, by omega⟩
  · intro e he hbound
    obtain ⟨htooDeep, hlt⟩ := he hbound
    exact ⟨htooDeep, by omega⟩

/-- An expression goes as deep as the calls of the functions that it names. -/
theorem shallow_followWith {walkF : Function → List Value → Walk Value} {node : Node}
    (hcall : ∀ k ∈ node.callees, ∀ f args, s.globals.find? k = some (.function f) →
      Shallow s depth rank (walkF f args)) : Shallow s depth rank (followWith t walkF node) :=
  returns_followWith ⟨rfl, Nat.le_add_right _ _⟩ (fun n => note_not_cut t n s) (admits_cut _) hcall

/-- A call goes as deep as the rank of its function. -/
theorem shallow_followCall {program : Node} (hacyclic : program.Acyclic) (depth : Nat) {k : Key}
    (hs : s.Draws program) {f : Function} (hf : s.globals.find? k = some (.function f))
    (args : List Value) : Shallow s depth (program.rank k) (followCall t depth f args) := by
  have hmem := (hs k f hf).mem_functionNames
  obtain ⟨rank, hrank⟩ := Nat.exists_eq_succ_of_ne_zero (Node.rank_pos hmem).ne'
  rw [hrank]
  induction depth generalizing s k f args rank with
  | zero =>
    apply leads_stop
    · rintro s' rfl
      exact ⟨rfl, Nat.le_add_right _ _⟩
    · exact fun _ => ⟨rfl, Nat.succ_pos rank⟩
  | succ depth ih =>
    apply returns_followCall ⟨rfl, Nat.le_add_right _ _⟩ _ (fun n => note_not_cut t n s)
      (admits_cut _)
    · intro frame
      apply Shallow.outside
      apply shallow_followWith
      intro k' hk' g args' hg
      have hlt := Node.rank_lt hacyclic ⟨f.body, hs k f hf, hk'⟩
      have hmem' := (hs k' g hg).mem_functionNames
      obtain ⟨rank', hrank'⟩ := Nat.exists_eq_succ_of_ne_zero (Node.rank_pos hmem').ne'
      have hcall := ih (s := s.push frame) hs hg args' hmem' rank' hrank'
      exact hcall.of_le (by omega)
    · intro frame
      exact ⟨rfl, by simp only [Store.push, List.length_cons]; omega⟩

/-- Any expression at all goes no deeper than there are functions. -/
theorem shallow_followValue {program : Node} (hacyclic : program.Acyclic) (hs : s.Draws program)
    (settings : Settings) (expr : Node) :
    Shallow s settings.depth program.functionNames.card (followValue settings expr) := by
  apply shallow_followWith
  intro k _ f args hf
  exact (shallow_followCall hacyclic settings.depth hs hf args).of_le (Node.rank_le program k)

end expressions

/-! ## How deeply a run goes -/

/-- A run is steady whose notes and expressions keep to the functions of the program and to as many
frames as there are functions; it is cut short only where fewer calls may nest, or by a loop. -/
theorem steady_of_acyclic {program : Node} (hacyclic : program.Acyclic) (settings : Settings)
    (loops : Prop) :
    Steady settings (fun k f => program.Declares k f.body)
      (fun s => s.Draws program ∧ s.frames.length ≤ program.functionNames.card)
      (fun e => e.IsBound →
        (e = .tooDeep ∧ settings.depth < program.functionNames.card) ∨
          (e = .outOfFuel ∧ loops)) where
  way s hs := ⟨hs.functions, by simp [hs.frames]⟩
  note n s := note_not_cut _ n s
  noteDefined name params s := noteDefined_not_cut _ name params s
  value expr _ := by
    apply leads_of_returns fun s hs => shallow_followValue hacyclic hs.functions settings expr
    · rintro s s' hs ⟨hglobals, hlength⟩
      rw [hs.frames, List.length_nil, Nat.zero_add] at hlength
      refine ⟨fun k f hf => hs.functions k f ?_, hlength⟩
      rwa [← hglobals]
    · exact fun e he hbound => Or.inl (he hbound)

theorem declarable_declares (program : Node) (E : Stop → Prop) :
    Declarable (fun k f => program.Declares k f.body) E program :=
  fun name _ _ _ hmem hkey _ => ⟨name, hmem, hkey⟩

/-- Only loops and recursion run forever. Where no function calls itself, be it by way of others, a
run never has more frames than the program declares functions, and in any of its stores every
expression comes to an end as soon as that many calls may nest. So the run itself is cut short by
nothing but a loop, and not at all if the program has none. -/
theorem only_loops_and_recursion_run_forever {program : Node} (hacyclic : program.Acyclic)
    (s : Settings) :
    (walkRun s program .start).1 = run s program ∧
      (∀ store ∈ (walkRun s program .start).2,
        store.frames.length ≤ program.functionNames.card ∧
        ∀ t depth expr log, program.functionNames.card ≤ depth →
          ¬ Cut (evaluate t depth expr ⟨store, log⟩).1) ∧
      (program.functionNames.card ≤ s.depth →
        (run s program).1 ≠ .error .tooDeep ∧ (program.LoopFree → ¬ Cut (run s program).1)) := by
  have htracks := tracks_walkRun s program .start
  have hled := leads_walkRun (steady_of_acyclic hacyclic s (¬ program.LoopFree))
    (declarable_declares program _) (admits_cut _) (fun hloop _ => Or.inr ⟨rfl, hloop⟩) .start
    (atTop_empty _)
  refine ⟨htracks, ?_, ?_⟩
  · intro store hstore
    obtain ⟨hdraws, hlength⟩ := hled.way store hstore
    refine ⟨hlength, ?_⟩
    intro t depth expr log hdepth hcut
    have hvalue := shallow_followValue hacyclic hdraws ⟨t, depth, 0⟩ expr ⟨store, log⟩ rfl
    have hstop := hvalue.stop
    rw [tracks_followValue] at hstop
    rcases hr : (evaluate t depth expr ⟨store, log⟩).1 with e | v
    · rw [hr] at hcut
      exact absurd (hstop e hr hcut).2 (Nat.not_lt.2 hdepth)
    · rw [hr] at hcut
      exact hcut
  · intro hdepth
    have hstop := hled.stop
    rw [htracks] at hstop
    constructor
    · intro hdeep
      rcases hstop _ hdeep trivial with ⟨_, hlt⟩ | ⟨hfuel, _⟩
      · exact absurd hlt (Nat.not_lt.2 hdepth)
      · cases hfuel
    · intro hfree hcut
      rcases hr : (run s program).1 with e | u
      · rw [hr] at hcut
        rcases hstop e hr hcut with ⟨_, hlt⟩ | ⟨_, hloop⟩
        · exact absurd hlt (Nat.not_lt.2 hdepth)
        · exact hloop hfree
      · rw [hr] at hcut
        exact hcut

/-- Two functions, each with a parameter that has the name of the other one: only one of them calls
the other. The bound is reached, and one call fewer is not enough. -/
theorem only_loops_and_recursion_run_forever_not_parameters :
    let name (x : String) : Node := .identifier (.str x)
    let program : Node := .program (.block
      [.functionDeclaration (.str "g") [.str "f"] (.binary (.str "+") (name "f") (.numeral 1)),
        .functionDeclaration (.str "f") [.str "g"] (.binary (.str "+")
          (.call (.str "g") [name "g"]) (.call (.str "g") [.numeral 2])),
        .printStatement (.call (.str "f") [.numeral 3])])
    let s : Settings := ⟨{}, 2, 0⟩
    program.Acyclic ∧ program.LoopFree ∧ program.functionNames.card = 2 ∧
      (run s program).2.printed = ["7"].map Text.ofString ∧
      (walkRun s program .start).2.any (·.frames.length == 2) ∧
      (run ⟨{}, 1, 0⟩ program).1 = .error .tooDeep ∧
      (walkRun s program .start).1 = run s program ∧
      (∀ store ∈ (walkRun s program .start).2,
        store.frames.length ≤ program.functionNames.card ∧
        ∀ t depth expr log, program.functionNames.card ≤ depth →
          ¬ Cut (evaluate t depth expr ⟨store, log⟩).1) ∧
      (program.functionNames.card ≤ s.depth →
        (run s program).1 ≠ .error .tooDeep ∧ (program.LoopFree → ¬ Cut (run s program).1)) := by
  intro name program s
  have hacyclic : program.Acyclic := by
    apply Node.acyclic_of_lt fun k => if k = .text "f" then 1 else 0
    rintro k k' ⟨body, ⟨fname, hmem, hk⟩, hk'⟩
    simp only [program, Node.declarations, Node.declarationsOfAll, List.cons_append,
      List.nil_append, List.mem_cons, List.not_mem_nil, or_false, Prod.mk.injEq] at hmem
    rcases hmem with ⟨rfl, rfl⟩ | ⟨rfl, rfl⟩
    · simp [name, Node.callees] at hk'
    · cases hk
      have hg : k' = .text "g" := by
        simpa [name, Node.callees, Node.calleesOfAll, Json.key?] using hk'
      rw [hg]
      decide
  obtain ⟨htracks, hway, hends⟩ := only_loops_and_recursion_run_forever hacyclic s
  exact ⟨hacyclic, ⟨trivial, trivial, trivial, trivial⟩, by decide, by decide +kernel,
    by decide +kernel, by with_unfolding_all rfl, htracks, hway, hends⟩

end BellaLang
