-- The shape of a trace. Which lines stand in it is decided by its level alone: two
-- lines for the run, one for each binding from the second level on, and from the third
-- on those of tests and of calls, which stand around each other like brackets.
import BellaLang.Proofs.Watching

namespace BellaLang

/-! ## Lines and notes -/

/-- The words that the lines of calls begin with. -/
def callWords : List Text := ["call ", "return "]

/-- The words that the lines of tests begin with. -/
def testWords : List Text := ["while test -> ", "conditional test -> "]

/-- Whether a line begins with one of some words. -/
def begins (words : List Text) (line : Text) : Bool := words.any (·.isPrefixOf line)

theorem begins_callWords (n : Note) : begins callWords n.text = n.isCall := by
  cases n <;> rfl

/-- The lines of calls and tests are those that the second level leaves out. -/
theorem begins_second (n : Note) :
    (!begins (callWords ++ testWords) n.text) = decide (n.level ≤ 2) := by
  cases n <;> rfl

/-- To choose lines of a trace is to choose notes. -/
theorem filter_trace (m : Machine) {p : Text → Bool} {q : Note → Bool}
    (h : ∀ n : Note, p n.text = q n) :
    m.trace.filter p = (m.notes.filter q).map Note.text := by
  rw [trace_eq, List.filter_map]
  congr 1
  exact List.filter_congr fun n _ => h n

theorem notes_seenBy (m : Machine) (t : Tracing) :
    (m.seenBy t).notes = m.notes.filter t.takes := by
  have hnote : (fun e => if t.shows e = true then e.note? else none) =
      fun e => e.note?.filter t.takes := by
    funext e
    cases e with
    | printed line => rfl
    | noted n =>
      cases htakes : t.takes n <;> simp [Tracing.shows, Event.note?, Option.filter, htakes]
  rw [Machine.notes, Machine.seenBy, List.filterMap_filter, hnote, Machine.notes,
    List.filter_reverse, List.filter_filterMap]

/-! ## Traces of runs -/

section traces

variable {text : Text} {program : Node} (hparse : Source.parse text = .ok program)
  (stored : Bool) (depth rounds : Nat)

include hparse

/-- The third level is the last one. -/
theorem run_beyond {level : Nat} (h : 3 ≤ level) :
    run ⟨⟨level, stored⟩, depth, rounds⟩ program = run ⟨⟨3, stored⟩, depth, rounds⟩ program := by
  have htakes : ∀ n : Note, Tracing.takes ⟨level, stored⟩ n = Tracing.takes ⟨3, stored⟩ n := by
    intro n
    have hn : n.level ≤ 3 := by cases n <;> simp [Note.level]
    simp [Tracing.takes, hn, Nat.le_trans hn h]
  have hshows : Tracing.shows ⟨level, stored⟩ = Tracing.shows ⟨3, stored⟩ := by
    funext e
    cases e with
    | printed line => rfl
    | noted n => exact htakes n
  rw [run_seenBy hparse ⟨level, stored⟩, run_seenBy hparse ⟨3, stored⟩, Machine.seenBy, hshows]
  rfl

/-- A lower level takes those notes of a higher one that it takes. -/
theorem notes_lower {level level' : Nat} (h : level ≤ level') :
    (run ⟨⟨level, stored⟩, depth, rounds⟩ program).2.notes =
      (run ⟨⟨level', stored⟩, depth, rounds⟩ program).2.notes.filter fun n => n.level ≤ level := by
  rw [run_seenBy hparse ⟨level, stored⟩, run_seenBy hparse ⟨level', stored⟩]
  simp only [notes_seenBy, List.filter_filter]
  apply List.filter_congr
  intro n _
  by_cases hn : n.level ≤ level
  · simp [Tracing.takes, hn, Nat.le_trans hn h]
  · simp [Tracing.takes, hn]

theorem outcome_of_parse {level : Nat} (h : 3 ≤ level) :
    ∃ notes, (∀ n ∈ notes, 2 ≤ n.level) ∧
      Outcome ⟨⟨level, stored⟩, depth, rounds⟩ program notes :=
  exists_outcome h (not_defect_of_parse hparse _)

/-- The trace of the second level is that of the third without the lines of calls and tests. -/
theorem trace_second :
    (run ⟨⟨2, stored⟩, depth, rounds⟩ program).2.trace =
      (run ⟨⟨3, stored⟩, depth, rounds⟩ program).2.trace.filter
        fun line => !begins (callWords ++ testWords) line := by
  rw [filter_trace _ begins_second, trace_eq,
    notes_lower hparse stored depth rounds (by decide : 2 ≤ 3)]

theorem result_eq (level level' : Nat) :
    (run ⟨⟨level, stored⟩, depth, rounds⟩ program).1 =
      (run ⟨⟨level', stored⟩, depth, rounds⟩ program).1 := by
  rw [run_seenBy hparse ⟨level, stored⟩, run_seenBy hparse ⟨level', stored⟩]

/-- Only the two notes of a run are taken at the first level. -/
theorem trace_first :
    (run ⟨⟨1, stored⟩, depth, rounds⟩ program).2.trace =
      match (run ⟨⟨1, stored⟩, depth, rounds⟩ program).1 with
      | .ok _ => ["run start", "run finished"]
      | .error _ => ["run start"] := by
  obtain ⟨notes, hlevel, houtcome⟩ := outcome_of_parse hparse stored depth rounds (Nat.le_refl 3)
  have hinner : notes.filter (fun n => n.level ≤ 1) = [] :=
    List.filter_eq_nil_iff.2 fun n hn => by simpa using Nat.lt_of_succ_le (hlevel n hn)
  rw [trace_eq, notes_lower hparse stored depth rounds (by decide : 1 ≤ 3),
    result_eq hparse stored depth rounds 1 3]
  cases houtcome with
  | ends hrun _ hnotes _ =>
    rw [hrun, hnotes, List.filter_cons, List.filter_append, hinner]
    rfl
  | stops r hrun _ hnotes _ _ =>
    rw [hrun, hnotes, List.filter_cons, hinner]
    rfl

end traces

/-- Beyond the third level nothing more is traced; the second level leaves out the lines of calls
and tests; the first has the start of the run and, if it is completed, its end. At the third level
the lines of calls are those of a sequence of notes of calls. That of a completed run is well
bracketed: each call ends with the note of its own function. That of a failed run goes on to a
well-bracketed one, and the calls that have no end in it are those under way where the error is
raised, whose frames are there. -/
theorem a_trace_has_the_shape_of_its_run {text : Text} {program : Node}
    (hparse : Source.parse text = .ok program) (stored : Bool) (depth rounds : Nat) :
    let traced : Nat → Except Stop Unit × Machine :=
      fun level => run ⟨⟨level, stored⟩, depth, rounds⟩ program
    let calls : List Note := (traced 3).2.notes.filter Note.isCall
    (∀ level, 3 ≤ level → (traced level).2.trace = (traced 3).2.trace) ∧
    (traced 2).2.trace =
      (traced 3).2.trace.filter (fun line => !begins (callWords ++ testWords) line) ∧
    ((traced 1).2.trace = match (traced 1).1 with
      | .ok _ => ["run start", "run finished"]
      | .error _ => ["run start"]) ∧
    (traced 3).2.trace.filter (begins callWords) = calls.map Note.text ∧
    ((traced 3).1 = .ok () → Brackets [] calls []) ∧
    ∀ e, (traced 3).1 = .error e →
      ∃ r : Raised, watchRun ⟨⟨3, stored⟩, depth, rounds⟩ program [] .start =
          (.error r, (traced 3).2) ∧ r.stop = e ∧
        Brackets [] calls r.calls ∧ r.store.Holds r.calls ∧
          ∃ rest, Brackets [] (calls ++ rest) [] := by
  intro traced calls
  have hbeyond : ∀ level, 3 ≤ level → (traced level).2.trace = (traced 3).2.trace := by
    intro level h
    exact congrArg (fun r => r.2.trace) (run_beyond hparse stored depth rounds h)
  refine ⟨hbeyond, trace_second hparse stored depth rounds, trace_first hparse stored depth rounds,
    filter_trace _ begins_callWords, ?_⟩
  obtain ⟨notes, _, houtcome⟩ := outcome_of_parse hparse stored depth rounds (Nat.le_refl 3)
  cases houtcome with
  | ends hrun _ hnotes hbrackets =>
    have hcalls : calls = notes.filter Note.isCall := by
      have hfilter : calls = (Note.runStart :: (notes ++ [.runFinished])).filter Note.isCall :=
        congrArg (List.filter Note.isCall) hnotes
      simpa [Note.isCall] using hfilter
    refine ⟨fun _ => hcalls ▸ hbrackets, ?_⟩
    intro e he
    have hboth : Except.error e = Except.ok () := he.symm.trans hrun
    cases hboth
  | stops r hrun hwatch hnotes hbrackets hholds =>
    have hcalls : calls = notes.filter Note.isCall := by
      have hfilter : calls = (Note.runStart :: notes).filter Note.isCall :=
        congrArg (List.filter Note.isCall) hnotes
      simpa [Note.isCall] using hfilter
    constructor
    · intro hok
      have hboth : Except.error r.stop = Except.ok () := hrun.symm.trans hok
      cases hboth
    · intro e he
      have hboth : Except.error r.stop = Except.error e := hrun.symm.trans he
      cases hboth
      rw [hcalls]
      exact ⟨r, hwatch, rfl, hbrackets, hholds, hbrackets.extends⟩

/-- A call that fails inside another one, after a call that has ended. -/
theorem a_trace_has_the_shape_of_its_run_up_to_a_failure :
    let text : Text := "func h n = n func g n = n ? 1 : 2 func f n = h(n) + g(n) print f(3)"
    ∃ program, Source.parse text = .ok program ∧
      (run ⟨⟨3, true⟩, 2, 1⟩ program).2.trace.filter (begins callWords) =
        ["call f(3)", "call h(3)", "return h -> 3", "call g(3)"].map Text.ofString ∧
      ∃ r, watchRun ⟨⟨3, true⟩, 2, 1⟩ program [] .start =
          (.error r, (run ⟨⟨3, true⟩, 2, 1⟩ program).2) ∧
        r.stop = .fault (.conditionalTest "Number") ∧
        r.calls.map (fun c => c.function.name.text) = ["g", "f"].map Text.ofString ∧
        Brackets [] ((run ⟨⟨3, true⟩, 2, 1⟩ program).2.notes.filter Note.isCall) r.calls := by
  intro text
  let program : Node := .program (.block
    [.functionDeclaration (.str "h") [.str "n"] (.identifier (.str "n")),
     .functionDeclaration (.str "g") [.str "n"]
       (.conditional (.identifier (.str "n")) (.numeral 1.0) (.numeral 2.0)),
     .functionDeclaration (.str "f") [.str "n"]
       (.binary (.str "+") (.call (.str "h") [.identifier (.str "n")])
         (.call (.str "g") [.identifier (.str "n")])),
     .printStatement (.call (.str "f") [.numeral 3.0])])
  have hparse : Source.parse text = .ok program := by with_unfolding_all rfl
  have hrun : (run ⟨⟨3, true⟩, 2, 1⟩ program).1 =
      .error (.fault (.conditionalTest "Number")) :=
    (result_eq hparse true 2 1 3 0).trans rfl
  have hcalls : (match (watchRun ⟨⟨3, true⟩, 2, 1⟩ program [] .start).1 with
      | .error r => r.calls.map fun c => c.function.name.text
      | .ok _ => []) = ["g", "f"].map Text.ofString := by decide +kernel
  obtain ⟨_, _, _, _, _, hfailed⟩ := a_trace_has_the_shape_of_its_run hparse true 2 1
  obtain ⟨r, hwatch, hstop, hbrackets, _⟩ := hfailed _ hrun
  rw [hwatch] at hcalls
  exact ⟨program, hparse, by decide +kernel, r, hwatch, hstop, hcalls, hbrackets⟩

end BellaLang
