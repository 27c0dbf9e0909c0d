-- How running a source text can end. A text that is read has known operators
-- only, so the faults of its run are of six kinds, and nothing in it shows that
-- a tree is not well formed.
import BellaLang.Proofs.Guards
import BellaLang.Proofs.Programs
import BellaLang.Proofs.Reading

namespace BellaLang

open Rules Source

/-! ## Faults with known operators -/

/-- The kinds of fault that a program with known operators can have. -/
def FaultKind.documented : List FaultKind :=
  [.duplicateDeclaration, .undeclaredIdentifier, .typeMismatch, .arityMismatch, .notCallable,
   .indexOutOfRange]

/-- A failure is of a documented kind. -/
def Documented {α : Type} : Except Fault α → Prop
  | .ok _ => True
  | .error f => f.kind ∈ FaultKind.documented

/-- Every operator of a vocabulary is one that the rules know. -/
structure Vocabulary.Operates (v : Vocabulary) : Prop where
  unary : ∀ op, v.unary op → op ∈ ([("-" : Text), "+", "!"])
  binary : ∀ op, v.binary op →
    op ∈ logical.map (·.1) ∨ op ∈ numeric.map (·.1) ∨ op ∈ equality.map (·.1)

theorem documented_of_stands {g : Globals} {fr : Frame} {x : Text} {r : Result}
    (h : Stands g fr x r) : Documented r := by
  cases h <;> simp [Documented, Fault.kind, FaultKind.documented]

theorem documented_of_unary {op : Text} {w : Value} {r : Result} (h : Unary op w r)
    (hop : op ∈ ([("-" : Text), "+", "!"])) : Documented r := by
  cases h with
  | unknown hunknown => exact absurd hop hunknown
  | _ => simp [Documented, Fault.kind, FaultKind.documented]

theorem documented_of_binary {op : Text} {a b : Value} {r : Result} (h : Binary op a b r)
    (hop : op ∈ numeric.map (·.1) ∨ op ∈ equality.map (·.1)) : Documented r := by
  cases h with
  | unknown hn he => exact absurd hop (by simp only [hn, he, or_self, not_false_eq_true])
  | _ => simp [Documented, Fault.kind, FaultKind.documented]

theorem documented_of_subscript {a i : Value} {r : Result} (h : Subscript a i r) :
    Documented r := by
  cases h <;> simp [Documented, Fault.kind, FaultKind.documented]

section documented

variable {v : Vocabulary} {g : Globals}

theorem body_isExpr (hg : ∀ b ∈ g, Fits v b) {x : Text} {ps : List Text} {body : Node}
    (hx : g.lookup x = some (.function ps body)) : body.IsExpr v := by
  cases hg _ (lookup_mem hx) with
  | function _ _ hb => exact hb

/-- The faults of a part are faults of the whole, so only what each rule says itself has to be
looked at; a call goes on in the body of a global. -/
theorem documented_of_evaluates (hv : v.Operates) (hg : ∀ b ∈ g, Fits v b) {fr : Frame} {e : Node}
    {r : Result} (h : Evaluates g fr e r) (he : e.IsExpr v) : Documented r := by
  induction h with
  | identifier h => exact documented_of_stands h
  | unary _ h _ =>
    cases he with
    | unary hop _ => exact documented_of_unary h (hv.unary _ hop)
  | unaryFails _ ih =>
    cases he with
    | unary _ he => exact ih he
  | leftFails _ ih =>
    cases he with
    | binary _ hl _ => exact ih hl
  | binary hlogical _ _ h _ _ =>
    cases he with
    | binary hop _ _ =>
      have hknown := (hv.binary _ hop).resolve_left hlogical
      exact documented_of_binary h hknown
  | rightFails _ _ _ _ ih =>
    cases he with
    | binary _ _ hr => exact ih hr
  | logicalRightFails _ _ _ _ ih =>
    cases he with
    | binary _ _ hr => exact ih hr
  | consequent _ _ _ ih =>
    cases he with
    | conditional _ hc _ => exact ih hc
  | alternate _ _ _ ih =>
    cases he with
    | conditional _ _ ha => exact ih ha
  | testFails _ ih =>
    cases he with
    | conditional ht _ _ => exact ih ht
  | elementFails _ _ _ _ ih =>
    cases he with
    | arrayLiteral h => exact ih (h _ (by simp))
  | subscript _ _ h _ _ => exact documented_of_subscript h
  | targetFails _ ih =>
    cases he with
    | subscript ha _ => exact ih ha
  | indexFails _ _ _ ih =>
    cases he with
    | subscript _ hi => exact ih hi
  | argumentFails _ _ _ _ _ ih =>
    cases he with
    | call _ h => exact ih (h _ (by simp))
  | call hf _ _ _ _ _ ih => exact ih (body_isExpr hg hf)
  | _ => simp [Documented, Fault.kind, FaultKind.documented]

/-- The globals stay ready from statement to statement, so each expression is evaluated where
its faults are known. -/
theorem documented_of_executes {t : Tracing} (ht : v.Traceable t) (hv : v.Operates)
    {statements : List Node} {o : Outcome} (h : Executes g statements o) (hg : Ready v g)
    (hs : ∀ n ∈ statements, n.IsStatement v) : Documented o.result := by
  induction h with
  | letValue he hx _ ih =>
    exact ih (hg.declareVariable hx (plain_of_evaluates ht hg he)) fun n hn => hs n (by simp [hn])
  | define hx hp _ ih =>
    obtain ⟨hd, _, hb⟩ := (hs _ List.mem_cons_self).of_functionDeclaration
    exact ih (hg.declareFunction hx hd hp hb) fun n hn => hs n (by simp [hn])
  | assign he hx _ ih =>
    exact ih (hg.reassign (plain_of_evaluates ht hg he) hx) fun n hn => hs n (by simp [hn])
  | print _ _ ih => exact ih hg fun n hn => hs n (by simp [hn])
  | whileTrue _ _ ih => exact ih hg (isStatement_unrolled hs)
  | whileFalse _ _ ih => exact ih hg fun n hn => hs n (by simp [hn])
  | letFails he =>
    cases hs _ List.mem_cons_self with
    | variableDeclaration _ hexpr => exact documented_of_evaluates hv hg.fits he hexpr
  | assignFails he =>
    cases hs _ List.mem_cons_self with
    | assignment _ hexpr => exact documented_of_evaluates hv hg.fits he hexpr
  | printFails he =>
    cases hs _ List.mem_cons_self with
    | printStatement hexpr => exact documented_of_evaluates hv hg.fits he hexpr
  | whileFails he =>
    cases hs _ List.mem_cons_self with
    | whileStatement htest _ => exact documented_of_evaluates hv hg.fits he htest
  | _ => simp [Documented, Outcome.result, Fault.kind, FaultKind.documented]

end documented

/-! ## What a source text may hold -/

theorem traceable_source (t : Tracing) : Source.vocabulary.Traceable t := by
  have hwrites : ∀ reserved x, IsName reserved x → t.Writes x := by
    rintro reserved x ⟨word, rfl, _⟩ _ _
    exact Text.whole_ofChars word
  exact ⟨hwrites _, hwrites _⟩

theorem operates_source : Source.vocabulary.Operates := by
  constructor
  · rintro op ⟨u, rfl⟩
    cases u <;> decide
  · rintro op ⟨b, rfl⟩
    cases b <;> decide

/-! ## Ends of a run -/

/-- The ways to end that are left to a source text, once it is read and its loops come to an
end. -/
inductive Ending : Except Stop Unit → Prop
  | completed : Ending (.ok ())
  | failed {f : Fault} (hf : f.kind ∈ FaultKind.documented) : Ending (.error (.fault f))
  | tooDeep : Ending (.error .tooDeep)

theorem ending_of_run {text : Text} {program : Node} (hparse : parse text = .ok program)
    (s : Settings) (h : (run s program).1 ≠ .error .outOfFuel) : Ending (run s program).1 := by
  have hp := parse_isProgram hparse
  have ht := traceable_source s.toTracing
  rcases shows_of_run ht hp with hcut | ⟨o, hruns, hshows⟩
  · rcases hrun : (run s program).1 with e | u
    · rw [hrun] at hcut h
      cases e with
      | tooDeep => exact .tooDeep
      | outOfFuel => exact absurd rfl h
      | fault f => exact hcut.elim
      | defect d => exact hcut.elim
    · exact .completed
  · obtain ⟨hs⟩ := hp
    obtain ⟨hexec⟩ := hruns
    have hdoc := documented_of_executes ht operates_source hexec ready_nil hs
    rw [hshows.result]
    rcases hresult : o.result with f | u
    · rw [hresult] at hdoc
      exact .failed hdoc
    · exact .completed

/-- However long its loops may go, the run of a program never ends, or from some number of
rounds on always ends in one of these ways. -/
theorem forever_or_ending {text : Text} {program : Node} (hparse : parse text = .ok program)
    (t : Tracing) (depth : Nat) :
    (∀ rounds, (run ⟨t, depth, rounds⟩ program).1 = .error .outOfFuel) ∨
      ∃ rounds result, Ending result ∧
        ∀ more, rounds ≤ more → (run ⟨t, depth, more⟩ program).1 = result := by
  by_cases hforever : ∀ rounds, (run ⟨t, depth, rounds⟩ program).1 = .error .outOfFuel
  · exact Or.inl hforever
  · obtain ⟨rounds, hrounds⟩ := Classical.not_forall.1 hforever
    refine Or.inr ⟨rounds, _, ending_of_run hparse ⟨t, depth, rounds⟩ hrounds, ?_⟩
    intro more hmore
    rw [run_more_rounds hmore hrounds]

theorem number_lexeme {accepts : Terminal → Bool} {cs rest : List Char} {l : Lexeme}
    (h : lexeme? accepts cs = some (l, rest)) (hn : l.terminal = .number) :
    Host.number l.text = .ok l.number := by
  rw [Host.number, ofText?_lexeme h hn]

/-- A source text is refused, or it runs forever, or it comes to its end, or calls nest too
deeply, or it has a fault of a documented kind; no primitive refuses what it is given on the
way. -/
theorem a_source_text_fails_only_as_documented (text : Text) (t : Tracing) (depth : Nat) :
    ((∃ e, parse text = .error e) ∨
      ∃ program, parse text = .ok program ∧
        ((∀ rounds, (run ⟨t, depth, rounds⟩ program).1 = .error .outOfFuel) ∨
          ∃ rounds result, Ending result ∧
            ∀ more, rounds ≤ more → (run ⟨t, depth, more⟩ program).1 = result)) ∧
    (∀ accepts cs l rest, lexeme? accepts cs = some (l, rest) → l.terminal = .number →
      Host.number l.text = .ok l.number) ∧
    (∀ a b, guardedDivide a b = .ok (a / b)) ∧
    (∀ a b, guardedRemainder a b = .ok (a.remainder b)) ∧
    (∀ items x, guardedElement items x = .ok (applySubscript (.array items) (.number x))) ∧
    ∀ x, guardedText x = .ok x.text := by
  refine ⟨?_, fun _ _ _ _ h hn => number_lexeme h hn, guardedDivide_eq, guardedRemainder_eq,
    guardedElement_eq, guardedText_eq⟩
  rcases hparse : parse text with e | program
  · exact Or.inl ⟨e, rfl⟩
  · exact Or.inr ⟨program, rfl, forever_or_ending hparse t depth⟩

end BellaLang
