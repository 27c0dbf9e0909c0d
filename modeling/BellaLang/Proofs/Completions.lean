-- Every state of the reader can be completed. Whatever waits for an operand gets
-- one, brackets are closed from the inside out, and then the blocks; so what the
-- reader has taken so far is always the beginning of a program.
import BellaLang.Proofs.Spacing

namespace BellaLang.Source

/-! ## The lexemes that complete a program -/

/-- A name, the sign after it, an operand, and whatever closes something. -/
def completers : List Lexeme :=
  [⟨.ident, ['x']⟩, ⟨.becomes, ['=']⟩, ⟨.number, ['0']⟩, ⟨.closeParen, [')']⟩,
   ⟨.closeBracket, [']']⟩, ⟨.colon, [':']⟩, ⟨.semicolon, [';']⟩, ⟨.openBrace, ['\x7b']⟩,
   ⟨.closeBrace, ['\x7d']⟩]

/-- Some of the completers lead from the state to the end of a program. -/
def Completes (r : Reader) : Prop :=
  ∃ ls r' program, (∀ l ∈ ls, l ∈ completers) ∧ r.run ls = some r' ∧ r'.finish? = some program

theorem spelt_completers : ∀ l ∈ completers, l.Spelt := by
  have hzero : Spell ['0'] [0] := rfl
  have hnumber : Spells ['0'] ⟨[0], [], none⟩ := .parts hzero (by simp) .absent .absent
  have hname : IsWord ['x'] := ⟨'x', [], rfl, rfl, by simp⟩
  intro l hl
  simp only [completers, List.mem_cons, List.not_mem_nil, or_false] at hl
  rcases hl with rfl | rfl | rfl | rfl | rfl | rfl | rfl | rfl | rfl
  · exact hname
  · exact spelt_of_mem (by decide)
  · exact ⟨_, hnumber⟩
  all_goals exact spelt_of_mem (by decide)

theorem completes_cons {r next : Reader} {l : Lexeme} (hl : l ∈ completers)
    (hstep : r.step l = some next) (h : Completes next) : Completes r := by
  obtain ⟨ls, r', program, hmem, hrun, hfinish⟩ := h
  refine ⟨l :: ls, r', program, ?_, ?_, hfinish⟩
  · exact List.forall_mem_cons.2 ⟨hl, hmem⟩
  · rw [run_cons_of hstep, hrun]

/-! ## Blocks -/

theorem completes_statement (outer : List (Node × List Node)) (done : List Node) :
    Completes ⟨outer, done, .statement⟩ := by
  induction outer generalizing done with
  | nil => exact ⟨[], _, _, by simp, rfl, rfl⟩
  | cons block outer ih =>
    apply completes_cons (l := ⟨.closeBrace, ['\x7d']⟩) (by decide) rfl
    exact ih _

/-! ## Expressions -/

/-- How many brackets and question marks are open. -/
def openings : List Pending → Nat
  | [] => 0
  | .unary _ :: pending => openings pending
  | .binary _ _ :: pending => openings pending
  | .alternate _ _ :: pending => openings pending
  | _ :: pending => openings pending + 1

theorem openings_close (pending : List Pending) (expr : Node) :
    openings (close pending expr).1 = openings pending := by
  fun_induction close pending expr with
  | case1 op pending expr ih => simpa [openings] using ih
  | case2 left op pending expr ih => simpa [openings] using ih
  | case3 test consequent pending expr ih => simpa [openings] using ih
  | case4 => rfl

/-- What is left when an expression is closed is nothing, or something that is still open. -/
theorem close_open (pending : List Pending) (expr : Node) :
    ∀ p ∈ (close pending expr).1.head?, 0 < openings [p] := by
  fun_induction close pending expr with
  | case1 op pending expr ih => exact ih
  | case2 left op pending expr ih => exact ih
  | case3 test consequent pending expr ih => exact ih
  | case4 pending expr hunary hbinary halternate =>
    intro p hp
    obtain ⟨rest, rfl⟩ := List.head?_eq_some_iff.1 hp
    cases p with
    | unary op => exact absurd rfl (hunary op rest)
    | binary left op => exact absurd rfl (hbinary left op rest)
    | alternate test consequent => exact absurd rfl (halternate test consequent rest)
    | _ => exact Nat.one_pos

section expressions

variable {outer : List (Node × List Node)} {done : List Node} {head : Head}
  {pending : List Pending} {expr last : Node} {r : Reader}

theorem after_semicolon {l : Lexeme} {statement : Node} (h : After outer done head pending expr r)
    (hl : l.terminal = .semicolon) (hc : close pending expr = ([], last))
    (hs : head.complete? last = some statement) :
    r.step l = some ⟨outer, statement :: done, .statement⟩ := by
  rw [step_after h (by simp [hl])]
  unfold Reader.stepOperator
  rw [hl]
  simp only [Terminal.binary?, hc, hs, Reader.stepStatement, hl]
  rfl

/-- A statement whose expression is complete ends here, and a loop goes on with its block. -/
theorem completes_closed (h : After outer done head pending expr r)
    (hc : close pending expr = ([], last)) : Completes r := by
  have hsimple : ∀ statement, head.complete? last = some statement → Completes r := by
    intro statement hs
    apply completes_cons (l := ⟨.semicolon, [';']⟩) (by decide) (after_semicolon h rfl hc hs)
    exact completes_statement _ _
  cases head with
  | whileStatement =>
    apply completes_cons (l := ⟨.openBrace, ['\x7b']⟩) (by decide) (after_openBrace h rfl hc)
    exact completes_statement _ _
  | _ => exact hsimple _ rfl

/-- Each step closes the innermost of what is open. -/
theorem completes_after (h : After outer done head pending expr r) : Completes r := by
  induction hn : openings pending using Nat.strongRecOn generalizing pending expr r with
  | _ n ih =>
    have hcount := openings_close pending expr
    have hopen := close_open pending expr
    rcases hc : close pending expr with ⟨_ | ⟨p, rest⟩, last⟩
    · exact completes_closed h hc
    · rw [hc] at hcount hopen
      have hlt : openings rest < n → ∀ inner, Completes ⟨outer, done, .operator head rest inner⟩ :=
        fun hlt inner => ih _ hlt (.operator inner) rfl
      cases p with
      | group =>
        apply completes_cons (l := ⟨.closeParen, [')']⟩) (by decide)
          (after_closeParen_group h rfl hc)
        exact hlt (by simp only [openings] at hcount; omega) _
      | call callee args =>
        apply completes_cons (l := ⟨.closeParen, [')']⟩) (by decide)
          (after_bracket (.call callee) h rfl hc)
        exact hlt (by simp only [openings] at hcount; omega) _
      | array elements =>
        apply completes_cons (l := ⟨.closeBracket, [']']⟩) (by decide)
          (after_bracket .array h rfl hc)
        exact hlt (by simp only [openings] at hcount; omega) _
      | subscript base =>
        apply completes_cons (l := ⟨.closeBracket, [']']⟩) (by decide)
          (after_closeBracket_subscript h rfl hc)
        exact hlt (by simp only [openings] at hcount; omega) _
      | consequent test =>
        -- The colon opens nothing new, but it needs an operand after it.
        apply completes_cons (l := ⟨.colon, [':']⟩) (by decide) (after_colon h rfl hc)
        apply completes_cons (l := ⟨.number, ['0']⟩) (by decide) rfl
        exact ih _ (by simp only [openings] at hcount ⊢; omega) (.operator _) rfl
      | _ => exact absurd (hopen _ rfl) (Nat.lt_irrefl 0)

theorem completes_operand : Completes ⟨outer, done, .operand head pending⟩ := by
  apply completes_cons (l := ⟨.number, ['0']⟩) (by decide) rfl
  exact completes_after (.operator _)

end expressions

/-! ## Programs -/

/-- From every state, some completers lead to the end of a program. -/
theorem completes (r : Reader) : Completes r := by
  obtain ⟨outer, done, mode⟩ := r
  have hbecomes : ∀ mode head, Reader.step ⟨outer, done, mode⟩ ⟨.becomes, ['=']⟩ =
      some ⟨outer, done, .operand head []⟩ → Completes ⟨outer, done, mode⟩ :=
    fun mode head hstep => completes_cons (by decide) hstep completes_operand
  cases mode with
  | statement => exact completes_statement outer done
  | variableName =>
    apply completes_cons (l := ⟨.ident, ['x']⟩) (by decide) rfl
    exact hbecomes _ _ rfl
  | variableBecomes name => exact hbecomes _ _ rfl
  | functionName =>
    apply completes_cons (l := ⟨.ident, ['x']⟩) (by decide) rfl
    exact hbecomes _ _ rfl
  | parameters name params => exact hbecomes _ _ rfl
  | assignmentBecomes name => exact hbecomes _ _ rfl
  | operand head pending => exact completes_operand
  | named head pending name => exact completes_after (.named name)
  | operator head pending expr => exact completes_after (.operator expr)

theorem leads_completers {ls : List Lexeme} (h : ∀ l ∈ ls, l ∈ completers) (place : Place) :
    ∃ final, Leads place ls final := by
  have hname : ∀ l ∈ completers, ∀ k ∈ Terminal.keywords, k.1 ≠ l.text := by decide
  induction ls generalizing place with
  | nil => exact ⟨place, .nil place⟩
  | cons l ls ih =>
    rw [List.forall_mem_cons] at h
    obtain ⟨final, hleads⟩ := ih h.2 (place.after l.terminal)
    exact ⟨final, .cons (fun _ k hk heq => absurd heq (hname l h.1 k hk)) hleads⟩

theorem lexes_congr {place : Place} {cs cs' : List Char} {ls : List Lexeme}
    (hcs : skipLayout false cs = skipLayout false cs') (h : Lexes place cs ls) :
    Lexes place cs' ls := by
  cases ls with
  | nil => rwa [lexes_nil_iff, ← hcs, ← lexes_nil_iff]
  | cons l ls => rwa [lexes_cons_iff, ← hcs, ← lexes_cons_iff]

/-- From every state, some text is read to the end of a program, whatever layout stands before
it. -/
theorem exists_completion (r : Reader) : ∃ more program, ∀ last cs,
    skipLayout false cs = skipLayout false more → readFrom r last cs = .ok program := by
  obtain ⟨ls, r', program, hmem, hrun, hfinish⟩ := completes r
  obtain ⟨final, hleads⟩ := leads_completers hmem r.mode.place
  have hspelt : ∀ l ∈ ls, l.Spelt := fun l hl => spelt_completers l (hmem l hl)
  let words : List Text := ls.map fun l => .ofChars l.text
  have hwords : ls.map Lexeme.text = words.map Text.chars := by
    simp [words, Function.comp_def, Text.chars_ofChars]
  have hlexes := lexes_of_laid (laid_join words) hwords hspelt (.mode r) hrun hleads
  refine ⟨(Text.join " " words).chars, program, fun last cs hcs => ?_⟩
  exact readFrom_of_lexes (.mode r) (lexes_congr hcs.symm hlexes) hrun hfinish

end BellaLang.Source
