-- The trees that reading a source text gives. What the reader keeps at each step
-- is made of well-sorted parts, with words for names, so a text that is read to
-- its end gives a well-sorted program.
import BellaLang.Proofs.Numerals
import BellaLang.Proofs.Sorts
import BellaLang.Source.Parse

namespace BellaLang.Source

/-! ## Words -/

/-- A letter or an underscore, and then letters, underscores and the ten digits. -/
def IsWord (word : List Char) : Prop :=
  ∃ c tail, word = c :: tail ∧ isWordStart c = true ∧ ∀ d ∈ tail, isWordPart d = true

/-- The keywords that start a statement. -/
def statementWords : List Terminal := [.letWord, .funcWord, .printWord, .whileWord]

/-- The keywords that are operands. -/
def operandWords : List Terminal := [.trueWord, .falseWord]

/-- A word that is none of the given keywords. -/
def IsName (reserved : List Terminal) (name : Text) : Prop :=
  ∃ word, name = .ofChars word ∧ IsWord word ∧
    ∀ k ∈ Terminal.keywords, k.2 ∈ reserved → k.1 ≠ word

/-- What a source text may hold. -/
def vocabulary : Vocabulary where
  declared := IsName []
  assigned := IsName statementWords
  used := IsName operandWords
  unary op := ∃ u : UnaryOp, op = u.symbol
  binary op := ∃ b : BinaryOp, op = b.symbol
  numeral x := ∃ text spelled, Spells text spelled ∧ x = spelled.toNumber

/-! ## Lexemes -/

/-- What is known of a lexeme that was looked for among some terminals. -/
structure LexemeIn (accepts : Terminal → Bool) (l : Lexeme) : Prop where
  word : l.terminal = .ident → IsWord l.text ∧
    ∀ k ∈ Terminal.keywords, accepts k.2 = true → k.1 ≠ l.text
  number : l.terminal = .number → ∃ spelled, Spells l.text spelled

section lexemes

variable {accepts : Terminal → Bool} {cs rest : List Char} {l : Lexeme}

theorem isWord_takeWhile {c : Char} (hc : isWordStart c = true) (tail : List Char) :
    IsWord ((c :: tail).takeWhile isWordPart) := by
  have hpart : isWordPart c = true := by simp [isWordPart, hc]
  refine ⟨c, tail.takeWhile isWordPart, List.takeWhile_cons_of_pos hpart, hc, ?_⟩
  intro d hd
  have hall := List.all_takeWhile (p := isWordPart) (l := tail)
  rw [List.all_eq_true] at hall
  exact hall d hd

theorem wordTerminal_ne_number (word : List Char) : wordTerminal accepts word ≠ .number := by
  have hkeywords : ∀ k ∈ Terminal.keywords, k.2 ≠ .number := by decide
  unfold wordTerminal
  split
  · rename_i k hk
    exact hkeywords k (List.mem_of_find?_eq_some hk)
  · decide

theorem keyword_ne_of_ident {word : List Char} (h : wordTerminal accepts word = .ident) :
    ∀ k ∈ Terminal.keywords, accepts k.2 = true → k.1 ≠ word := by
  have hkeywords : ∀ k ∈ Terminal.keywords, k.2 ≠ .ident := by decide
  unfold wordTerminal at h
  split at h
  · rename_i k hk
    exact absurd h (hkeywords k (List.mem_of_find?_eq_some hk))
  · rename_i hnone
    intro k hk haccepts heq
    have hmiss := List.find?_eq_none.1 hnone k hk
    simp [heq, haccepts] at hmiss

theorem lexemeIn_of_lexeme? (h : lexeme? accepts cs = some (l, rest)) : LexemeIn accepts l := by
  unfold lexeme? at h
  split at h
  · cases h
  · rename_i c tail
    split at h
    · rename_i hc
      simp only [Option.ite_none_right_eq_some, Option.some.injEq, Prod.mk.injEq] at h
      obtain ⟨_, rfl, _⟩ := h
      exact ⟨fun hident => ⟨isWord_takeWhile hc tail, keyword_ne_of_ident hident⟩,
        fun hnumber => absurd hnumber (wordTerminal_ne_number _)⟩
    · split at h
      · split at h
        · rename_i spelled after hscan
          split at h
          · simp only [Option.some.injEq, Prod.mk.injEq] at h
            obtain ⟨rfl, rfl⟩ := h
            obtain ⟨text, htext, hspells⟩ := spells_of_scan? hscan
            refine ⟨fun hident => (by cases hident), fun _ => ⟨spelled, ?_⟩⟩
            rw [htext]
            simpa using hspells
          · cases h
        · cases h
      · have hident : ∀ s ∈ Terminal.symbols, s.2 ≠ .ident := by decide
        have hnumber : ∀ s ∈ Terminal.symbols, s.2 ≠ .number := by decide
        obtain ⟨s, hs, heq⟩ := Option.map_eq_some_iff.1 h
        have hmem := List.mem_of_find?_eq_some hs
        simp only [Prod.mk.injEq] at heq
        obtain ⟨rfl, _⟩ := heq
        exact ⟨fun h => absurd h (hident s hmem), fun h => absurd h (hnumber s hmem)⟩

theorem number_of_spells {spelled : Number.Spelled} (h : Spells l.text spelled) :
    l.number = spelled.toNumber := by
  rw [Lexeme.number, scan?_spells h]

/-- A number in a source text is what reading its text alone gives. -/
theorem ofText?_lexeme (h : lexeme? accepts cs = some (l, rest)) (hn : l.terminal = .number) :
    Number.ofText? l.text = some l.number := by
  obtain ⟨spelled, hspells⟩ := (lexemeIn_of_lexeme? h).number hn
  rw [ofText?_spells hspells, number_of_spells hspells]

end lexemes

/-! ## What the reader keeps -/

/-- What waits for an operand holds expressions only. -/
def Pending.Good (v : Vocabulary) : Pending → Prop
  | .unary _ => True
  | .binary left _ => left.IsExpr v
  | .group => True
  | .call callee args => v.used callee ∧ ∀ a ∈ args, a.IsExpr v
  | .array elements => ∀ e ∈ elements, e.IsExpr v
  | .subscript base => base.IsExpr v
  | .consequent test => test.IsExpr v
  | .alternate test first => test.IsExpr v ∧ first.IsExpr v

def Head.Good (v : Vocabulary) : Head → Prop
  | .variableDeclaration name => v.declared name
  | .functionDeclaration name params => v.declared name ∧ ∀ p ∈ params, v.declared p
  | .assignment name => v.assigned name
  | .printStatement => True
  | .whileStatement => True

/-- The expression under way, before its next operand. -/
structure Underway (v : Vocabulary) (head : Head) (pending : List Pending) : Prop where
  head : head.Good v
  pending : ∀ p ∈ pending, p.Good v

def Mode.Good (v : Vocabulary) : Mode → Prop
  | .statement => True
  | .variableName => True
  | .variableBecomes name => v.declared name
  | .functionName => True
  | .parameters name params => v.declared name ∧ ∀ p ∈ params, v.declared p
  | .assignmentBecomes name => v.assigned name
  | .operand head pending => Underway v head pending
  | .named head pending name => Underway v head pending ∧ v.used name
  | .operator head pending expr => Underway v head pending ∧ expr.IsExpr v

structure Reader.Good (v : Vocabulary) (r : Reader) : Prop where
  outer : ∀ b ∈ r.outer, b.1.IsExpr v ∧ ∀ s ∈ b.2, s.IsStatement v
  done : ∀ s ∈ r.done, s.IsStatement v
  mode : r.mode.Good v

section keeping

variable {r r' : Reader} {head : Head} {pending : List Pending} {expr : Node} {l : Lexeme}

theorem isExpr_unary (u : UnaryOp) (h : expr.IsExpr vocabulary) :
    Node.IsExpr vocabulary (.unary u.toJson expr) :=
  .unary ⟨u, rfl⟩ h

theorem isExpr_binary (b : BinaryOp) {left right : Node} (hl : left.IsExpr vocabulary)
    (hr : right.IsExpr vocabulary) : Node.IsExpr vocabulary (.binary b.toJson left right) :=
  .binary ⟨b, rfl⟩ hl hr

theorem reduce_good (level : Nat) (hp : ∀ p ∈ pending, p.Good vocabulary)
    (he : expr.IsExpr vocabulary) :
    (∀ p ∈ (reduce level pending expr).1, p.Good vocabulary) ∧
      (reduce level pending expr).2.IsExpr vocabulary := by
  fun_induction reduce level pending expr with
  | case1 op pending expr ih =>
    exact ih (fun p hmem => hp p (by simp [hmem])) (isExpr_unary op he)
  | case2 left op pending expr hlevel ih =>
    exact ih (fun p hmem => hp p (by simp [hmem]))
      (isExpr_binary op (hp (.binary left op) (by simp)) he)
  | case3 left op pending expr hlevel => exact ⟨hp, he⟩
  | case4 pending expr _ _ => exact ⟨hp, he⟩

theorem close_good (hp : ∀ p ∈ pending, p.Good vocabulary) (he : expr.IsExpr vocabulary) :
    (∀ p ∈ (close pending expr).1, p.Good vocabulary) ∧
      (close pending expr).2.IsExpr vocabulary := by
  fun_induction close pending expr with
  | case1 op pending expr ih =>
    exact ih (fun p hmem => hp p (by simp [hmem])) (isExpr_unary op he)
  | case2 left op pending expr ih =>
    exact ih (fun p hmem => hp p (by simp [hmem]))
      (isExpr_binary op (hp (.binary left op) (by simp)) he)
  | case3 test consequent pending expr ih =>
    obtain ⟨ht, hc⟩ := hp (.alternate test consequent) (by simp)
    exact ih (fun p hmem => hp p (by simp [hmem])) (.conditional ht hc he)
  | case4 pending expr _ _ _ => exact ⟨hp, he⟩

theorem complete?_good {statement : Node} (hh : head.Good vocabulary)
    (he : expr.IsExpr vocabulary) (h : head.complete? expr = some statement) :
    statement.IsStatement vocabulary := by
  cases head with
  | variableDeclaration name =>
    cases h
    exact .variableDeclaration hh he
  | functionDeclaration name params =>
    cases h
    exact .functionDeclaration hh.1 hh.2 he
  | assignment name =>
    cases h
    exact .assignment hh he
  | printStatement =>
    cases h
    exact .printStatement he
  | whileStatement => cases h

theorem good_start : Reader.Good vocabulary .start :=
  ⟨by simp [Reader.start], by simp [Reader.start], trivial⟩

theorem Reader.Good.withMode (h : r.Good vocabulary) {mode : Mode} (hm : mode.Good vocabulary) :
    Reader.Good vocabulary { r with mode } :=
  ⟨h.outer, h.done, hm⟩

theorem isName_word {accepts : Terminal → Bool} {reserved : List Terminal}
    (hl : LexemeIn accepts l) (ht : l.terminal = .ident)
    (hr : ∀ t ∈ reserved, accepts t = true) : IsName reserved (Reader.wordOf l) := by
  obtain ⟨hword, hkeywords⟩ := hl.word ht
  exact ⟨l.text, rfl, hword, fun k hk hmem => hkeywords k hk (hr _ hmem)⟩

/-- Between statements, where the keywords that start one are looked for. -/
theorem stepStatement_good {accepts : Terminal → Bool} (hl : LexemeIn accepts l)
    (hr : ∀ t ∈ statementWords, accepts t = true) (h : r.Good vocabulary)
    (hs : r.stepStatement l = some r') : r'.Good vocabulary := by
  unfold Reader.stepStatement at hs
  split at hs
  · cases hs
    exact h.withMode trivial
  · cases hs
    exact h.withMode trivial
  · cases hs
    exact h.withMode trivial
  · cases hs
    exact h.withMode ⟨trivial, by simp⟩
  · cases hs
    exact h.withMode ⟨trivial, by simp⟩
  · rename_i ht
    cases hs
    exact h.withMode (isName_word hl ht hr)
  · split at hs
    · cases hs
    · rename_i test before outer houter
      cases hs
      obtain ⟨htest, hbefore⟩ := h.outer (test, before) (by simp [houter])
      refine ⟨fun b hb => h.outer b (by simp [houter, hb]), ?_, trivial⟩
      intro s hs
      rcases List.mem_cons.1 hs with rfl | hs
      · exact .whileStatement htest fun s hs => h.done s (by simpa using hs)
      · exact hbefore s hs
  · cases hs

theorem underway_cons {p : Pending} (h : Underway vocabulary head pending)
    (hp : p.Good vocabulary) : Underway vocabulary head (p :: pending) := by
  refine ⟨h.head, ?_⟩
  intro q hq
  rcases List.mem_cons.1 hq with rfl | hq
  · exact hp
  · exact h.pending q hq

theorem Underway.tail {p : Pending} (h : Underway vocabulary head (p :: pending)) :
    p.Good vocabulary ∧ Underway vocabulary head pending :=
  ⟨h.pending p (by simp), h.head, fun q hq => h.pending q (by simp [hq])⟩

/-- Where an operand is due, the keywords that are operands are looked for. -/
theorem stepOperand_good {accepts : Terminal → Bool} (hl : LexemeIn accepts l)
    (hr : ∀ t ∈ operandWords, accepts t = true) (h : Underway vocabulary head pending)
    {mode : Mode} (hs : Reader.stepOperand head pending l = some mode) :
    mode.Good vocabulary := by
  unfold Reader.stepOperand at hs
  split at hs
  · cases hs
    exact underway_cons h trivial
  · split at hs
    · rename_i ht
      cases hs
      exact ⟨h, isName_word hl ht hr⟩
    · rename_i ht
      cases hs
      obtain ⟨spelled, hspells⟩ := hl.number ht
      exact ⟨h, .numeral ⟨l.text, spelled, hspells, number_of_spells hspells⟩⟩
    · cases hs
      exact ⟨h, .booleanLiteral true⟩
    · cases hs
      exact ⟨h, .booleanLiteral false⟩
    · cases hs
      exact underway_cons h trivial
    · cases hs
      exact underway_cons h (by simp [Pending.Good])
    · cases hs
      obtain ⟨hcall, htail⟩ := h.tail
      exact ⟨htail, .call hcall.1 (by simp)⟩
    · cases hs
      exact ⟨h.tail.2, .arrayLiteral (by simp)⟩
    · cases hs

/-- What closing gives: the expression so far, and what it is now the last part of. -/
theorem underway_close {rest : List Pending} {last : Node}
    (h : Underway vocabulary head pending) (he : expr.IsExpr vocabulary)
    (hc : close pending expr = (rest, last)) :
    Underway vocabulary head rest ∧ last.IsExpr vocabulary := by
  have hgood := close_good h.pending he
  rw [hc] at hgood
  exact ⟨⟨h.head, hgood.1⟩, hgood.2⟩

theorem isExpr_reverse {last : Node} {before : List Node} (hl : last.IsExpr vocabulary)
    (h : ∀ e ∈ before, e.IsExpr vocabulary) :
    ∀ e ∈ (last :: before).reverse, e.IsExpr vocabulary := by
  intro e he
  exact List.forall_mem_cons.2 ⟨hl, h⟩ e (List.mem_reverse.1 he)

theorem stepOperator_good {accepts : Terminal → Bool} (hl : LexemeIn accepts l)
    (hr : ∀ t ∈ statementWords, accepts t = true) (h : r.Good vocabulary)
    (hu : Underway vocabulary head pending) (he : expr.IsExpr vocabulary)
    (hs : r.stepOperator head pending expr l = some r') : r'.Good vocabulary := by
  unfold Reader.stepOperator at hs
  split at hs
  · rename_i op _
    have hreduced := reduce_good op.level hu.pending he
    cases hs
    exact h.withMode (underway_cons ⟨hu.head, hreduced.1⟩ hreduced.2)
  · split at hs
    · cases hs
      exact h.withMode (underway_cons hu he)
    · have hreduced := reduce_good 0 hu.pending he
      cases hs
      exact h.withMode (underway_cons ⟨hu.head, hreduced.1⟩ hreduced.2)
    · split at hs
      · rename_i hclose
        cases hs
        obtain ⟨hrest, hlast⟩ := underway_close hu he hclose
        exact h.withMode (underway_cons hrest.tail.2 ⟨hrest.tail.1, hlast⟩)
      · cases hs
    · split at hs
      · rename_i hclose
        cases hs
        obtain ⟨hrest, hlast⟩ := underway_close hu he hclose
        obtain ⟨hcall, htail⟩ := hrest.tail
        exact h.withMode (underway_cons htail ⟨hcall.1, List.forall_mem_cons.2 ⟨hlast, hcall.2⟩⟩)
      · rename_i hclose
        cases hs
        obtain ⟨hrest, hlast⟩ := underway_close hu he hclose
        obtain ⟨harray, htail⟩ := hrest.tail
        exact h.withMode (underway_cons htail (List.forall_mem_cons.2 ⟨hlast, harray⟩))
      · cases hs
    · split at hs
      · rename_i hclose
        cases hs
        obtain ⟨hrest, hlast⟩ := underway_close hu he hclose
        exact h.withMode ⟨hrest.tail.2, hlast⟩
      · rename_i hclose
        cases hs
        obtain ⟨hrest, hlast⟩ := underway_close hu he hclose
        obtain ⟨hcall, htail⟩ := hrest.tail
        exact h.withMode ⟨htail, .call hcall.1 (isExpr_reverse hlast hcall.2)⟩
      · cases hs
    · split at hs
      · rename_i hclose
        cases hs
        obtain ⟨hrest, hlast⟩ := underway_close hu he hclose
        obtain ⟨harray, htail⟩ := hrest.tail
        exact h.withMode ⟨htail, .arrayLiteral (isExpr_reverse hlast harray)⟩
      · rename_i hclose
        cases hs
        obtain ⟨hrest, hlast⟩ := underway_close hu he hclose
        obtain ⟨hbase, htail⟩ := hrest.tail
        exact h.withMode ⟨htail, .subscript hbase hlast⟩
      · cases hs
    · split at hs
      · rename_i hclose
        cases hs
        obtain ⟨_, htest⟩ := underway_close hu he hclose
        refine ⟨?_, by simp, trivial⟩
        intro b hb
        rcases List.mem_cons.1 hb with rfl | hb
        · exact ⟨htest, h.done⟩
        · exact h.outer b hb
      · cases hs
    · split at hs
      · rename_i hclose
        obtain ⟨hrest, hlast⟩ := underway_close hu he hclose
        obtain ⟨statement, hstatement, hs⟩ := Option.bind_eq_some_iff.1 hs
        have hcomplete := complete?_good hrest.head hlast hstatement
        have hnext : Reader.Good vocabulary ⟨r.outer, statement :: r.done, .statement⟩ :=
          ⟨h.outer, List.forall_mem_cons.2 ⟨hcomplete, h.done⟩, trivial⟩
        exact stepStatement_good hl hr hnext hs
      · cases hs

theorem accepts_statement : ∀ t ∈ statementWords, Context.statement.accepts t = true := by decide

theorem accepts_operand : ∀ t ∈ operandWords, Context.operand.accepts t = true := by decide

theorem accepts_operator : ∀ t ∈ statementWords, Context.operator.accepts t = true := by decide

/-- A lexeme that is taken keeps everything well sorted. Which keywords were looked for before
it was taken to be a name is decided by the context. -/
theorem step_good (h : r.Good vocabulary) (hl : LexemeIn r.context.accepts l)
    (hs : r.step l = some r') : r'.Good vocabulary := by
  have hmode := h.mode
  unfold Reader.step at hs
  unfold Reader.context at hl
  split at hs
  · rename_i heq
    rw [heq] at hl
    exact stepStatement_good hl accepts_statement h hs
  · rename_i heq
    rw [heq] at hl
    split at hs
    · rename_i ht
      cases hs
      exact h.withMode (isName_word hl ht (by simp))
    · cases hs
  · rename_i name heq
    rw [heq] at hmode
    split at hs
    · cases hs
      exact h.withMode ⟨hmode, by simp⟩
    · cases hs
  · rename_i heq
    rw [heq] at hl
    split at hs
    · rename_i ht
      cases hs
      exact h.withMode ⟨isName_word hl ht (by simp), by simp⟩
    · cases hs
  · rename_i name params heq
    rw [heq] at hl hmode
    split at hs
    · rename_i ht
      cases hs
      exact h.withMode ⟨hmode.1, List.forall_mem_cons.2 ⟨isName_word hl ht (by simp), hmode.2⟩⟩
    · cases hs
      exact h.withMode ⟨⟨hmode.1, fun p hp => hmode.2 p (by simpa using hp)⟩, by simp⟩
    · cases hs
  · rename_i name heq
    rw [heq] at hmode
    split at hs
    · cases hs
      exact h.withMode ⟨hmode, by simp⟩
    · cases hs
  · rename_i head pending heq
    rw [heq] at hl hmode
    obtain ⟨mode, hm, hs⟩ := Option.bind_eq_some_iff.1 hs
    cases hs
    exact h.withMode (stepOperand_good hl accepts_operand hmode hm)
  · rename_i head pending name heq
    rw [heq] at hl hmode
    split at hs
    · cases hs
      exact h.withMode (underway_cons hmode.1 ⟨hmode.2, by simp⟩)
    · exact stepOperator_good hl accepts_operator h hmode.1 (.identifier hmode.2) hs
  · rename_i head pending expr heq
    rw [heq] at hl hmode
    exact stepOperator_good hl accepts_operator h hmode.1 hmode.2 hs

theorem endAfter_good {done statements : List Node}
    (hd : ∀ s ∈ done, s.IsStatement vocabulary) (hu : Underway vocabulary head pending)
    (he : expr.IsExpr vocabulary)
    (h : Reader.endAfter done head pending expr = some statements) :
    ∀ s ∈ statements, s.IsStatement vocabulary := by
  unfold Reader.endAfter at h
  split at h
  · rename_i hclose
    obtain ⟨hrest, hlast⟩ := underway_close hu he hclose
    obtain ⟨statement, hstatement, rfl⟩ := Option.map_eq_some_iff.1 h
    exact List.forall_mem_cons.2 ⟨complete?_good hrest.head hlast hstatement, hd⟩
  · cases h

theorem finish?_good {program : Node} (h : r.Good vocabulary) (hf : r.finish? = some program) :
    program.IsProgram vocabulary := by
  have hmode := h.mode
  have hblock : ∀ statements : List Node, (∀ s ∈ statements, s.IsStatement vocabulary) →
      (Node.program (.block statements.reverse)).IsProgram vocabulary :=
    fun statements hall => .program fun s hmem => hall s (List.mem_reverse.1 hmem)
  unfold Reader.finish? at hf
  simp only at hf
  split at hf
  · cases hf
    exact hblock _ h.done
  · rename_i heq
    rw [heq] at hmode
    obtain ⟨statements, hs, hp⟩ := Option.bind_eq_some_iff.1 hf
    cases hp
    exact hblock _ (endAfter_good h.done hmode.1 (.identifier hmode.2) hs)
  · rename_i heq
    rw [heq] at hmode
    obtain ⟨statements, hs, hp⟩ := Option.bind_eq_some_iff.1 hf
    cases hp
    exact hblock _ (endAfter_good h.done hmode.1 hmode.2 hs)
  · cases hf

end keeping

/-! ## Reading a text -/

/-- Reading goes on from good states to good states, down to the end of the text. -/
theorem readFrom_isProgram {r : Reader} {last : Nat} {cs : List Char} {program : Node}
    (h : r.Good vocabulary) (hr : readFrom r last cs = .ok program) :
    program.IsProgram vocabulary := by
  fun_induction readFrom r last cs with
  | case1 r last cs hlayout program' hfinish =>
    cases hr
    exact finish?_good h hfinish
  | case2 => cases hr
  | case3 r last cs c tail hlayout place lexeme rest hl hlt next hstep ih =>
    exact ih (step_good h (lexemeIn_of_lexeme? hl) hstep) hr
  | case4 => cases hr
  | case5 => cases hr
  | case6 => cases hr

theorem parse_isProgram {text : Text} {program : Node} (h : parse text = .ok program) :
    program.IsProgram vocabulary := by
  unfold parse at h
  split at h
  · rename_i hread
    cases h
    exact readFrom_isProgram good_start hread
  · cases h

end BellaLang.Source
