-- The reader reads every tree of the grammar. After the lexemes of an expression
-- it waits as if the expression had been a single operand, whatever was pending
-- before, so a tree is read part by part.
import BellaLang.Proofs.Unambiguity

namespace BellaLang.Source

/-! ## Spelled lexemes -/

/-- All terminals but names and numbers have one spelling. -/
theorem Lexeme.Spelt.mem {l : Lexeme} (h : l.Spelt) (hi : l.terminal ≠ .ident)
    (hn : l.terminal ≠ .number) : (l.text, l.terminal) ∈ Terminal.keywords ++ Terminal.symbols := by
  unfold Spelt at h
  split at h
  · contradiction
  · contradiction
  · exact h

theorem fixed_terminals : ∀ k ∈ Terminal.keywords ++ Terminal.symbols,
    k.2 ≠ .ident ∧ k.2 ≠ .number := by decide

theorem spelt_of_mem {text : List Char} {t : Terminal}
    (h : (text, t) ∈ Terminal.keywords ++ Terminal.symbols) : (⟨t, text⟩ : Lexeme).Spelt := by
  obtain ⟨hi, hn⟩ := fixed_terminals _ h
  unfold Lexeme.Spelt
  split
  · contradiction
  · contradiction
  · exact h

/-- The symbol of an operator is the text of its lexeme. -/
theorem toJson_unary {l : Lexeme} {op : UnaryOp} (hs : l.Spelt) (h : l.terminal.unary? = some op) :
    op.toJson = .str (.ofChars l.text) := by
  have htable : ∀ k ∈ Terminal.keywords ++ Terminal.symbols, ∀ op ∈ k.2.unary?,
      Text.ofChars k.1 = Text.ofString op.symbol := by decide
  have hi : l.terminal ≠ .ident := by intro heq; rw [heq] at h; cases h
  have hn : l.terminal ≠ .number := by intro heq; rw [heq] at h; cases h
  rw [UnaryOp.toJson, htable _ (hs.mem hi hn) op h]

theorem toJson_binary {l : Lexeme} {op : BinaryOp} (hs : l.Spelt)
    (h : l.terminal.binary? = some op) : op.toJson = .str (.ofChars l.text) := by
  have htable : ∀ k ∈ Terminal.keywords ++ Terminal.symbols, ∀ op ∈ k.2.binary?,
      Text.ofChars k.1 = Text.ofString op.symbol := by decide
  have hi : l.terminal ≠ .ident := by intro heq; rw [heq] at h; cases h
  have hn : l.terminal ≠ .number := by intro heq; rw [heq] at h; cases h
  rw [BinaryOp.toJson, htable _ (hs.mem hi hn) op h]

/-- A number is spelled in such a way that it has a value. -/
theorem number_eq {l : Lexeme} (hs : l.Spelt) (h : l.terminal = .number) :
    l.number = (Number.ofText? l.text).getD 0 := by
  unfold Lexeme.Spelt at hs
  rw [h] at hs
  obtain ⟨spelled, hspells⟩ := hs
  rw [number_of_spells hspells, ofText?_spells hspells, Option.getD_some]

theorem unary_of_token (op : Token [.minus, .plus, .bang]) :
    ∃ u, op.1.terminal.unary? = some u ∧ u.toJson = .str op.word := by
  have hmem := op.2.1
  have hsome : ∀ t ∈ [Terminal.minus, .plus, .bang], ∃ u, t.unary? = some u := by
    simp [Terminal.unary?]
  obtain ⟨u, hu⟩ := hsome _ hmem
  exact ⟨u, hu, toJson_unary op.2.2 hu⟩

/-- The operators of a level of the grammar are the binary operators that bind as strongly. -/
theorem binary_of_mem_operators {level : Nat} {t : Terminal} (h : t ∈ operators level) :
    ∃ b, t.binary? = some b ∧ b.level = level := by
  unfold operators at h
  split at h <;> simp at h
  · rw [h]; exact ⟨_, rfl, rfl⟩
  · rw [h]; exact ⟨_, rfl, rfl⟩
  · rcases h with rfl | rfl <;> exact ⟨_, rfl, rfl⟩
  · rcases h with rfl | rfl | rfl | rfl <;> exact ⟨_, rfl, rfl⟩
  · rcases h with rfl | rfl <;> exact ⟨_, rfl, rfl⟩
  · rcases h with rfl | rfl | rfl <;> exact ⟨_, rfl, rfl⟩

theorem binary_of_token {level : Nat} (op : Token (operators level)) :
    ∃ b, op.1.terminal.binary? = some b ∧ b.level = level ∧ b.toJson = .str op.word := by
  obtain ⟨b, hb, hlevel⟩ := binary_of_mem_operators op.2.1
  exact ⟨b, hb, hlevel, toJson_binary op.2.2 hb⟩

/-! ## Runs of the reader -/

/-- The state after some lexemes. -/
def Reader.run (r : Reader) : List Lexeme → Option Reader
  | [] => some r
  | l :: ls => (r.step l).bind fun next => next.run ls

/-- The reader takes one list of lexemes after the other. -/
theorem run_append (r : Reader) (ls ls' : List Lexeme) :
    r.run (ls ++ ls') = (r.run ls).bind fun next => next.run ls' := by
  induction ls generalizing r with
  | nil => rfl
  | cons l ls ih =>
    simp only [List.cons_append, Reader.run]
    rcases r.step l with _ | next
    · rfl
    · exact ih next

theorem run_append_of {r r' : Reader} {ls : List Lexeme} (h : r.run ls = some r')
    (ls' : List Lexeme) : r.run (ls ++ ls') = r'.run ls' := by
  rw [run_append, h, Option.bind_some]

theorem run_cons_of {r r' : Reader} {l : Lexeme} (h : r.step l = some r') (ls : List Lexeme) :
    r.run (l :: ls) = r'.run ls := by
  rw [Reader.run, h, Option.bind_some]

/-! ## After an operand -/

/-- The reader stands after an expression, which may be a name. -/
inductive After (outer : List (Node × List Node)) (done : List Node) (head : Head)
    (pending : List Pending) : Node → Reader → Prop
  | operator (expr : Node) : After outer done head pending expr
      ⟨outer, done, .operator head pending expr⟩
  | named (name : Text) : After outer done head pending (.identifier (.str name))
      ⟨outer, done, .named head pending name⟩

section after

variable {outer : List (Node × List Node)} {done : List Node} {head : Head}
  {pending rest : List Pending} {expr last : Node} {r : Reader} {l : Lexeme}

/-- Only a parenthesis tells a name from any other operand. -/
theorem step_after (h : After outer done head pending expr r) (hl : l.terminal ≠ .openParen) :
    r.step l = Reader.stepOperator ⟨outer, done, .statement⟩ head pending expr l := by
  cases h with
  | operator => rfl
  | named name =>
    unfold Reader.step
    simp only
    rfl

/-- Before a binary operator is put on hold, what binds at least as strongly is reduced. -/
theorem after_binary (h : After outer done head pending expr r) {op : BinaryOp}
    (hl : l.terminal.binary? = some op) (hr : reduce op.level pending expr = (rest, last)) :
    r.step l = some ⟨outer, done, .operand head (.binary last op :: rest)⟩ := by
  have hne : l.terminal ≠ .openParen := by intro heq; rw [heq] at hl; cases hl
  rw [step_after h hne]
  unfold Reader.stepOperator
  simp only [hl, hr]

theorem after_openBracket (h : After outer done head pending expr r)
    (hl : l.terminal = .openBracket) :
    r.step l = some ⟨outer, done, .operand head (.subscript expr :: pending)⟩ := by
  rw [step_after h (by simp [hl])]
  unfold Reader.stepOperator
  rw [hl]
  rfl

theorem after_question (h : After outer done head pending expr r) (hl : l.terminal = .question)
    (hr : reduce 0 pending expr = (rest, last)) :
    r.step l = some ⟨outer, done, .operand head (.consequent last :: rest)⟩ := by
  rw [step_after h (by simp [hl])]
  unfold Reader.stepOperator
  rw [hl]
  simp only [Terminal.binary?, hr]

theorem after_colon (h : After outer done head pending expr r) (hl : l.terminal = .colon)
    {test : Node} (hc : close pending expr = (.consequent test :: rest, last)) :
    r.step l = some ⟨outer, done, .operand head (.alternate test last :: rest)⟩ := by
  rw [step_after h (by simp [hl])]
  unfold Reader.stepOperator
  rw [hl]
  simp only [Terminal.binary?, hc]

/-- A closing parenthesis reduces everything down to the parenthesis it belongs to. -/
theorem after_closeParen_group (h : After outer done head pending expr r)
    (hl : l.terminal = .closeParen) (hc : close pending expr = (.group :: rest, last)) :
    r.step l = some ⟨outer, done, .operator head rest last⟩ := by
  rw [step_after h (by simp [hl])]
  unfold Reader.stepOperator
  rw [hl]
  simp only [Terminal.binary?, hc]

theorem after_closeBracket_subscript (h : After outer done head pending expr r)
    (hl : l.terminal = .closeBracket) {base : Node}
    (hc : close pending expr = (.subscript base :: rest, last)) :
    r.step l = some ⟨outer, done, .operator head rest (.subscript base last)⟩ := by
  rw [step_after h (by simp [hl])]
  unfold Reader.stepOperator
  rw [hl]
  simp only [Terminal.binary?, hc]

/-- The brace of a loop ends its test and opens its body. -/
theorem after_openBrace (h : After outer done .whileStatement pending expr r)
    (hl : l.terminal = .openBrace) (hc : close pending expr = ([], last)) :
    r.step l = some ⟨(last, done) :: outer, [], .statement⟩ := by
  rw [step_after h (by simp [hl])]
  unfold Reader.stepOperator
  rw [hl]
  simp only [Terminal.binary?, hc]

/-- What collects the parts of a list, and the node that they make. -/
inductive Collects : (List Node → Pending) → Terminal → (List Node → Node) → Prop
  | call (callee : Text) : Collects (.call callee) .closeParen (.call (.str callee))
  | array : Collects .array .closeBracket .arrayLiteral

variable {frame : List Node → Pending} {bracket : Terminal} {make : List Node → Node}
  {before : List Node}

/-- A comma ends one part of a list, and the next one is due. -/
theorem after_comma (hf : Collects frame bracket make) (h : After outer done head pending expr r)
    (hl : l.terminal = .comma) (hc : close pending expr = (frame before :: rest, last)) :
    r.step l = some ⟨outer, done, .operand head (frame (last :: before) :: rest)⟩ := by
  rw [step_after h (by simp [hl])]
  unfold Reader.stepOperator
  rw [hl]
  cases hf <;> simp only [Terminal.binary?, hc]

theorem after_bracket (hf : Collects frame bracket make) (h : After outer done head pending expr r)
    (hl : l.terminal = bracket) (hc : close pending expr = (frame before :: rest, last)) :
    r.step l = some ⟨outer, done, .operator head rest (make (last :: before).reverse)⟩ := by
  cases hf with
  | call callee =>
    rw [step_after h (by simp [hl])]
    unfold Reader.stepOperator
    rw [hl]
    simp only [Terminal.binary?, hc]
  | array =>
    rw [step_after h (by simp [hl])]
    unfold Reader.stepOperator
    rw [hl]
    simp only [Terminal.binary?, hc]

theorem operand_bracket (hf : Collects frame bracket make) (hl : l.terminal = bracket) :
    Reader.step ⟨outer, done, .operand head (frame [] :: rest)⟩ l =
      some ⟨outer, done, .operator head rest (make [])⟩ := by
  cases hf <;> simp only [Reader.step, Reader.stepOperand, hl, Terminal.unary?] <;> rfl

theorem close_collects (hf : Collects frame bracket make) (before : List Node) (expr : Node) :
    close (frame before :: rest) expr = (frame before :: rest, expr) := by
  cases hf <;> rfl

end after

/-! ## Before an operand -/

/-- An operand of a level may stand on top of what is pending: no operator there binds as
tightly as its own operators. -/
def Awaits (level : Nat) : List Pending → Prop
  | .unary _ :: _ => 7 ≤ level
  | .binary _ op :: _ => op.level < level
  | _ => True

theorem Awaits.succ {level : Nat} {pending : List Pending} (h : Awaits level pending) :
    Awaits (level + 1) pending := by
  unfold Awaits at h ⊢
  split <;> simp_all <;> omega

/-- Where an operand of a level is awaited, nothing that is pending is reduced at that level. -/
theorem reduce_of_awaits {level : Nat} (hl : level < 7) {pending : List Pending}
    (h : Awaits level pending) (expr : Node) : reduce level pending expr = (pending, expr) := by
  unfold Awaits at h
  split at h
  · omega
  · rw [reduce, if_neg (by omega)]
  · unfold reduce
    split <;> simp_all

/-- What is pending after an expression comes to what it would come to if the expression had
been a single operand. -/
structure Comes (level : Nat) (pending : List Pending) (expr : Node) (pending' : List Pending)
    (expr' : Node) : Prop where
  close : close pending' expr' = close pending expr
  reduce : 0 < level → ∀ k ≤ level, reduce k pending' expr' = reduce k pending expr
  same : 8 ≤ level → pending' = pending ∧ expr' = expr

theorem Comes.refl (level : Nat) (pending : List Pending) (expr : Node) :
    Comes level pending expr pending expr :=
  ⟨rfl, fun _ _ _ => rfl, fun _ => ⟨rfl, rfl⟩⟩

/-! ## Between statements -/

/-- The reader may go on with a statement: it stands between statements, or after the
expression that ends one. -/
inductive Settled (outer : List (Node × List Node)) : List Node → Reader → Prop
  | between (done : List Node) : Settled outer done ⟨outer, done, .statement⟩
  | after {done : List Node} {head : Head} {pending : List Pending} {expr last statement : Node}
      {r : Reader} (h : After outer done head pending expr r)
      (hc : close pending expr = ([], last)) (hs : head.complete? last = some statement) :
      Settled outer (statement :: done) r

/-- What starts a statement or ends a block completes the statement before it. -/
theorem step_settled {outer : List (Node × List Node)} {done : List Node} {r : Reader} {l : Lexeme}
    (h : Settled outer done r) (hl : l.terminal.startsItem = true ∨ l.terminal = .closeBrace) :
    r.step l = Reader.stepStatement ⟨outer, done, .statement⟩ l := by
  cases h with
  | between => rfl
  | after h hc hs =>
    have hne : l.terminal ≠ .openParen := by
      intro heq
      rw [heq] at hl
      simp [Terminal.startsItem] at hl
    rw [step_after h hne]
    unfold Reader.stepOperator
    cases ht : l.terminal with simp only [ht, Terminal.startsItem, reduceCtorEq, or_false, or_true,
      Bool.false_eq_true] at hl
    | ident => simp only [Terminal.binary?, hc, hs]; rfl
    | letWord => simp only [Terminal.binary?, hc, hs]; rfl
    | funcWord => simp only [Terminal.binary?, hc, hs]; rfl
    | printWord => simp only [Terminal.binary?, hc, hs]; rfl
    | whileWord => simp only [Terminal.binary?, hc, hs]; rfl
    | semicolon => simp only [Terminal.binary?, hc, hs]; rfl
    | closeBrace => simp only [Terminal.binary?, hc, hs]; rfl

/-! ## Reading trees -/

/-- The reader takes the lexemes of a tree and keeps what the tree is read as. -/
def Tree.IsRead : {n : Nonterminal} → Tree n → Prop
  | .program, t => ∃ r, Reader.run .start t.yield = some r ∧ r.finish? = some t.read
  | .items, t => ∀ outer done r, Settled outer done r →
      ∃ r', r.run t.yield = some r' ∧ Settled outer (List.reverse t.read ++ done) r'
  | .statement, t => ∀ outer done r, Settled outer done r →
      ∃ r', r.run t.yield = some r' ∧ Settled outer (List.cons t.read done) r'
  | .params, t => ∀ outer done name params,
      Reader.run ⟨outer, done, .parameters name params⟩ t.yield =
        some ⟨outer, done, .parameters name (List.reverse t.read ++ params)⟩
  | .block, t => ∀ outer done pending expr test r,
      After outer done .whileStatement pending expr r → close pending expr = ([], test) →
      r.run t.yield = some ⟨outer, .whileStatement test t.read :: done, .statement⟩
  | .expr level, t => ∀ outer done head pending, Awaits level pending →
      ∃ pending' expr r, Reader.run ⟨outer, done, .operand head pending⟩ t.yield = some r ∧
        After outer done head pending' expr r ∧ Comes level pending t.read pending' expr
  | .args, t => ∀ outer done head pending frame bracket make, Collects frame bracket make →
      ∀ l : Lexeme, l.terminal = bracket →
      Reader.run ⟨outer, done, .operand head (frame [] :: pending)⟩ (t.yield ++ [l]) =
        some ⟨outer, done, .operator head pending (make t.read)⟩
  | .moreArgs, t => ∀ outer done head pending frame bracket make, Collects frame bracket make →
      ∀ (l : Lexeme) pending' expr r before last, l.terminal = bracket →
      After outer done head pending' expr r →
      close pending' expr = (frame before :: pending, last) →
      r.run (t.yield ++ [l]) =
        some ⟨outer, done, .operator head pending (make ((last :: before).reverse ++ t.read))⟩

section expressions

variable {level : Nat}

/-- An expression of the next level may stand where one of the level is awaited. -/
theorem isRead_next (h : level < 9) {expr : Tree (.expr (level + 1))} (he : expr.IsRead) :
    (Tree.next h expr).IsRead := by
  intro outer done head pending hawaits
  obtain ⟨pending', expr', r, hrun, hafter, hcomes⟩ := he outer done head pending hawaits.succ
  refine ⟨pending', expr', r, hrun, hafter, hcomes.close, ?_, ?_⟩
  · intro _ k hk
    exact hcomes.reduce (by omega) k (by omega)
  · intro h8
    exact hcomes.same (by omega)

/-- The question mark ends the test and the colon the middle part; the last part takes whatever
follows. -/
theorem isRead_ternary {test : Tree (.expr 1)} {consequent alternate : Tree (.expr 0)}
    (question : Token [.question]) (colon : Token [.colon]) (ht : test.IsRead)
    (hc : consequent.IsRead) (ha : alternate.IsRead) :
    (Tree.ternary test question consequent colon alternate).IsRead := by
  intro outer done head pending hawaits
  obtain ⟨p₁, e₁, r₁, hrun₁, hafter₁, hcomes₁⟩ := ht outer done head pending hawaits.succ
  have hreduce : reduce 0 p₁ e₁ = (pending, test.read) := by
    rw [hcomes₁.reduce (by omega) 0 (by omega), reduce_of_awaits (by omega) hawaits]
  obtain ⟨p₂, e₂, r₂, hrun₂, hafter₂, hcomes₂⟩ :=
    hc outer done head (.consequent test.read :: pending) trivial
  obtain ⟨p₃, e₃, r₃, hrun₃, hafter₃, hcomes₃⟩ :=
    ha outer done head (.alternate test.read consequent.read :: pending) trivial
  refine ⟨p₃, e₃, r₃, ?_, hafter₃, hcomes₃.close, by omega, by omega⟩
  rw [Tree.yield, run_append_of hrun₁, run_cons_of (after_question hafter₁ (by simp) hreduce),
    run_append_of hrun₂, run_cons_of (after_colon hafter₂ (by simp) hcomes₂.close)]
  exact hrun₃

/-- The left operand is read first and is reduced when the operator arrives. -/
theorem isRead_binary {left : Tree (.expr level)} (op : Token (operators level))
    {right : Tree (.expr (level + 1))} (hl : left.IsRead) (hr : right.IsRead) :
    (Tree.binary left op right).IsRead := by
  intro outer done head pending hawaits
  have hlevel := level_of_operator op
  obtain ⟨b, hb, rfl, hjson⟩ := binary_of_token op
  obtain ⟨p₁, e₁, r₁, hrun₁, hafter₁, hcomes₁⟩ := hl outer done head pending hawaits
  have hreduce : reduce b.level p₁ e₁ = (pending, left.read) := by
    rw [hcomes₁.reduce (by omega) _ (Nat.le_refl _), reduce_of_awaits (by omega) hawaits]
  obtain ⟨p₂, e₂, r₂, hrun₂, hafter₂, hcomes₂⟩ :=
    hr outer done head (.binary left.read b :: pending) (Nat.lt_succ_self _)
  have hread : (Tree.binary left op right).read = Node.binary b.toJson left.read right.read := by
    rw [hjson]
    rfl
  refine ⟨p₂, e₂, r₂, ?_, hafter₂, ?_, ?_, by omega⟩
  · rw [Tree.yield, run_append_of hrun₁, run_cons_of (after_binary hafter₁ hb hreduce)]
    exact hrun₂
  · rw [hcomes₂.close, hread]
    rfl
  · intro _ k hk
    rw [hcomes₂.reduce (by omega) k (by omega), hread, reduce, if_pos hk]

theorem step_unary {outer : List (Node × List Node)} {done : List Node} {head : Head}
    {pending : List Pending} {l : Lexeme} {op : UnaryOp} (h : l.terminal.unary? = some op) :
    Reader.step ⟨outer, done, .operand head pending⟩ l =
      some ⟨outer, done, .operand head (.unary op :: pending)⟩ := by
  simp only [Reader.step, Reader.stepOperand, h]
  rfl

/-- A unary operator is on hold until a binary operator or an end arrives. -/
theorem isRead_unary (op : Token [.minus, .plus, .bang]) {operand : Tree (.expr 7)}
    (ho : operand.IsRead) : (Tree.unary op operand).IsRead := by
  intro outer done head pending _
  obtain ⟨u, hu, hjson⟩ := unary_of_token op
  obtain ⟨p, e, r, hrun, hafter, hcomes⟩ :=
    ho outer done head (.unary u :: pending) (Nat.le_refl _)
  have hread : (Tree.unary op operand).read = Node.unary u.toJson operand.read := by
    rw [hjson]
    rfl
  refine ⟨p, e, r, ?_, hafter, ?_, ?_, by omega⟩
  · rw [Tree.yield, run_cons_of (step_unary hu)]
    exact hrun
  · rw [hcomes.close, hread]
    rfl
  · intro h k hk
    rw [hcomes.reduce h k hk, hread]
    rfl

/-- A subscript takes up the operand before it and nothing that is pending. -/
theorem isRead_subscript {base : Tree (.expr 8)} (openBracket : Token [.openBracket])
    {index : Tree (.expr 0)} (closeBracket : Token [.closeBracket]) (hb : base.IsRead)
    (hi : index.IsRead) : (Tree.subscript base openBracket index closeBracket).IsRead := by
  intro outer done head pending hawaits
  obtain ⟨p₁, e₁, r₁, hrun₁, hafter₁, hcomes₁⟩ := hb outer done head pending hawaits
  obtain ⟨rfl, rfl⟩ := hcomes₁.same (by omega)
  obtain ⟨p₂, e₂, r₂, hrun₂, hafter₂, hcomes₂⟩ :=
    hi outer done head (.subscript base.read :: p₁) trivial
  refine ⟨p₁, .subscript base.read index.read, _, ?_, .operator _, Comes.refl _ _ _⟩
  rw [Tree.yield, run_append_of hrun₁, run_cons_of (after_openBracket hafter₁ (by simp)),
    run_append_of hrun₂, run_cons_of (after_closeBracket_subscript hafter₂ (by simp) hcomes₂.close)]
  rfl

/-- A lexeme that is an operand of its own. -/
theorem isRead_leaf {t : Tree (.expr 9)} {l : Lexeme} (hy : t.yield = [l])
    (h : ∀ head pending, Reader.stepOperand head pending l = some (.operator head pending t.read)) :
    t.IsRead := by
  intro outer done head pending _
  refine ⟨pending, t.read, ⟨outer, done, .operator head pending t.read⟩, ?_, .operator _,
    Comes.refl _ _ _⟩
  rw [hy, Reader.run, Reader.step]
  simp only [h]
  rfl

theorem isRead_numeral (number : Token [.number]) : (Tree.numeral number).IsRead := by
  refine isRead_leaf rfl fun head pending => ?_
  have hnumber := number_eq number.2.2 number.terminal_eq
  simp only [Reader.stepOperand, Token.terminal_eq, Terminal.unary?, hnumber]
  rfl

theorem isRead_trueLiteral (word : Token [.trueWord]) : (Tree.trueLiteral word).IsRead := by
  refine isRead_leaf rfl fun head pending => ?_
  simp only [Reader.stepOperand, Token.terminal_eq, Terminal.unary?]
  rfl

theorem isRead_falseLiteral (word : Token [.falseWord]) : (Tree.falseLiteral word).IsRead := by
  refine isRead_leaf rfl fun head pending => ?_
  simp only [Reader.stepOperand, Token.terminal_eq, Terminal.unary?]
  rfl

theorem step_name {outer : List (Node × List Node)} {done : List Node} {head : Head}
    {pending : List Pending} (name : Token [.ident]) :
    Reader.step ⟨outer, done, .operand head pending⟩ name.1 =
      some ⟨outer, done, .named head pending name.word⟩ := by
  simp only [Reader.step, Reader.stepOperand, Token.terminal_eq, Terminal.unary?]
  rfl

theorem isRead_identifier (name : Token [.ident]) : (Tree.identifier name).IsRead := by
  intro outer done head pending _
  refine ⟨pending, .identifier (.str name.word), _, ?_, .named _, Comes.refl _ _ _⟩
  rw [Tree.yield, run_cons_of (step_name name)]
  rfl

theorem isRead_call (callee : Token [.ident]) (openParen : Token [.openParen])
    {args : Tree .args} (closeParen : Token [.closeParen]) (ha : args.IsRead) :
    (Tree.call callee openParen args closeParen).IsRead := by
  intro outer done head pending _
  refine ⟨pending, .call (.str callee.word) args.read, _, ?_, .operator _, Comes.refl _ _ _⟩
  have hopen : Reader.step ⟨outer, done, .named head pending callee.word⟩ openParen.1 =
      some ⟨outer, done, .operand head (.call callee.word [] :: pending)⟩ := by
    simp only [Reader.step, Token.terminal_eq]
  rw [Tree.yield, run_cons_of (step_name callee), run_cons_of hopen]
  exact ha outer done head pending _ _ _ (.call callee.word) _ (by simp)

theorem isRead_array (openBracket : Token [.openBracket]) {elements : Tree .args}
    (closeBracket : Token [.closeBracket]) (he : elements.IsRead) :
    (Tree.array openBracket elements closeBracket).IsRead := by
  intro outer done head pending _
  refine ⟨pending, .arrayLiteral elements.read, _, ?_, .operator _, Comes.refl _ _ _⟩
  have hopen : Reader.step ⟨outer, done, .operand head pending⟩ openBracket.1 =
      some ⟨outer, done, .operand head (.array [] :: pending)⟩ := by
    simp only [Reader.step, Reader.stepOperand, Token.terminal_eq, Terminal.unary?]
    rfl
  rw [Tree.yield, run_cons_of hopen]
  exact he outer done head pending _ _ _ .array _ (by simp)

/-- Inside parentheses reading starts anew, whatever is pending outside. -/
theorem isRead_group (openParen : Token [.openParen]) {inner : Tree (.expr 0)}
    (closeParen : Token [.closeParen]) (hi : inner.IsRead) :
    (Tree.group openParen inner closeParen).IsRead := by
  intro outer done head pending _
  obtain ⟨p, e, r, hrun, hafter, hcomes⟩ := hi outer done head (.group :: pending) trivial
  refine ⟨pending, inner.read, _, ?_, .operator _, Comes.refl _ _ _⟩
  have hopen : Reader.step ⟨outer, done, .operand head pending⟩ openParen.1 =
      some ⟨outer, done, .operand head (.group :: pending)⟩ := by
    simp only [Reader.step, Reader.stepOperand, Token.terminal_eq, Terminal.unary?]
    rfl
  rw [Tree.yield, run_cons_of hopen, run_append_of hrun,
    run_cons_of (after_closeParen_group hafter (by simp) hcomes.close)]
  rfl

theorem isRead_noArgs : Tree.noArgs.IsRead := by
  intro outer done head pending frame bracket make hf l hl
  rw [Tree.yield, List.nil_append, run_cons_of (operand_bracket hf hl)]
  rfl

/-- The first part of a list is kept until its comma or its bracket arrives. -/
theorem isRead_someArgs {first : Tree (.expr 0)} {others : Tree .moreArgs} (h : first.IsRead)
    (ho : others.IsRead) : (Tree.someArgs first others).IsRead := by
  intro outer done head pending frame bracket make hf l hl
  have hawaits : Awaits 0 (frame [] :: pending) := by cases hf <;> trivial
  obtain ⟨p, e, r, hrun, hafter, hcomes⟩ := h outer done head (frame [] :: pending) hawaits
  have hclose := hcomes.close
  rw [close_collects hf] at hclose
  rw [Tree.yield, List.append_assoc, run_append_of hrun]
  exact ho outer done head pending frame bracket make hf l p e r [] _ hl hafter hclose

theorem isRead_lastArg : Tree.lastArg.IsRead := by
  intro outer done head pending frame bracket make hf l p e r before last hl hafter hclose
  rw [Tree.yield, List.nil_append, run_cons_of (after_bracket hf hafter hl hclose)]
  simp [Reader.run]

theorem isRead_nextArg (comma : Token [.comma]) {arg : Tree (.expr 0)} {others : Tree .moreArgs}
    (ha : arg.IsRead) (ho : others.IsRead) : (Tree.nextArg comma arg others).IsRead := by
  intro outer done head pending frame bracket make hf l p e r before last hl hafter hclose
  have hawaits : Awaits 0 (frame (last :: before) :: pending) := by cases hf <;> trivial
  obtain ⟨p', e', r', hrun, hafter', hcomes⟩ :=
    ha outer done head (frame (last :: before) :: pending) hawaits
  have hclose' := hcomes.close
  rw [close_collects hf] at hclose'
  rw [Tree.yield, List.cons_append, List.append_assoc,
    run_cons_of (after_comma hf hafter (by simp) hclose), run_append_of hrun,
    ho outer done head pending frame bracket make hf l p' e' r' _ _ hl hafter' hclose']
  simp

end expressions

section statements

variable {outer : List (Node × List Node)} {done : List Node} {r : Reader}

/-- The expression of a statement, from its head on. -/
theorem settled_expr (outer : List (Node × List Node)) (done : List Node) (head : Head)
    {expr : Tree (.expr 0)} (he : expr.IsRead) {statement : Node}
    (hs : head.complete? expr.read = some statement) :
    ∃ r', Reader.run ⟨outer, done, .operand head []⟩ expr.yield = some r' ∧
      Settled outer (statement :: done) r' := by
  obtain ⟨p, e, r', hrun, hafter, hcomes⟩ := he outer done head [] trivial
  exact ⟨r', hrun, .after hafter hcomes.close hs⟩

theorem isRead_letStatement (letWord : Token [.letWord]) (name : Token [.ident])
    (becomes : Token [.becomes]) {expr : Tree (.expr 0)} (he : expr.IsRead) :
    (Tree.letStatement letWord name becomes expr).IsRead := by
  intro outer done r hr
  obtain ⟨r', hrun, hsettled⟩ :=
    settled_expr outer done (.variableDeclaration name.word) he rfl
  refine ⟨r', ?_, hsettled⟩
  have hlet : r.step letWord.1 = some ⟨outer, done, .variableName⟩ := by
    rw [step_settled hr (by simp [Terminal.startsItem])]
    simp only [Reader.stepStatement, Token.terminal_eq]
  have hname : Reader.step ⟨outer, done, .variableName⟩ name.1 =
      some ⟨outer, done, .variableBecomes name.word⟩ := by
    simp only [Reader.step, Token.terminal_eq]
    rfl
  have hbecomes : Reader.step ⟨outer, done, .variableBecomes name.word⟩ becomes.1 =
      some ⟨outer, done, .operand (.variableDeclaration name.word) []⟩ := by
    simp only [Reader.step, Token.terminal_eq]
  rw [Tree.yield, run_cons_of hlet, run_cons_of hname, run_cons_of hbecomes]
  exact hrun

theorem isRead_funcStatement (funcWord : Token [.funcWord]) (name : Token [.ident])
    {params : Tree .params} (becomes : Token [.becomes]) {body : Tree (.expr 0)}
    (hp : params.IsRead) (hb : body.IsRead) :
    (Tree.funcStatement funcWord name params becomes body).IsRead := by
  intro outer done r hr
  obtain ⟨r', hrun, hsettled⟩ :=
    settled_expr outer done (.functionDeclaration name.word params.read) hb rfl
  refine ⟨r', ?_, hsettled⟩
  have hfunc : r.step funcWord.1 = some ⟨outer, done, .functionName⟩ := by
    rw [step_settled hr (by simp [Terminal.startsItem])]
    simp only [Reader.stepStatement, Token.terminal_eq]
  have hname : Reader.step ⟨outer, done, .functionName⟩ name.1 =
      some ⟨outer, done, .parameters name.word []⟩ := by
    simp only [Reader.step, Token.terminal_eq]
    rfl
  have hbecomes : Reader.step
      ⟨outer, done, .parameters name.word (List.reverse params.read ++ [])⟩ becomes.1 =
      some ⟨outer, done, .operand (.functionDeclaration name.word params.read) []⟩ := by
    simp only [Reader.step, Token.terminal_eq, List.append_nil, List.reverse_reverse]
  rw [Tree.yield, run_cons_of hfunc, run_cons_of hname,
    run_append_of (hp outer done name.word []), run_cons_of hbecomes]
  exact hrun

theorem isRead_assignStatement (name : Token [.ident]) (becomes : Token [.becomes])
    {expr : Tree (.expr 0)} (he : expr.IsRead) :
    (Tree.assignStatement name becomes expr).IsRead := by
  intro outer done r hr
  obtain ⟨r', hrun, hsettled⟩ := settled_expr outer done (.assignment name.word) he rfl
  refine ⟨r', ?_, hsettled⟩
  have hname : r.step name.1 = some ⟨outer, done, .assignmentBecomes name.word⟩ := by
    rw [step_settled hr (by simp [Terminal.startsItem])]
    simp only [Reader.stepStatement, Token.terminal_eq]
    rfl
  have hbecomes : Reader.step ⟨outer, done, .assignmentBecomes name.word⟩ becomes.1 =
      some ⟨outer, done, .operand (.assignment name.word) []⟩ := by
    simp only [Reader.step, Token.terminal_eq]
  rw [Tree.yield, run_cons_of hname, run_cons_of hbecomes]
  exact hrun

theorem isRead_printStatement (printWord : Token [.printWord]) {expr : Tree (.expr 0)}
    (he : expr.IsRead) : (Tree.printStatement printWord expr).IsRead := by
  intro outer done r hr
  obtain ⟨r', hrun, hsettled⟩ := settled_expr outer done .printStatement he rfl
  refine ⟨r', ?_, hsettled⟩
  have hprint : r.step printWord.1 = some ⟨outer, done, .operand .printStatement []⟩ := by
    rw [step_settled hr (by simp [Terminal.startsItem])]
    simp only [Reader.stepStatement, Token.terminal_eq]
  rw [Tree.yield, run_cons_of hprint]
  exact hrun

/-- The test is followed by a block, which ends the statement. -/
theorem isRead_whileStatement (whileWord : Token [.whileWord]) {test : Tree (.expr 0)}
    {body : Tree .block} (ht : test.IsRead) (hb : body.IsRead) :
    (Tree.whileStatement whileWord test body).IsRead := by
  intro outer done r hr
  obtain ⟨p, e, r', hrun, hafter, hcomes⟩ := ht outer done .whileStatement [] trivial
  refine ⟨_, ?_, .between _⟩
  have hwhile : r.step whileWord.1 = some ⟨outer, done, .operand .whileStatement []⟩ := by
    rw [step_settled hr (by simp [Terminal.startsItem])]
    simp only [Reader.stepStatement, Token.terminal_eq]
  rw [Tree.yield, run_cons_of hwhile, run_append_of hrun]
  exact hb outer done p e _ r' hafter hcomes.close

theorem isRead_noParams : Tree.noParams.IsRead := fun _ _ _ _ => rfl

theorem isRead_param (name : Token [.ident]) {params : Tree .params} (hp : params.IsRead) :
    (Tree.param name params).IsRead := by
  intro outer done callee before
  have hname : Reader.step ⟨outer, done, .parameters callee before⟩ name.1 =
      some ⟨outer, done, .parameters callee (name.word :: before)⟩ := by
    simp only [Reader.step, Token.terminal_eq]
    rfl
  rw [Tree.yield, run_cons_of hname, hp outer done callee]
  simp

/-- The statements inside are kept apart from those outside until the brace closes. -/
theorem isRead_block (openBrace : Token [.openBrace]) {items : Tree .items}
    (closeBrace : Token [.closeBrace]) (hi : items.IsRead) :
    (Tree.block openBrace items closeBrace).IsRead := by
  intro outer done pending expr test r hafter hclose
  obtain ⟨r', hrun, hsettled⟩ := hi ((test, done) :: outer) [] _ (.between [])
  have hend : r'.step closeBrace.1 =
      some ⟨outer, .whileStatement test (.block items.read) :: done, .statement⟩ := by
    rw [step_settled hsettled (by simp)]
    simp [Reader.stepStatement]
  rw [Tree.yield, run_cons_of (after_openBrace hafter (by simp) hclose), run_append_of hrun,
    run_cons_of hend]
  rfl

theorem isRead_noItems : Tree.noItems.IsRead := fun _ _ r h => ⟨r, rfl, h⟩

theorem isRead_statementItem {statement : Tree .statement} {items : Tree .items}
    (hs : statement.IsRead) (hi : items.IsRead) : (Tree.statementItem statement items).IsRead := by
  intro outer done r hr
  obtain ⟨r', hrun, hsettled⟩ := hs outer done r hr
  obtain ⟨r'', hrun', hsettled'⟩ := hi outer _ r' hsettled
  refine ⟨r'', by rw [Tree.yield, run_append_of hrun, hrun'], ?_⟩
  simpa using hsettled'

theorem isRead_semicolonItem (semicolon : Token [.semicolon]) {items : Tree .items}
    (hi : items.IsRead) : (Tree.semicolonItem semicolon items).IsRead := by
  intro outer done r hr
  obtain ⟨r', hrun, hsettled⟩ := hi outer done _ (.between done)
  have hsemicolon : r.step semicolon.1 = some ⟨outer, done, .statement⟩ := by
    rw [step_settled hr (by simp [Terminal.startsItem])]
    simp only [Reader.stepStatement, Token.terminal_eq]
  exact ⟨r', by rw [Tree.yield, run_cons_of hsemicolon, hrun], hsettled⟩

/-- Between statements the text may end. -/
theorem finish?_settled (h : Settled [] done r) :
    r.finish? = some (.program (.block done.reverse)) := by
  cases h with
  | between => rfl
  | after h hc hs =>
    cases h with
    | operator => simp [Reader.finish?, Reader.endAfter, hc, hs]
    | named => simp [Reader.finish?, Reader.endAfter, hc, hs]

theorem isRead_program {items : Tree .items} (hi : items.IsRead) :
    (Tree.program items).IsRead := by
  obtain ⟨r, hrun, hsettled⟩ := hi [] [] .start (.between [])
  refine ⟨r, hrun, ?_⟩
  rw [finish?_settled hsettled]
  simp

end statements

/-- Every tree is read, by induction on the tree with one case for each production. -/
theorem Tree.isRead {n : Nonterminal} (t : Tree n) : t.IsRead := by
  induction t with
  | program items ih => exact isRead_program ih
  | noItems => exact isRead_noItems
  | statementItem statement items ihs ihi => exact isRead_statementItem ihs ihi
  | semicolonItem semicolon items ih => exact isRead_semicolonItem semicolon ih
  | letStatement letWord name becomes expr ih => exact isRead_letStatement letWord name becomes ih
  | funcStatement funcWord name params becomes body ihp ihb =>
    exact isRead_funcStatement funcWord name becomes ihp ihb
  | assignStatement name becomes expr ih => exact isRead_assignStatement name becomes ih
  | printStatement printWord expr ih => exact isRead_printStatement printWord ih
  | whileStatement whileWord test body iht ihb => exact isRead_whileStatement whileWord iht ihb
  | noParams => exact isRead_noParams
  | param name params ih => exact isRead_param name ih
  | block openBrace items closeBrace ih => exact isRead_block openBrace closeBrace ih
  | next h expr ih => exact isRead_next h ih
  | ternary test question consequent colon alternate iht ihc iha =>
    exact isRead_ternary question colon iht ihc iha
  | binary left op right ihl ihr => exact isRead_binary op ihl ihr
  | unary op operand ih => exact isRead_unary op ih
  | subscript base openBracket index closeBracket ihb ihi =>
    exact isRead_subscript openBracket closeBracket ihb ihi
  | numeral number => exact isRead_numeral number
  | trueLiteral word => exact isRead_trueLiteral word
  | falseLiteral word => exact isRead_falseLiteral word
  | identifier name => exact isRead_identifier name
  | call callee openParen args closeParen ih => exact isRead_call callee openParen closeParen ih
  | array openBracket elements closeBracket ih => exact isRead_array openBracket closeBracket ih
  | group openParen inner closeParen ih => exact isRead_group openParen closeParen ih
  | noArgs => exact isRead_noArgs
  | someArgs first others ihf iho => exact isRead_someArgs ihf iho
  | lastArg => exact isRead_lastArg
  | nextArg comma arg others iha iho => exact isRead_nextArg comma iha iho

end BellaLang.Source
