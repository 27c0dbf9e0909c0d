-- What the reader accepts is derived. Each part of its state stands for some of
-- the lexemes read so far and derives them, step by step, so a text that is read
-- to its end is the text of a tree, and the tree is what was read.
import BellaLang.Proofs.Acceptance

namespace BellaLang.Source

/-! ## Derivations -/

/-- A nonterminal derives some lexemes, and they are read as given. -/
def Derives (n : Nonterminal) (ls : List Lexeme) (x : n.Reading) : Prop :=
  ∃ t : Tree n, t.yield = ls ∧ t.read = x

/-- A lexeme of a known terminal. -/
def Token.of {l : Lexeme} (hs : l.Spelt) {t : Terminal} (h : l.terminal = t) : Token [t] :=
  ⟨l, by simp [h], hs⟩

section derives

variable {level : Nat} {ls ls' : List Lexeme} {e e' : Node}

theorem Derives.next (h : level < 9) (he : Derives (.expr (level + 1)) ls e) :
    Derives (.expr level) ls e := by
  obtain ⟨t, rfl, rfl⟩ := he
  exact ⟨.next h t, rfl, rfl⟩

/-- An expression of a level is one of every looser level. -/
theorem Derives.lower {k : Nat} (he : Derives (.expr level) ls e) (hk : k ≤ level)
    (h9 : level ≤ 9) : Derives (.expr k) ls e := by
  induction level with
  | zero => rwa [Nat.le_zero.1 hk]
  | succ level ih =>
    rcases Nat.lt_or_ge level k with hlt | hge
    · rwa [show k = level + 1 by omega]
    · exact ih (he.next (by omega)) hge (by omega)

theorem derives_name (name : Token [.ident]) :
    Derives (.expr 8) [name.1] (.identifier (.str name.word)) :=
  ⟨.next (by omega) (.identifier name), rfl, rfl⟩

theorem derives_unary {l : Lexeme} {op : UnaryOp} (hs : l.Spelt) (h : l.terminal.unary? = some op)
    (he : Derives (.expr 7) ls e) : Derives (.expr 7) (l :: ls) (.unary op.toJson e) := by
  obtain ⟨t, rfl, rfl⟩ := he
  have hmem : l.terminal ∈ [Terminal.minus, .plus, .bang] := by
    cases ht : l.terminal <;> rw [ht] at h <;> simp [Terminal.unary?] at h ⊢
  exact ⟨.unary ⟨l, hmem, hs⟩ t, rfl, by rw [toJson_unary hs h]; rfl⟩

theorem mem_operators {t : Terminal} {op : BinaryOp} (h : t.binary? = some op) :
    t ∈ operators op.level := by
  cases t <;> simp [Terminal.binary?] at h <;> subst h <;> simp [operators, BinaryOp.level]

theorem derives_binary {l : Lexeme} {op : BinaryOp} (hs : l.Spelt)
    (h : l.terminal.binary? = some op) (hl : Derives (.expr op.level) ls e)
    (hr : Derives (.expr (op.level + 1)) ls' e') :
    Derives (.expr op.level) (ls ++ l :: ls') (.binary op.toJson e e') := by
  obtain ⟨t, rfl, rfl⟩ := hl
  obtain ⟨t', rfl, rfl⟩ := hr
  exact ⟨.binary t ⟨l, mem_operators h, hs⟩ t', rfl, by rw [toJson_binary hs h]; rfl⟩

end derives

/-! ## Lists that grow at their end -/

namespace Tree

def append : Tree .items → Tree .items → Tree .items
  | noItems, others => others
  | statementItem statement items, others => statementItem statement (items.append others)
  | semicolonItem semicolon items, others => semicolonItem semicolon (items.append others)

theorem yield_append : (items others : Tree .items) →
    (items.append others).yield = items.yield ++ others.yield
  | noItems, others => by simp [append, yield]
  | statementItem statement items, others => by
    rw [append, yield, yield, yield_append items others, List.append_assoc]
  | semicolonItem semicolon items, others => by
    rw [append, yield, yield, yield_append items others, List.cons_append]

theorem read_append : (items others : Tree .items) →
    (items.append others).read = items.read ++ others.read
  | noItems, others => by simp [append, read]
  | statementItem statement items, others => by
    rw [append, read, read, read_append items others, List.cons_append]
  | semicolonItem semicolon items, others => by
    rw [append, read, read, read_append items others]

def addParam : Tree .params → Token [.ident] → Tree .params
  | noParams, name => param name noParams
  | param first params, name => param first (params.addParam name)

theorem yield_addParam : (params : Tree .params) → (name : Token [.ident]) →
    (params.addParam name).yield = params.yield ++ [name.1]
  | noParams, name => by simp [addParam, yield]
  | param first params, name => by
    rw [addParam, yield, yield, yield_addParam params name, List.cons_append]

theorem read_addParam : (params : Tree .params) → (name : Token [.ident]) →
    (params.addParam name).read = params.read ++ [name.word]
  | noParams, name => by simp [addParam, read]
  | param first params, name => by
    rw [addParam, read, read, read_addParam params name, List.cons_append]

def addArg : Tree .moreArgs → Token [.comma] → Tree (.expr 0) → Tree .moreArgs
  | lastArg, comma, arg => nextArg comma arg lastArg
  | nextArg comma' arg' others, comma, arg => nextArg comma' arg' (others.addArg comma arg)

theorem yield_addArg : (others : Tree .moreArgs) → (comma : Token [.comma]) →
    (arg : Tree (.expr 0)) →
    (others.addArg comma arg).yield = others.yield ++ comma.1 :: arg.yield
  | lastArg, comma, arg => by simp [addArg, yield]
  | nextArg comma' arg' others, comma, arg => by
    rw [addArg, yield, yield, yield_addArg others comma arg, List.cons_append, List.append_assoc]

theorem read_addArg : (others : Tree .moreArgs) → (comma : Token [.comma]) →
    (arg : Tree (.expr 0)) → (others.addArg comma arg).read = others.read ++ [arg.read]
  | lastArg, comma, arg => by simp [addArg, read]
  | nextArg comma' arg' others, comma, arg => by
    rw [addArg, read, read, read_addArg others comma arg, List.cons_append]

end Tree

section lists

variable {ls ls' : List Lexeme} {before : List Node}

theorem derives_statement {statement : Node} (h : Derives .items ls before.reverse)
    (hs : Derives .statement ls' statement) :
    Derives .items (ls ++ ls') (statement :: before).reverse := by
  obtain ⟨t, rfl, ht⟩ := h
  obtain ⟨s, rfl, rfl⟩ := hs
  refine ⟨t.append (.statementItem s .noItems), ?_, ?_⟩
  · rw [Tree.yield_append, Tree.yield, Tree.yield, List.append_nil]
  · rw [Tree.read_append, ht, List.reverse_cons]
    rfl

theorem derives_semicolon {l : Lexeme} (hs : l.Spelt) (hl : l.terminal = .semicolon)
    (h : Derives .items ls before.reverse) : Derives .items (ls ++ [l]) before.reverse := by
  obtain ⟨t, rfl, ht⟩ := h
  refine ⟨t.append (.semicolonItem (.of hs hl) .noItems), ?_, ?_⟩
  · rw [Tree.yield_append, Tree.yield, Tree.yield]
    rfl
  · rw [Tree.read_append, ht, Tree.read, Tree.read, List.append_nil]

theorem derives_param {l : Lexeme} (hs : l.Spelt) (hl : l.terminal = .ident) {params : List Text}
    (h : Derives .params ls params.reverse) :
    Derives .params (ls ++ [l]) (Reader.wordOf l :: params).reverse := by
  obtain ⟨t, rfl, ht⟩ := h
  refine ⟨t.addParam (.of hs hl), t.yield_addParam _, ?_⟩
  rw [Tree.read_addParam, ht, List.reverse_cons]
  rfl

/-- The parts of a list that were read so far, each with the comma after it. -/
inductive Collected : List Node → List Lexeme → Prop
  | none : Collected [] []
  | some (first : Tree (.expr 0)) (others : Tree .moreArgs) (comma : Token [.comma])
      {before : List Node} (h : before.reverse = first.read :: others.read) :
      Collected before (first.yield ++ (others.yield ++ [comma.1]))

/-- One more part. -/
theorem collected_comma {e : Node} {l : Lexeme} (hs : l.Spelt) (hl : l.terminal = .comma)
    (h : Collected before ls) (he : Derives (.expr 0) ls' e) :
    Collected (e :: before) (ls ++ (ls' ++ [l])) := by
  obtain ⟨t, rfl, rfl⟩ := he
  cases h with
  | none => exact .some t .lastArg (.of hs hl) rfl
  | some first others comma h =>
    have hread : (t.read :: before).reverse = first.read :: (others.addArg comma t).read := by
      rw [Tree.read_addArg, List.reverse_cons, h, List.cons_append]
    have hcollected := Collected.some first (others.addArg comma t) (.of hs hl) hread
    rw [Tree.yield_addArg] at hcollected
    simpa [Token.of] using hcollected

/-- The last part. -/
theorem derives_args {e : Node} (h : Collected before ls) (he : Derives (.expr 0) ls' e) :
    Derives .args (ls ++ ls') (e :: before).reverse := by
  obtain ⟨t, rfl, rfl⟩ := he
  cases h with
  | none => exact ⟨.someArgs t .lastArg, by simp, by simp⟩
  | some first others comma h =>
    refine ⟨.someArgs first (others.addArg comma t), ?_, ?_⟩
    · rw [Tree.yield, Tree.yield_addArg]
      simp
    · rw [Tree.read, Tree.read_addArg, List.reverse_cons, h, List.cons_append]

end lists

/-! ## What is pending -/

/-- What is pending stands for some lexemes, and an expression of a level, or of a tighter one,
may follow them. -/
inductive Stacked : Nat → List Pending → List Lexeme → Prop
  | nil : Stacked 0 [] []
  | unary {n : Nat} {pending : List Pending} {ls : List Lexeme} {l : Lexeme} {op : UnaryOp}
      (h : Stacked n pending ls) (hs : l.Spelt) (hl : l.terminal.unary? = some op) :
      Stacked 7 (.unary op :: pending) (ls ++ [l])
  | binary {n : Nat} {pending : List Pending} {ls ls' : List Lexeme} {l : Lexeme} {op : BinaryOp}
      {left : Node} (h : Stacked n pending ls) (hn : n ≤ op.level)
      (he : Derives (.expr op.level) ls' left) (hs : l.Spelt)
      (hl : l.terminal.binary? = some op) :
      Stacked (op.level + 1) (.binary left op :: pending) (ls ++ (ls' ++ [l]))
  | group {n : Nat} {pending : List Pending} {ls : List Lexeme} (h : Stacked n pending ls)
      (openParen : Token [.openParen]) : Stacked 0 (.group :: pending) (ls ++ [openParen.1])
  | call {n : Nat} {pending : List Pending} {ls ls' : List Lexeme} {before : List Node}
      (h : Stacked n pending ls) (callee : Token [.ident]) (openParen : Token [.openParen])
      (hb : Collected before ls') :
      Stacked 0 (.call callee.word before :: pending) (ls ++ callee.1 :: openParen.1 :: ls')
  | array {n : Nat} {pending : List Pending} {ls ls' : List Lexeme} {before : List Node}
      (h : Stacked n pending ls) (openBracket : Token [.openBracket]) (hb : Collected before ls') :
      Stacked 0 (.array before :: pending) (ls ++ openBracket.1 :: ls')
  | subscript {n : Nat} {pending : List Pending} {ls ls' : List Lexeme} {base : Node}
      (h : Stacked n pending ls) (hb : Derives (.expr 8) ls' base)
      (openBracket : Token [.openBracket]) :
      Stacked 0 (.subscript base :: pending) (ls ++ (ls' ++ [openBracket.1]))
  | consequent {pending : List Pending} {ls ls' : List Lexeme} {test : Node}
      (h : Stacked 0 pending ls) (ht : Derives (.expr 1) ls' test) (question : Token [.question]) :
      Stacked 0 (.consequent test :: pending) (ls ++ (ls' ++ [question.1]))
  | alternate {pending : List Pending} {ls ls' ls'' : List Lexeme} {test first : Node}
      (h : Stacked 0 pending ls) (ht : Derives (.expr 1) ls' test) (question : Token [.question])
      (hc : Derives (.expr 0) ls'' first) (colon : Token [.colon]) :
      Stacked 0 (.alternate test first :: pending)
        (ls ++ (ls' ++ question.1 :: (ls'' ++ [colon.1])))

section stacked

variable {n k level : Nat} {pending : List Pending} {ls ls' : List Lexeme} {expr : Node}

theorem level_bounds (op : BinaryOp) : 1 ≤ op.level ∧ op.level ≤ 6 := by
  cases op <;> decide

theorem Stacked.le_seven (h : Stacked n pending ls) : n ≤ 7 := by
  cases h with
  | @binary _ _ _ _ _ op _ _ _ _ _ _ =>
    have hbounds := level_bounds op
    omega
  | _ => omega

/-- Reducing to a level leaves an expression of that level, and nothing pending that binds as
tightly. -/
theorem reduce_derives (h : Stacked n pending ls) (he : Derives (.expr level) ls' expr)
    (hn : n ≤ level) (hk : k ≤ level) (h1 : 1 ≤ level) (h9 : level ≤ 9) (hk7 : k ≤ 7) :
    ∃ n' ls₁ ls₂, ls₁ ++ ls₂ = ls ++ ls' ∧ n' ≤ k ∧ Stacked n' (reduce k pending expr).1 ls₁ ∧
      Derives (.expr (max k 1)) ls₂ (reduce k pending expr).2 := by
  induction h generalizing level ls' expr with
  | unary h hs hl ih =>
    obtain ⟨n', ls₁, ls₂, heq, hn', hstacked, hderives⟩ :=
      ih (derives_unary hs hl (he.lower hn h9)) h.le_seven (by omega) (by omega) (by omega)
    exact ⟨n', ls₁, ls₂, by rw [heq, List.append_assoc]; rfl, hn', hstacked, hderives⟩
  | @binary n pending ls ls'' l op left h hn' he' hs hl ih =>
    have hbounds := level_bounds op
    rw [reduce]
    split
    · rename_i hle
      obtain ⟨n', ls₁, ls₂, heq, hn', hstacked, hderives⟩ :=
        ih (derives_binary hs hl he' (he.lower hn h9)) hn' hle hbounds.1 (by omega)
      refine ⟨n', ls₁, ls₂, ?_, hn', hstacked, hderives⟩
      rw [heq]
      simp
    · exact ⟨_, _, _, rfl, by omega, .binary h hn' he' hs hl, he.lower (by omega) h9⟩
  | nil => exact ⟨0, _, _, rfl, by omega, .nil, he.lower (by omega) h9⟩
  | group h openParen => exact ⟨0, _, _, rfl, by omega, .group h openParen, he.lower (by omega) h9⟩
  | call h callee openParen hb =>
    exact ⟨0, _, _, rfl, by omega, .call h callee openParen hb, he.lower (by omega) h9⟩
  | array h openBracket hb =>
    exact ⟨0, _, _, rfl, by omega, .array h openBracket hb, he.lower (by omega) h9⟩
  | subscript h hb openBracket =>
    exact ⟨0, _, _, rfl, by omega, .subscript h hb openBracket, he.lower (by omega) h9⟩
  | consequent h ht question =>
    exact ⟨0, _, _, rfl, by omega, .consequent h ht question, he.lower (by omega) h9⟩
  | alternate h ht question hc colon =>
    exact ⟨0, _, _, rfl, by omega, .alternate h ht question hc colon, he.lower (by omega) h9⟩

/-- Closing leaves an expression of the loosest level, and what it is a part of. -/
theorem close_derives (h : Stacked n pending ls) (he : Derives (.expr level) ls' expr)
    (hn : n ≤ level) (h9 : level ≤ 9) :
    ∃ ls₁ ls₂, ls₁ ++ ls₂ = ls ++ ls' ∧ Stacked 0 (close pending expr).1 ls₁ ∧
      Derives (.expr 0) ls₂ (close pending expr).2 := by
  induction h generalizing level ls' expr with
  | unary h hs hl ih =>
    obtain ⟨ls₁, ls₂, heq, hstacked, hderives⟩ :=
      ih (derives_unary hs hl (he.lower hn h9)) h.le_seven (by omega)
    exact ⟨ls₁, ls₂, by rw [heq, List.append_assoc]; rfl, hstacked, hderives⟩
  | @binary n pending ls ls'' l op left h hn' he' hs hl ih =>
    have hbounds := level_bounds op
    obtain ⟨ls₁, ls₂, heq, hstacked, hderives⟩ :=
      ih (derives_binary hs hl he' (he.lower hn h9)) hn' (by omega)
    refine ⟨ls₁, ls₂, ?_, hstacked, hderives⟩
    rw [heq]
    simp
  | @alternate pending ls ls₁ ls₂ test first h ht question hc colon ih =>
    obtain ⟨t, rfl, rfl⟩ := ht
    obtain ⟨c, rfl, rfl⟩ := hc
    obtain ⟨a, rfl, rfl⟩ := he.lower hn h9
    obtain ⟨ls₁, ls₂, heq, hstacked, hderives⟩ :=
      ih ⟨.ternary t question c colon a, rfl, rfl⟩ (Nat.le_refl 0) (by omega)
    refine ⟨ls₁, ls₂, ?_, hstacked, hderives⟩
    rw [heq, Tree.yield]
    simp
  | nil => exact ⟨_, _, rfl, .nil, he.lower hn h9⟩
  | group h openParen => exact ⟨_, _, rfl, .group h openParen, he.lower hn h9⟩
  | call h callee openParen hb => exact ⟨_, _, rfl, .call h callee openParen hb, he.lower hn h9⟩
  | array h openBracket hb => exact ⟨_, _, rfl, .array h openBracket hb, he.lower hn h9⟩
  | subscript h hb openBracket => exact ⟨_, _, rfl, .subscript h hb openBracket, he.lower hn h9⟩
  | consequent h ht question => exact ⟨_, _, rfl, .consequent h ht question, he.lower hn h9⟩

end stacked

/-! ## The state of the reader -/

/-- A head stands for the lexemes of a statement before its expression. -/
inductive Headed : Head → List Lexeme → Prop
  | variableDeclaration (letWord : Token [.letWord]) (name : Token [.ident])
      (becomes : Token [.becomes]) :
      Headed (.variableDeclaration name.word) [letWord.1, name.1, becomes.1]
  | functionDeclaration (funcWord : Token [.funcWord]) (name : Token [.ident])
      {ls : List Lexeme} {params : List Text} (hp : Derives .params ls params)
      (becomes : Token [.becomes]) :
      Headed (.functionDeclaration name.word params) (funcWord.1 :: name.1 :: (ls ++ [becomes.1]))
  | assignment (name : Token [.ident]) (becomes : Token [.becomes]) :
      Headed (.assignment name.word) [name.1, becomes.1]
  | printStatement (printWord : Token [.printWord]) : Headed .printStatement [printWord.1]
  | whileStatement (whileWord : Token [.whileWord]) : Headed .whileStatement [whileWord.1]

theorem derives_complete {head : Head} {ls ls' : List Lexeme} {expr statement : Node}
    (hh : Headed head ls) (he : Derives (.expr 0) ls' expr)
    (h : head.complete? expr = some statement) : Derives .statement (ls ++ ls') statement := by
  obtain ⟨t, rfl, rfl⟩ := he
  cases hh with
  | variableDeclaration letWord name becomes =>
    cases h
    exact ⟨.letStatement letWord name becomes t, rfl, rfl⟩
  | functionDeclaration funcWord name hp becomes =>
    cases h
    obtain ⟨p, rfl, rfl⟩ := hp
    exact ⟨.funcStatement funcWord name p becomes t, by simp, rfl⟩
  | assignment name becomes =>
    cases h
    exact ⟨.assignStatement name becomes t, rfl, rfl⟩
  | printStatement printWord =>
    cases h
    exact ⟨.printStatement printWord t, rfl, rfl⟩
  | whileStatement whileWord => cases h

/-- A mode stands for the lexemes since the last statement. -/
inductive Moded : Mode → List Lexeme → Prop
  | statement : Moded .statement []
  | variableName (letWord : Token [.letWord]) : Moded .variableName [letWord.1]
  | variableBecomes (letWord : Token [.letWord]) (name : Token [.ident]) :
      Moded (.variableBecomes name.word) [letWord.1, name.1]
  | functionName (funcWord : Token [.funcWord]) : Moded .functionName [funcWord.1]
  | parameters (funcWord : Token [.funcWord]) (name : Token [.ident]) {ls : List Lexeme}
      {params : List Text} (hp : Derives .params ls params.reverse) :
      Moded (.parameters name.word params) (funcWord.1 :: name.1 :: ls)
  | assignmentBecomes (name : Token [.ident]) : Moded (.assignmentBecomes name.word) [name.1]
  | operand {head : Head} {n : Nat} {pending : List Pending} {ls ls' : List Lexeme}
      (hh : Headed head ls) (hp : Stacked n pending ls') :
      Moded (.operand head pending) (ls ++ ls')
  | named {head : Head} {n : Nat} {pending : List Pending} {ls ls' : List Lexeme}
      (hh : Headed head ls) (hp : Stacked n pending ls') (name : Token [.ident]) :
      Moded (.named head pending name.word) (ls ++ (ls' ++ [name.1]))
  | operator {head : Head} {n : Nat} {pending : List Pending} {ls ls' ls'' : List Lexeme}
      {expr : Node} (hh : Headed head ls) (hp : Stacked n pending ls')
      (he : Derives (.expr 8) ls'' expr) :
      Moded (.operator head pending expr) (ls ++ (ls' ++ ls''))

/-- The open blocks stand for the lexemes before the innermost one. -/
inductive Opened : List (Node × List Node) → List Lexeme → Prop
  | nil : Opened [] []
  | cons {outer : List (Node × List Node)} {test : Node} {before : List Node}
      {ls ls' ls'' : List Lexeme} (h : Opened outer ls) (hb : Derives .items ls' before.reverse)
      (whileWord : Token [.whileWord]) (ht : Derives (.expr 0) ls'' test)
      (openBrace : Token [.openBrace]) :
      Opened ((test, before) :: outer) (ls ++ (ls' ++ whileWord.1 :: (ls'' ++ [openBrace.1])))

/-- The statements done stand for the lexemes before the one under way. -/
def Done (outer : List (Node × List Node)) (done : List Node) (ls : List Lexeme) : Prop :=
  ∃ ls₁ ls₂, ls = ls₁ ++ ls₂ ∧ Opened outer ls₁ ∧ Derives .items ls₂ done.reverse

/-- The state stands for all lexemes read so far. -/
def Reader.Stands (r : Reader) (ls : List Lexeme) : Prop :=
  ∃ ls₁ ls₂, ls = ls₁ ++ ls₂ ∧ Done r.outer r.done ls₁ ∧ Moded r.mode ls₂

section steps

variable {outer : List (Node × List Node)} {done : List Node} {head : Head}
  {pending rest : List Pending} {expr last : Node} {ls ls₁ ls₂ ls₃ : List Lexeme} {l : Lexeme}
  {n : Nat} {r r' : Reader}

theorem done_statement {statement : Node} (hd : Done outer done ls₁)
    (hs : Derives .statement ls₂ statement) : Done outer (statement :: done) (ls₁ ++ ls₂) := by
  obtain ⟨us, vs, rfl, ho, hi⟩ := hd
  exact ⟨us, vs ++ ls₂, by rw [List.append_assoc], ho, derives_statement hi hs⟩

/-- A lexeme between statements. -/
theorem stands_stepStatement (hd : Done outer done ls) (hs : l.Spelt)
    (h : Reader.stepStatement ⟨outer, done, .statement⟩ l = some r') : r'.Stands (ls ++ [l]) := by
  unfold Reader.stepStatement at h
  split at h
  · rename_i ht
    cases h
    obtain ⟨us, vs, rfl, ho, hi⟩ := hd
    exact ⟨_, [], (List.append_nil _).symm,
      ⟨us, vs ++ [l], by rw [List.append_assoc], ho, derives_semicolon hs ht hi⟩, .statement⟩
  · rename_i ht
    cases h
    exact ⟨ls, [l], rfl, hd, .variableName (.of hs ht)⟩
  · rename_i ht
    cases h
    exact ⟨ls, [l], rfl, hd, .functionName (.of hs ht)⟩
  · rename_i ht
    cases h
    exact ⟨ls, [l], rfl, hd, .operand (.printStatement (.of hs ht)) .nil⟩
  · rename_i ht
    cases h
    exact ⟨ls, [l], rfl, hd, .operand (.whileStatement (.of hs ht)) .nil⟩
  · rename_i ht
    cases h
    exact ⟨ls, [l], rfl, hd, .assignmentBecomes (.of hs ht)⟩
  · rename_i ht
    simp only at h
    split at h
    · cases h
    · rename_i test before outer'
      cases h
      obtain ⟨us, vs, rfl, ho, items, rfl, hread⟩ := hd
      cases ho with
      | cons h hb whileWord htest openBrace =>
        obtain ⟨t, rfl, rfl⟩ := htest
        have hloop : Derives .statement
            (whileWord.1 :: (t.yield ++ openBrace.1 :: (items.yield ++ [l])))
            (.whileStatement t.read (.block done.reverse)) :=
          ⟨.whileStatement whileWord t (.block openBrace items (.of hs ht)), rfl, by
            rw [← hread]; rfl⟩
        have hdone := done_statement ⟨_, _, rfl, h, hb⟩ hloop
        exact ⟨_, [], by simp, hdone, .statement⟩
  · cases h

/-- A lexeme where an operand is due. -/
theorem moded_stepOperand (hh : Headed head ls₁) (hp : Stacked n pending ls₂) (hs : l.Spelt)
    {mode : Mode} (h : Reader.stepOperand head pending l = some mode) :
    Moded mode (ls₁ ++ (ls₂ ++ [l])) := by
  unfold Reader.stepOperand at h
  split at h
  · rename_i op hop
    cases h
    exact .operand hh (.unary hp hs hop)
  · split at h
    · rename_i ht
      cases h
      exact .named hh hp (.of hs ht)
    · rename_i ht
      cases h
      refine .operator hh hp (Derives.next (by omega) ⟨.numeral (.of hs ht), rfl, ?_⟩)
      rw [number_eq hs ht]
      rfl
    · rename_i ht
      cases h
      exact .operator hh hp (Derives.next (by omega) ⟨.trueLiteral (.of hs ht), rfl, rfl⟩)
    · rename_i ht
      cases h
      exact .operator hh hp (Derives.next (by omega) ⟨.falseLiteral (.of hs ht), rfl, rfl⟩)
    · rename_i ht
      cases h
      exact .operand hh (.group hp (.of hs ht))
    · rename_i ht
      cases h
      exact .operand hh (.array hp (.of hs ht) .none)
    · rename_i ht
      cases h
      cases hp with
      | call h callee openParen hb =>
        cases hb with
        | none =>
          have hcall : Derives (.expr 9) [callee.1, openParen.1, l] (.call (.str callee.word) []) :=
            ⟨.call callee openParen .noArgs (.of hs ht), rfl, rfl⟩
          simpa using Moded.operator hh h (hcall.next (by omega))
        | some first others comma hread => simp at hread
    · rename_i ht
      cases h
      cases hp with
      | array h openBracket hb =>
        cases hb with
        | none =>
          have harray : Derives (.expr 9) [openBracket.1, l] (.arrayLiteral []) :=
            ⟨.array openBracket .noArgs (.of hs ht), rfl, rfl⟩
          simpa using Moded.operator hh h (harray.next (by omega))
        | some first others comma hread => simp at hread
    · cases h

/-- The lexemes read so far, where the reader stands after an expression of a level. -/
inductive ReadTo (outer : List (Node × List Node)) (done : List Node) (head : Head) (n level : Nat)
    (pending : List Pending) (expr : Node) : List Lexeme → Prop
  | parts {ls ls₁ ls₂ ls₃ : List Lexeme} (hd : Done outer done ls) (hh : Headed head ls₁)
      (hp : Stacked n pending ls₂) (he : Derives (.expr level) ls₃ expr) :
      ReadTo outer done head n level pending expr (ls ++ (ls₁ ++ (ls₂ ++ ls₃)))

theorem ReadTo.close (h : ReadTo outer done head n 8 pending expr ls)
    (hc : close pending expr = (rest, last)) : ReadTo outer done head 0 0 rest last ls := by
  obtain ⟨hd, hh, hp, he⟩ := h
  have hseven := hp.le_seven
  obtain ⟨us, vs, heq, hstacked, hderives⟩ := close_derives hp he (by omega) (by omega)
  rw [hc] at hstacked hderives
  rw [← heq]
  exact .parts hd hh hstacked hderives

theorem ReadTo.reduce {k : Nat} (hk : k ≤ 6) (h : ReadTo outer done head n 8 pending expr ls)
    (hr : reduce k pending expr = (rest, last)) :
    ∃ n' ≤ k, ReadTo outer done head n' (max k 1) rest last ls := by
  obtain ⟨hd, hh, hp, he⟩ := h
  have hseven := hp.le_seven
  obtain ⟨n', us, vs, heq, hle, hstacked, hderives⟩ :=
    reduce_derives hp he (by omega) (show k ≤ 8 by omega) (by omega) (by omega) (by omega)
  rw [hr] at hstacked hderives
  rw [← heq]
  exact ⟨n', hle, .parts hd hh hstacked hderives⟩

/-- What is read so far ends a statement. -/
theorem ReadTo.complete {statement : Node} (h : ReadTo outer done head 0 0 [] expr ls)
    (hc : head.complete? expr = some statement) : Done outer (statement :: done) ls := by
  obtain ⟨hd, hh, hp, he⟩ := h
  cases hp
  exact done_statement hd (derives_complete hh he hc)

theorem stands_binary {op : BinaryOp} (hs : l.Spelt) (hl : l.terminal.binary? = some op)
    (h : ReadTo outer done head n op.level pending expr ls) (hn : n ≤ op.level) :
    Reader.Stands ⟨outer, done, .operand head (.binary expr op :: pending)⟩ (ls ++ [l]) := by
  obtain ⟨hd, hh, hp, he⟩ := h
  exact ⟨_, _, by simp, hd, .operand hh (.binary hp hn he hs hl)⟩

theorem stands_openBracket (hs : l.Spelt) (hl : l.terminal = .openBracket)
    (h : ReadTo outer done head n 8 pending expr ls) :
    Reader.Stands ⟨outer, done, .operand head (.subscript expr :: pending)⟩ (ls ++ [l]) := by
  obtain ⟨hd, hh, hp, he⟩ := h
  exact ⟨_, _, by simp [Token.of], hd, .operand hh (.subscript hp he (.of hs hl))⟩

theorem stands_question (hs : l.Spelt) (hl : l.terminal = .question)
    (h : ReadTo outer done head 0 1 pending expr ls) :
    Reader.Stands ⟨outer, done, .operand head (.consequent expr :: pending)⟩ (ls ++ [l]) := by
  obtain ⟨hd, hh, hp, he⟩ := h
  exact ⟨_, _, by simp [Token.of], hd, .operand hh (.consequent hp he (.of hs hl))⟩

theorem stands_colon {test : Node} (hs : l.Spelt) (hl : l.terminal = .colon)
    (h : ReadTo outer done head 0 0 (.consequent test :: pending) expr ls) :
    Reader.Stands ⟨outer, done, .operand head (.alternate test expr :: pending)⟩ (ls ++ [l]) := by
  obtain ⟨hd, hh, hp, he⟩ := h
  cases hp with
  | consequent hp ht question =>
    exact ⟨_, _, by simp [Token.of], hd, .operand hh (.alternate hp ht question he (.of hs hl))⟩

theorem stands_group (hs : l.Spelt) (hl : l.terminal = .closeParen)
    (h : ReadTo outer done head 0 0 (.group :: pending) expr ls) :
    Reader.Stands ⟨outer, done, .operator head pending expr⟩ (ls ++ [l]) := by
  obtain ⟨hd, hh, hp, t, rfl, rfl⟩ := h
  cases hp with
  | group hp openParen =>
    have hgroup : Derives (.expr 9) (openParen.1 :: (t.yield ++ [l])) t.read :=
      ⟨.group openParen t (.of hs hl), rfl, rfl⟩
    exact ⟨_, _, by simp, hd, .operator hh hp (hgroup.next (by omega))⟩

theorem stands_subscript {base : Node} (hs : l.Spelt) (hl : l.terminal = .closeBracket)
    (h : ReadTo outer done head 0 0 (.subscript base :: pending) expr ls) :
    Reader.Stands ⟨outer, done, .operator head pending (.subscript base expr)⟩ (ls ++ [l]) := by
  obtain ⟨hd, hh, hp, t, rfl, rfl⟩ := h
  cases hp with
  | subscript hp hb openBracket =>
    obtain ⟨b, rfl, rfl⟩ := hb
    have hsubscript : Derives (.expr 8) (b.yield ++ openBracket.1 :: (t.yield ++ [l]))
        (.subscript b.read t.read) :=
      ⟨.subscript b openBracket t (.of hs hl), rfl, rfl⟩
    exact ⟨_, _, by simp, hd, .operator hh hp hsubscript⟩

section collecting

variable {frame : List Node → Pending} {bracket : Terminal} {make : List Node → Node}
  {before : List Node}

/-- The lexemes of a list of parts start with what opens it. -/
theorem stacked_collects (hf : Collects frame bracket make)
    (hp : Stacked 0 (frame before :: pending) ls) :
    ∃ n us vs ws, ls = us ++ (vs ++ ws) ∧ Stacked n pending us ∧ Collected before ws ∧
      (∀ before' ws', Collected before' ws' →
        Stacked 0 (frame before' :: pending) (us ++ (vs ++ ws'))) ∧
      ∀ ws' xs, Derives .args ws' xs → ∀ l : Lexeme, l.Spelt → l.terminal = bracket →
        Derives (.expr 9) (vs ++ (ws' ++ [l])) (make xs) := by
  cases hf with
  | call name =>
    cases hp with
    | call hp callee openParen hb =>
      refine ⟨_, _, [callee.1, openParen.1], _, rfl, hp, hb, ?_, ?_⟩
      · exact fun _ _ hb => .call hp callee openParen hb
      · rintro _ _ ⟨t, rfl, rfl⟩ l hs hl
        exact ⟨.call callee openParen t (.of hs hl), rfl, rfl⟩
  | array =>
    cases hp with
    | array hp openBracket hb =>
      refine ⟨_, _, [openBracket.1], _, rfl, hp, hb, ?_, ?_⟩
      · exact fun _ _ hb => .array hp openBracket hb
      · rintro _ _ ⟨t, rfl, rfl⟩ l hs hl
        exact ⟨.array openBracket t (.of hs hl), rfl, rfl⟩

theorem stands_comma (hf : Collects frame bracket make) (hs : l.Spelt) (hl : l.terminal = .comma)
    (h : ReadTo outer done head 0 0 (frame before :: pending) expr ls) :
    Reader.Stands ⟨outer, done, .operand head (frame (expr :: before) :: pending)⟩
      (ls ++ [l]) := by
  obtain ⟨hd, hh, hp, he⟩ := h
  obtain ⟨n, us, vs, ws, rfl, _, hb, hstack, _⟩ := stacked_collects hf hp
  exact ⟨_, _, by simp, hd, .operand hh (hstack _ _ (collected_comma hs hl hb he))⟩

theorem stands_bracket (hf : Collects frame bracket make) (hs : l.Spelt) (hl : l.terminal = bracket)
    (h : ReadTo outer done head 0 0 (frame before :: pending) expr ls) :
    Reader.Stands ⟨outer, done, .operator head pending (make (expr :: before).reverse)⟩
      (ls ++ [l]) := by
  obtain ⟨hd, hh, hp, he⟩ := h
  obtain ⟨n, us, vs, ws, rfl, hp, hb, _, hmake⟩ := stacked_collects hf hp
  have hlist := hmake _ _ (derives_args hb he) l hs hl
  exact ⟨_, _, by simp, hd, .operator hh hp (hlist.next (by omega))⟩

end collecting

theorem stands_openBrace (hs : l.Spelt) (hl : l.terminal = .openBrace)
    (h : ReadTo outer done .whileStatement 0 0 [] expr ls) :
    Reader.Stands ⟨(expr, done) :: outer, [], .statement⟩ (ls ++ [l]) := by
  obtain ⟨hd, hh, hp, he⟩ := h
  cases hp
  obtain ⟨us, vs, rfl, ho, hi⟩ := hd
  cases hh with
  | whileStatement whileWord =>
    have hopened := Opened.cons ho hi whileWord he (.of hs hl)
    exact ⟨_, [], by simp [Token.of],
      ⟨_, [], (List.append_nil _).symm, hopened, .noItems, rfl, rfl⟩, .statement⟩

/-- A lexeme after an operand. -/
theorem stands_stepOperator (h : ReadTo outer done head n 8 pending expr ls) (hs : l.Spelt)
    (hstep : Reader.stepOperator ⟨outer, done, .statement⟩ head pending expr l = some r') :
    r'.Stands (ls ++ [l]) := by
  unfold Reader.stepOperator at hstep
  split at hstep
  · rename_i op hop
    have hbounds := level_bounds op
    obtain ⟨n', hn', hread⟩ := h.reduce hbounds.2 rfl
    rw [Nat.max_eq_left hbounds.1] at hread
    cases hstep
    exact stands_binary hs hop hread hn'
  · split at hstep
    · rename_i hl
      cases hstep
      exact stands_openBracket hs hl h
    · rename_i hl
      obtain ⟨n', hn', hread⟩ := h.reduce (Nat.zero_le 6) rfl
      rw [Nat.le_zero.1 hn'] at hread
      cases hstep
      exact stands_question hs hl hread
    · rename_i hl
      split at hstep
      · rename_i hclose
        cases hstep
        exact stands_colon hs hl (h.close hclose)
      · cases hstep
    · rename_i hl
      split at hstep
      · rename_i hclose
        cases hstep
        exact stands_comma (.call _) hs hl (h.close hclose)
      · rename_i hclose
        cases hstep
        exact stands_comma .array hs hl (h.close hclose)
      · cases hstep
    · rename_i hl
      split at hstep
      · rename_i hclose
        cases hstep
        exact stands_group hs hl (h.close hclose)
      · rename_i hclose
        cases hstep
        exact stands_bracket (.call _) hs hl (h.close hclose)
      · cases hstep
    · rename_i hl
      split at hstep
      · rename_i hclose
        cases hstep
        exact stands_bracket .array hs hl (h.close hclose)
      · rename_i hclose
        cases hstep
        exact stands_subscript hs hl (h.close hclose)
      · cases hstep
    · rename_i hl
      split at hstep
      · rename_i hclose
        cases hstep
        exact stands_openBrace hs hl (h.close hclose)
      · cases hstep
    · split at hstep
      · rename_i hclose
        obtain ⟨statement, hcomplete, hstatement⟩ := Option.bind_eq_some_iff.1 hstep
        exact stands_stepStatement ((h.close hclose).complete hcomplete) hs hstatement
      · cases hstep

/-- Every step of the reader. -/
theorem stands_step (h : r.Stands ls) (hs : l.Spelt) (hstep : r.step l = some r') :
    r'.Stands (ls ++ [l]) := by
  obtain ⟨outer, done, mode⟩ := r
  obtain ⟨us, vs, rfl, hd, hm⟩ := h
  cases hm with
  | statement =>
    rw [List.append_nil]
    exact stands_stepStatement hd hs hstep
  | variableName letWord =>
    simp only [Reader.step] at hstep
    split at hstep
    · rename_i hl
      cases hstep
      exact ⟨us, _, by simp [Token.of], hd, .variableBecomes letWord (.of hs hl)⟩
    · cases hstep
  | variableBecomes letWord name =>
    simp only [Reader.step] at hstep
    split at hstep
    · rename_i hl
      cases hstep
      exact ⟨us, _, by simp [Token.of], hd,
        .operand (.variableDeclaration letWord name (.of hs hl)) .nil⟩
    · cases hstep
  | functionName funcWord =>
    simp only [Reader.step] at hstep
    split at hstep
    · rename_i hl
      cases hstep
      exact ⟨us, _, by simp [Token.of], hd,
        .parameters funcWord (.of hs hl) ⟨.noParams, rfl, rfl⟩⟩
    · cases hstep
  | parameters funcWord name hp =>
    simp only [Reader.step] at hstep
    split at hstep
    · rename_i hl
      cases hstep
      exact ⟨us, _, by simp, hd, .parameters funcWord name (derives_param hs hl hp)⟩
    · rename_i hl
      cases hstep
      exact ⟨us, _, by simp [Token.of], hd,
        .operand (.functionDeclaration funcWord name hp (.of hs hl)) .nil⟩
    · cases hstep
  | assignmentBecomes name =>
    simp only [Reader.step] at hstep
    split at hstep
    · rename_i hl
      cases hstep
      exact ⟨us, _, by simp [Token.of], hd, .operand (.assignment name (.of hs hl)) .nil⟩
    · cases hstep
  | operand hh hp =>
    obtain ⟨mode, hmode, hr'⟩ := Option.bind_eq_some_iff.1 hstep
    cases hr'
    exact ⟨us, _, by simp, hd, moded_stepOperand hh hp hs hmode⟩
  | named hh hp name =>
    simp only [Reader.step] at hstep
    split at hstep
    · rename_i hl
      cases hstep
      exact ⟨us, _, by simp [Token.of], hd, .operand hh (.call hp name (.of hs hl) .none)⟩
    · exact stands_stepOperator (.parts hd hh hp (derives_name name)) hs hstep
  | operator hh hp he => exact stands_stepOperator (.parts hd hh hp he) hs hstep

theorem stands_start : Reader.start.Stands [] :=
  ⟨[], [], rfl, ⟨[], [], rfl, .nil, .noItems, rfl, rfl⟩, .statement⟩

theorem stands_run (h : r.Stands ls) {ls' : List Lexeme} (hs : ∀ l ∈ ls', l.Spelt)
    (hrun : r.run ls' = some r') : r'.Stands (ls ++ ls') := by
  induction ls' generalizing r ls with
  | nil =>
    cases hrun
    rwa [List.append_nil]
  | cons l ls' ih =>
    obtain ⟨next, hstep, hrest⟩ := Option.bind_eq_some_iff.1 hrun
    have hnext := stands_step h (hs l List.mem_cons_self) hstep
    have hstands := ih hnext (fun l hl => hs l (List.mem_cons_of_mem _ hl)) hrest
    rwa [List.append_assoc] at hstands

theorem derives_program (hd : Done [] done ls) :
    Derives .program ls (.program (.block done.reverse)) := by
  obtain ⟨us, vs, rfl, ho, t, rfl, hread⟩ := hd
  cases ho
  exact ⟨.program t, rfl, by rw [← hread]; rfl⟩

theorem derives_endAfter {statements : List Node} (h : ReadTo [] done head n 8 pending expr ls)
    (hend : Reader.endAfter done head pending expr = some statements) :
    Derives .program ls (.program (.block statements.reverse)) := by
  unfold Reader.endAfter at hend
  split at hend
  · rename_i hclose
    obtain ⟨statement, hcomplete, rfl⟩ := Option.map_eq_some_iff.1 hend
    exact derives_program ((h.close hclose).complete hcomplete)
  · cases hend

/-- A state in which the text may end stands for a program. -/
theorem derives_finish? {program : Node} (h : r.Stands ls) (hf : r.finish? = some program) :
    Derives .program ls program := by
  obtain ⟨us, vs, rfl, hd, hm⟩ := h
  unfold Reader.finish? at hf
  simp only at hf
  split at hf
  · rename_i houter hmode
    rw [houter] at hd
    rw [hmode] at hm
    cases hm
    cases hf
    rw [List.append_nil]
    exact derives_program hd
  · rename_i houter hmode
    rw [houter] at hd
    rw [hmode] at hm
    obtain ⟨statements, hend, hp⟩ := Option.bind_eq_some_iff.1 hf
    cases hp
    cases hm with
    | named hh hp name =>
      exact derives_endAfter (.parts hd hh hp (derives_name name)) hend
  · rename_i houter hmode
    rw [houter] at hd
    rw [hmode] at hm
    obtain ⟨statements, hend, hp⟩ := Option.bind_eq_some_iff.1 hf
    cases hp
    cases hm with
    | operator hh hp he => exact derives_endAfter (.parts hd hh hp he) hend
  · cases hf

end steps

/-- The reader accepts some lexemes, and gives a program, exactly when the program is read off
a tree with these lexemes. -/
theorem accepts_iff {ls : List Lexeme} (hs : ∀ l ∈ ls, l.Spelt) {program : Node} :
    (∃ r, Reader.start.run ls = some r ∧ r.finish? = some program) ↔
      Derives .program ls program := by
  constructor
  · rintro ⟨r, hrun, hfinish⟩
    exact derives_finish? (stands_run stands_start hs hrun) hfinish
  · rintro ⟨t, rfl, rfl⟩
    exact t.isRead

end BellaLang.Source
