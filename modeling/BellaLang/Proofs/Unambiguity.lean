-- The grammar is unambiguous: no two trees have the same lexemes. A phrase ends
-- before a lexeme that cannot go on with it, and where it ends its tree is
-- settled; operators that group to the left are taken as chains.
import BellaLang.Proofs.Grammar

namespace BellaLang.Source

/-! ## Where a phrase ends -/

/-- The tightest level at which a terminal may go on with the expression before it. -/
def Terminal.bond? : Terminal → Option Nat
  | .openParen => some 9
  | .openBracket => some 8
  | .star | .slash | .percent => some 6
  | .plus | .minus => some 5
  | .less | .greater | .atMost | .atLeast => some 4
  | .equal | .notEqual => some 3
  | .and => some 2
  | .or => some 1
  | .question => some 0
  | _ => none

/-- Whether a terminal may start an item. -/
def Terminal.startsItem (t : Terminal) : Bool :=
  (t matches .ident | .letWord | .funcWord | .printWord | .whileWord | .semicolon)

/-- Whether a terminal may start an expression of a level. -/
def Terminal.startsExpr (level : Nat) (t : Terminal) : Bool :=
  (t matches .ident | .number | .trueWord | .falseWord | .openParen | .openBracket)
    || (level ≤ 7 && (t matches .minus | .plus | .bang))

/-- Whether a terminal may go on with a phrase, so that the phrase need not end before it. -/
def Nonterminal.goesOn : Nonterminal → Terminal → Bool
  | program, t => t.startsItem || t.bond?.isSome
  | items, t => t.startsItem || t.bond?.isSome
  | statement, t => t.bond?.isSome
  | params, t => (t matches .ident)
  | block, _ => false
  | expr level, t => t.bond?.any (level ≤ ·)
  | args, t => (t matches .comma) || t.startsExpr 0 || t.bond?.isSome
  | moreArgs, t => (t matches .comma) || t.bond?.isSome

/-- What comes next does not go on with the phrase. -/
def Ends (n : Nonterminal) (rest : List Lexeme) : Prop :=
  ∀ l ∈ rest.head?, n.goesOn l.terminal = false

@[simp] theorem ends_cons {n : Nonterminal} {l : Lexeme} {rest : List Lexeme} :
    Ends n (l :: rest) ↔ n.goesOn l.terminal = false := by
  simp [Ends]

theorem Ends.mono {n m : Nonterminal} {rest : List Lexeme} (h : Ends n rest)
    (hle : ∀ t, n.goesOn t = false → m.goesOn t = false) : Ends m rest :=
  fun l hl => hle _ (h l hl)

@[simp] theorem Token.terminal_eq {t : Terminal} (token : Token [t]) : token.1.terminal = t :=
  List.mem_singleton.1 token.2.1

/-- The operators of a level bind at that level. -/
theorem bond?_of_mem_operators {level : Nat} {t : Terminal} (h : t ∈ operators level) :
    t.bond? = some level := by
  unfold operators at h
  split at h <;> simp at h
  · rw [h]; rfl
  · rw [h]; rfl
  · rcases h with rfl | rfl <;> rfl
  · rcases h with rfl | rfl | rfl | rfl <;> rfl
  · rcases h with rfl | rfl <;> rfl
  · rcases h with rfl | rfl | rfl <;> rfl

@[simp] theorem Token.bond?_eq {level : Nat} (token : Token (operators level)) :
    token.1.terminal.bond? = some level :=
  bond?_of_mem_operators token.2.1

/-- What ends an expression of a level ends a tighter one too. -/
theorem goesOn_expr_succ {level : Nat} {t : Terminal}
    (h : (Nonterminal.expr level).goesOn t = false) :
    (Nonterminal.expr (level + 1)).goesOn t = false := by
  rcases hb : t.bond? with _ | k
  · simp [Nonterminal.goesOn, hb]
  · simp only [Nonterminal.goesOn, hb, Option.any_some, decide_eq_false_iff_not] at h ⊢
    omega

/-! ## How a phrase starts -/

/-- The terminals that a phrase may start with. -/
def Nonterminal.Starts : Nonterminal → List Lexeme → Prop
  | statement, rest => ∃ l ls, rest = l :: ls ∧ l.terminal.startsItem = true ∧
      l.terminal ≠ .semicolon
  | expr level, rest => ∃ l ls, rest = l :: ls ∧ l.terminal.startsExpr level = true
  | _, _ => True

/-- The first lexeme of a phrase tells what it can be. -/
theorem Tree.starts {n : Nonterminal} (t : Tree n) : n.Starts t.yield := by
  induction t with
  | letStatement letWord name becomes expr _ => exact ⟨_, _, rfl, by simp [Terminal.startsItem]⟩
  | funcStatement funcWord name params becomes body _ _ =>
    exact ⟨_, _, rfl, by simp [Terminal.startsItem]⟩
  | assignStatement name becomes expr _ => exact ⟨_, _, rfl, by simp [Terminal.startsItem]⟩
  | printStatement printWord expr _ => exact ⟨_, _, rfl, by simp [Terminal.startsItem]⟩
  | whileStatement whileWord test body _ _ => exact ⟨_, _, rfl, by simp [Terminal.startsItem]⟩
  | next h expr ih =>
    obtain ⟨l, ls, hyield, hl⟩ := ih
    refine ⟨l, ls, hyield, ?_⟩
    simp only [Terminal.startsExpr, Bool.or_eq_true, Bool.and_eq_true, decide_eq_true_eq] at hl ⊢
    exact hl.imp id fun h => ⟨by omega, h.2⟩
  | ternary test question consequent colon alternate ih _ _ =>
    obtain ⟨l, ls, hyield, hl⟩ := ih
    refine ⟨l, _, by rw [yield, hyield]; rfl, ?_⟩
    simpa [Terminal.startsExpr] using hl
  | binary left op right ih _ =>
    obtain ⟨l, ls, hyield, hl⟩ := ih
    exact ⟨l, _, by rw [yield, hyield]; rfl, hl⟩
  | unary op operand _ =>
    obtain ⟨l, hl, hspelt⟩ := op
    refine ⟨l, _, rfl, ?_⟩
    simp only [List.mem_cons, List.not_mem_nil, or_false] at hl
    rcases hl with h | h | h <;> rw [h] <;> rfl
  | subscript base openBracket index closeBracket ih _ =>
    obtain ⟨l, ls, hyield, hl⟩ := ih
    exact ⟨l, _, by rw [yield, hyield]; rfl, hl⟩
  | numeral number => exact ⟨_, _, rfl, by simp [Terminal.startsExpr]⟩
  | trueLiteral word => exact ⟨_, _, rfl, by simp [Terminal.startsExpr]⟩
  | falseLiteral word => exact ⟨_, _, rfl, by simp [Terminal.startsExpr]⟩
  | identifier name => exact ⟨_, _, rfl, by simp [Terminal.startsExpr]⟩
  | call callee openParen args closeParen _ => exact ⟨_, _, rfl, by simp [Terminal.startsExpr]⟩
  | array openBracket elements closeBracket _ =>
    exact ⟨_, _, rfl, by simp [Terminal.startsExpr]⟩
  | group openParen inner closeParen _ => exact ⟨_, _, rfl, by simp [Terminal.startsExpr]⟩
  | _ => trivial

/-! ## Chains -/

/-- What a left operand is followed by at the levels whose operators group to the left. -/
inductive Step : Nat → Type where
  | binary {level : Nat} (op : Token (operators level)) (right : Tree (.expr (level + 1))) :
      Step level
  | subscript (openBracket : Token [.openBracket]) (index : Tree (.expr 0))
      (closeBracket : Token [.closeBracket]) : Step 8

namespace Step

/-- The tree with one more step to its right. -/
def attach : {level : Nat} → Tree (.expr level) → Step level → Tree (.expr level)
  | _, left, binary op right => .binary left op right
  | _, left, subscript openBracket index closeBracket =>
    .subscript left openBracket index closeBracket

def yield : {level : Nat} → Step level → List Lexeme
  | _, binary op right => op.1 :: right.yield
  | _, subscript openBracket index closeBracket =>
    openBracket.1 :: (index.yield ++ [closeBracket.1])

theorem yield_attach {level : Nat} (left : Tree (.expr level)) (step : Step level) :
    (attach left step).yield = left.yield ++ step.yield := by
  cases step <;> rfl

/-- A step starts with a terminal that goes on at its own level and at no tighter one. -/
theorem head {level : Nat} (step : Step level) :
    ∃ l ls, step.yield = l :: ls ∧ l.terminal.bond? = some level := by
  cases step with
  | binary op right => exact ⟨_, _, rfl, by simp⟩
  | subscript openBracket index closeBracket => exact ⟨_, _, rfl, by simp [Terminal.bond?]⟩

end Step

/-! ## Uniqueness -/

/-- A tree is the only one at the start of its lexemes. -/
def Tree.Unique {n : Nonterminal} (t : Tree n) : Prop :=
  ∀ (u : Tree n) (r s : List Lexeme), t.yield ++ r = u.yield ++ s → Ends n r → Ends n s →
    t = u ∧ r = s

def Step.Has (P : ∀ {n : Nonterminal}, Tree n → Prop) {level : Nat} : Step level → Prop
  | binary _ right => P right
  | subscript _ index _ => P index

/-- A tree at a level that groups to the left is a tighter one with steps after it, and the
parts of these have a property. -/
def Tree.Chained (P : ∀ {n : Nonterminal}, Tree n → Prop) : {n : Nonterminal} → Tree n → Prop
  | .expr level, t => 1 ≤ level → level ≠ 7 → ∀ h : level < 9,
      ∃ (first : Tree (.expr (level + 1))) (steps : List (Step level)), P first ∧
        (∀ step ∈ steps, step.Has P) ∧ t = steps.foldl Step.attach (.next h first)
  | _, _ => True

/-- The lexemes of a chain are those of its first part and of its steps, in this order. -/
theorem yield_foldl {level : Nat} (t : Tree (.expr level)) (steps : List (Step level)) :
    (steps.foldl Step.attach t).yield = t.yield ++ steps.flatMap Step.yield := by
  induction steps generalizing t with
  | nil => simp
  | cons step steps ih =>
    rw [List.foldl_cons, ih, Step.yield_attach, List.flatMap_cons, List.append_assoc]

/-- Each step starts with an operator of the level, which ends what is tighter. -/
theorem ends_steps {level : Nat} {rest : List Lexeme} (h : Ends (.expr level) rest)
    (steps : List (Step level)) :
    Ends (.expr (level + 1)) (steps.flatMap Step.yield ++ rest) := by
  rcases steps with _ | ⟨step, steps⟩
  · exact h.mono fun t => goesOn_expr_succ
  · obtain ⟨l, ls, hyield, hbond⟩ := step.head
    rw [List.flatMap_cons, hyield]
    simp [Nonterminal.goesOn, hbond]

/-- Steps are told apart by what they start with, one after the other. -/
theorem steps_unique {level : Nat} {steps others : List (Step level)} {r s : List Lexeme}
    (hunique : ∀ step ∈ steps, step.Has Tree.Unique)
    (h : steps.flatMap Step.yield ++ r = others.flatMap Step.yield ++ s)
    (hr : Ends (.expr level) r) (hs : Ends (.expr level) s) : steps = others ∧ r = s := by
  have hgoes : ∀ {l : Lexeme}, l.terminal.bond? = some level →
      (Nonterminal.expr level).goesOn l.terminal = true := by
    intro l hbond
    simp [Nonterminal.goesOn, hbond]
  induction steps generalizing others with
  | nil =>
    rcases others with _ | ⟨other, others⟩
    · exact ⟨rfl, h⟩
    · obtain ⟨l, ls, hyield, hbond⟩ := other.head
      rw [List.flatMap_nil, List.nil_append, List.flatMap_cons, hyield] at h
      rw [h] at hr
      simp [hgoes hbond] at hr
  | cons step steps ih =>
    rcases others with _ | ⟨other, others⟩
    · obtain ⟨l, ls, hyield, hbond⟩ := step.head
      rw [List.flatMap_nil, List.nil_append, List.flatMap_cons, hyield] at h
      rw [← h] at hs
      simp [hgoes hbond] at hs
    · have hstep := hunique step List.mem_cons_self
      have hsteps : ∀ s ∈ steps, s.Has Tree.Unique :=
        fun s hs => hunique s (List.mem_cons_of_mem _ hs)
      rw [List.flatMap_cons, List.flatMap_cons, List.append_assoc, List.append_assoc] at h
      cases step with
      | binary op right =>
        cases other with
        | binary op' right' =>
          simp only [Step.yield, List.cons_append, List.cons.injEq] at h
          obtain ⟨rfl, hrest⟩ := hstep right' _ _ h.2 (ends_steps hr steps) (ends_steps hs others)
          obtain ⟨rfl, rfl⟩ := ih hsteps hrest
          rw [Subtype.ext h.1]
          exact ⟨rfl, rfl⟩
        | subscript openBracket index closeBracket =>
          have hmem := op.2.1
          simp [operators] at hmem
      | subscript openBracket index closeBracket =>
        cases other with
        | binary op' right' =>
          have hmem := op'.2.1
          simp [operators] at hmem
        | subscript openBracket' index' closeBracket' =>
          simp only [Step.yield, List.cons_append, List.cons.injEq, List.append_assoc] at h
          obtain ⟨rfl, hrest⟩ := hstep index' _ _ h.2 (by simp [Nonterminal.goesOn, Terminal.bond?])
            (by simp [Nonterminal.goesOn, Terminal.bond?])
          simp only [List.nil_append, List.cons.injEq] at hrest
          obtain ⟨rfl, rfl⟩ := ih hsteps hrest.2
          rw [Subtype.ext h.1, Subtype.ext hrest.1]
          exact ⟨rfl, rfl⟩

section chained

variable {P : ∀ {n : Nonterminal}, Tree n → Prop} {level : Nat}

theorem chained_next (h : level < 9) {first : Tree (.expr (level + 1))} (hf : P first) :
    (Tree.next h first).Chained P :=
  fun _ _ _ => ⟨first, [], hf, by simp, rfl⟩

/-- One more step makes a chain longer. -/
theorem chained_attach {left : Tree (.expr level)} (step : Step level) (hl : left.Chained P)
    (hs : step.Has P) : (step.attach left).Chained P := by
  intro h1 h7 h9
  obtain ⟨first, steps, hf, hsteps, rfl⟩ := hl h1 h7 h9
  refine ⟨first, steps ++ [step], hf, ?_, by simp⟩
  intro other hmem
  rcases List.mem_append.1 hmem with hmem | hmem
  · exact hsteps other hmem
  · rw [List.mem_singleton.1 hmem]
    exact hs

end chained

theorem Tree.chained {n : Nonterminal} (t : Tree n) : t.Chained fun _ => True := by
  induction t with
  | next h expr _ => exact chained_next h trivial
  | binary left op right ih _ => exact chained_attach (.binary op right) ih trivial
  | subscript base openBracket index closeBracket ih _ =>
    exact chained_attach (.subscript openBracket index closeBracket) ih trivial
  | ternary => intro h; omega
  | unary => intro _ h; omega
  | numeral => intro _ _ h; omega
  | trueLiteral => intro _ _ h; omega
  | falseLiteral => intro _ _ h; omega
  | identifier => intro _ _ h; omega
  | call => intro _ _ h; omega
  | array => intro _ _ h; omega
  | group => intro _ _ h; omega
  | _ => trivial

/-- A chain can be cut in one way, at the operators of its level. -/
theorem unique_of_chained {level : Nat} {t : Tree (.expr level)} (h1 : 1 ≤ level)
    (h7 : level ≠ 7) (h9 : level < 9) (ht : t.Chained Tree.Unique) : t.Unique := by
  intro u r s h hr hs
  obtain ⟨first, steps, hfirst, hsteps, rfl⟩ := ht h1 h7 h9
  obtain ⟨first', steps', _, _, rfl⟩ := u.chained h1 h7 h9
  rw [yield_foldl, yield_foldl, List.append_assoc, List.append_assoc] at h
  obtain ⟨rfl, hrest⟩ := hfirst first' _ _ h (ends_steps hr steps) (ends_steps hs steps')
  obtain ⟨rfl, rfl⟩ := steps_unique hsteps hrest hr hs
  exact ⟨rfl, rfl⟩

theorem level_of_operator {level : Nat} (op : Token (operators level)) : 1 ≤ level ∧ level ≤ 6 := by
  have hmem := op.2.1
  unfold operators at hmem
  split at hmem <;> simp at hmem <;> omega

/-! ## Uniqueness, production by production -/

/-- What follows a statement among items. -/
theorem ends_items {rest : List Lexeme} (h : Ends .items rest) (items : Tree .items) :
    Ends .statement (items.yield ++ rest) := by
  have hstart : ∀ {t : Terminal}, t.startsItem = true → Nonterminal.statement.goesOn t = false := by
    intro t ht
    cases t <;> first | rfl | cases ht
  cases items with
  | noItems =>
    refine h.mono fun t ht => ?_
    simp only [Nonterminal.goesOn, Bool.or_eq_false_iff] at ht ⊢
    exact ht.2
  | statementItem statement items =>
    obtain ⟨l, ls, hyield, hl, _⟩ := statement.starts
    rw [Tree.yield, hyield]
    simpa using hstart hl
  | semicolonItem semicolon items =>
    rw [Tree.yield]
    simpa using hstart rfl

theorem Ends.expr {rest : List Lexeme} (h : Ends .statement rest) : Ends (.expr 0) rest := by
  refine h.mono fun t ht => ?_
  simp only [Nonterminal.goesOn] at ht ⊢
  rw [Option.isSome_eq_false_iff, Option.isNone_iff_eq_none] at ht
  rw [ht]
  rfl

theorem ends_moreArgs {rest : List Lexeme} (h : Ends .moreArgs rest) (others : Tree .moreArgs) :
    Ends (.expr 0) (others.yield ++ rest) := by
  cases others with
  | lastArg =>
    apply Ends.expr
    refine h.mono fun t ht => ?_
    simp only [Nonterminal.goesOn, Bool.or_eq_false_iff] at ht ⊢
    exact ht.2
  | nextArg comma arg others =>
    rw [Tree.yield]
    simp [Nonterminal.goesOn, Terminal.bond?]

/-- Where statements may end no other one starts. -/
theorem not_ends_statement (statement : Tree .statement) (rest : List Lexeme) :
    ¬ Ends .items (statement.yield ++ rest) := by
  obtain ⟨l, ls, hyield, hl, _⟩ := statement.starts
  rw [hyield]
  simp [Nonterminal.goesOn, hl]

theorem statement_ne_semicolon (statement : Tree .statement) (semicolon : Token [.semicolon])
    (rest rest' : List Lexeme) : statement.yield ++ rest ≠ semicolon.1 :: rest' := by
  obtain ⟨l, ls, hyield, _, hl⟩ := statement.starts
  intro h
  rw [hyield] at h
  exact hl (by rw [(List.cons.inj h).1, Token.terminal_eq])

section items

variable {statement : Tree .statement} {items : Tree .items}

theorem unique_noItems : Tree.noItems.Unique := by
  intro u r s h hr hs
  cases u with
  | noItems => exact ⟨rfl, h⟩
  | statementItem statement items =>
    rw [Tree.yield, Tree.yield, List.nil_append, List.append_assoc] at h
    rw [h] at hr
    exact absurd hr (not_ends_statement _ _)
  | semicolonItem semicolon items =>
    rw [Tree.yield, Tree.yield, List.nil_append] at h
    rw [h] at hr
    simp [Nonterminal.goesOn, Terminal.startsItem] at hr

/-- The statement ends where the next item starts. -/
theorem unique_statementItem (hs : statement.Unique) (hi : items.Unique) :
    (Tree.statementItem statement items).Unique := by
  intro u r s h hr hs'
  rw [Tree.yield, List.append_assoc] at h
  cases u with
  | noItems =>
    rw [Tree.yield, List.nil_append] at h
    rw [← h] at hs'
    exact absurd hs' (not_ends_statement _ _)
  | statementItem statement' items' =>
    rw [Tree.yield, List.append_assoc] at h
    obtain ⟨rfl, hrest⟩ := hs statement' _ _ h (ends_items hr items) (ends_items hs' items')
    obtain ⟨rfl, rfl⟩ := hi items' r s hrest hr hs'
    exact ⟨rfl, rfl⟩
  | semicolonItem semicolon items' => exact absurd h (statement_ne_semicolon _ _ _ _)

theorem unique_semicolonItem (semicolon : Token [.semicolon]) (hi : items.Unique) :
    (Tree.semicolonItem semicolon items).Unique := by
  intro u r s h hr hs
  cases u with
  | noItems =>
    rw [Tree.yield, Tree.yield, List.nil_append] at h
    rw [← h] at hs
    simp [Nonterminal.goesOn, Terminal.startsItem] at hs
  | statementItem statement items' =>
    rw [Tree.yield, Tree.yield, List.append_assoc] at h
    exact absurd h.symm (statement_ne_semicolon _ _ _ _)
  | semicolonItem semicolon' items' =>
    simp only [Tree.yield, List.cons_append, List.cons.injEq] at h
    obtain ⟨rfl, rfl⟩ := hi items' r s h.2 hr hs
    rw [Subtype.ext h.1]
    exact ⟨rfl, rfl⟩

end items

section statements

variable {expr : Tree (.expr 0)}

theorem unique_letStatement (letWord : Token [.letWord]) (name : Token [.ident])
    (becomes : Token [.becomes]) (he : expr.Unique) :
    (Tree.letStatement letWord name becomes expr).Unique := by
  intro u r s h hr hs
  cases u with
  | letStatement letWord' name' becomes' expr' =>
    simp only [Tree.yield, List.cons_append, List.cons.injEq] at h
    obtain ⟨rfl, rfl⟩ := he expr' r s h.2.2.2 hr.expr hs.expr
    rw [Subtype.ext h.1, Subtype.ext h.2.1, Subtype.ext h.2.2.1]
    exact ⟨rfl, rfl⟩
  | _ => exact absurd (congrArg Lexeme.terminal (List.cons.inj h).1) (by simp)

theorem unique_funcStatement (funcWord : Token [.funcWord]) (name : Token [.ident])
    {params : Tree .params} (becomes : Token [.becomes]) (hp : params.Unique) (he : expr.Unique) :
    (Tree.funcStatement funcWord name params becomes expr).Unique := by
  intro u r s h hr hs
  cases u with
  | funcStatement funcWord' name' params' becomes' expr' =>
    simp only [Tree.yield, List.cons_append, List.cons.injEq, List.append_assoc] at h
    obtain ⟨rfl, hrest⟩ := hp params' _ _ h.2.2 (by simp [Nonterminal.goesOn])
      (by simp [Nonterminal.goesOn])
    simp only [List.cons.injEq] at hrest
    obtain ⟨rfl, rfl⟩ := he expr' r s hrest.2 hr.expr hs.expr
    rw [Subtype.ext h.1, Subtype.ext h.2.1, Subtype.ext hrest.1]
    exact ⟨rfl, rfl⟩
  | _ => exact absurd (congrArg Lexeme.terminal (List.cons.inj h).1) (by simp)

theorem unique_assignStatement (name : Token [.ident]) (becomes : Token [.becomes])
    (he : expr.Unique) : (Tree.assignStatement name becomes expr).Unique := by
  intro u r s h hr hs
  cases u with
  | assignStatement name' becomes' expr' =>
    simp only [Tree.yield, List.cons_append, List.cons.injEq] at h
    obtain ⟨rfl, rfl⟩ := he expr' r s h.2.2 hr.expr hs.expr
    rw [Subtype.ext h.1, Subtype.ext h.2.1]
    exact ⟨rfl, rfl⟩
  | _ => exact absurd (congrArg Lexeme.terminal (List.cons.inj h).1) (by simp)

theorem unique_printStatement (printWord : Token [.printWord]) (he : expr.Unique) :
    (Tree.printStatement printWord expr).Unique := by
  intro u r s h hr hs
  cases u with
  | printStatement printWord' expr' =>
    simp only [Tree.yield, List.cons_append, List.cons.injEq] at h
    obtain ⟨rfl, rfl⟩ := he expr' r s h.2 hr.expr hs.expr
    rw [Subtype.ext h.1]
    exact ⟨rfl, rfl⟩
  | _ => exact absurd (congrArg Lexeme.terminal (List.cons.inj h).1) (by simp)

theorem ends_block (body : Tree .block) (rest : List Lexeme) :
    Ends (.expr 0) (body.yield ++ rest) := by
  cases body with
  | block openBrace items closeBrace =>
    rw [Tree.yield]
    simp [Nonterminal.goesOn, Terminal.bond?]

/-- The test ends at the brace. -/
theorem unique_whileStatement (whileWord : Token [.whileWord]) {body : Tree .block}
    (he : expr.Unique) (hb : body.Unique) : (Tree.whileStatement whileWord expr body).Unique := by
  intro u r s h hr hs
  cases u with
  | whileStatement whileWord' expr' body' =>
    simp only [Tree.yield, List.cons_append, List.cons.injEq, List.append_assoc] at h
    obtain ⟨rfl, hrest⟩ := he expr' _ _ h.2 (ends_block body r) (ends_block body' s)
    obtain ⟨rfl, rfl⟩ := hb body' r s hrest (fun _ _ => rfl) (fun _ _ => rfl)
    rw [Subtype.ext h.1]
    exact ⟨rfl, rfl⟩
  | _ => exact absurd (congrArg Lexeme.terminal (List.cons.inj h).1) (by simp)

theorem unique_noParams : Tree.noParams.Unique := by
  intro u r s h hr hs
  cases u with
  | noParams => exact ⟨rfl, h⟩
  | param name params =>
    rw [Tree.yield, Tree.yield, List.nil_append] at h
    rw [h] at hr
    simp [Nonterminal.goesOn] at hr

theorem unique_param (name : Token [.ident]) {params : Tree .params} (hp : params.Unique) :
    (Tree.param name params).Unique := by
  intro u r s h hr hs
  cases u with
  | noParams =>
    rw [Tree.yield, Tree.yield, List.nil_append] at h
    rw [← h] at hs
    simp [Nonterminal.goesOn] at hs
  | param name' params' =>
    simp only [Tree.yield, List.cons_append, List.cons.injEq] at h
    obtain ⟨rfl, rfl⟩ := hp params' r s h.2 hr hs
    rw [Subtype.ext h.1]
    exact ⟨rfl, rfl⟩

theorem unique_block (openBrace : Token [.openBrace]) {items : Tree .items}
    (closeBrace : Token [.closeBrace]) (hi : items.Unique) :
    (Tree.block openBrace items closeBrace).Unique := by
  intro u r s h hr hs
  cases u with
  | block openBrace' items' closeBrace' =>
    simp only [Tree.yield, List.cons_append, List.cons.injEq, List.append_assoc] at h
    obtain ⟨rfl, hrest⟩ := hi items' _ _ h.2
      (by simp [Nonterminal.goesOn, Terminal.startsItem, Terminal.bond?])
      (by simp [Nonterminal.goesOn, Terminal.startsItem, Terminal.bond?])
    simp only [List.nil_append, List.cons.injEq] at hrest
    rw [Subtype.ext h.1, Subtype.ext hrest.1]
    exact ⟨rfl, hrest.2⟩

end statements

section expressions

theorem no_operator {level : Nat} (h : level = 0 ∨ 7 ≤ level) (op : Token (operators level)) :
    False := by
  have hlevel := level_of_operator op
  omega

/-- A question mark goes on with a conditional only. -/
theorem ends_question (question : Token [.question]) (rest : List Lexeme) :
    Ends (.expr 1) (question.1 :: rest) := by
  simp [Nonterminal.goesOn, Terminal.bond?]

theorem not_ends_question (question : Token [.question]) (rest : List Lexeme) :
    ¬ Ends (.expr 0) (question.1 :: rest) := by
  simp [Nonterminal.goesOn, Terminal.bond?]

/-- No question mark follows, so the tree is no conditional. -/
theorem unique_next_zero (h : 0 < 9) {test : Tree (.expr 1)} (ht : test.Unique) :
    (Tree.next h test).Unique := by
  intro u r s heq hr hs
  have hr' : Ends (.expr 1) r := hr.mono fun t => goesOn_expr_succ
  cases u with
  | next _ test' =>
    obtain ⟨rfl, rfl⟩ := ht test' r s heq hr' (hs.mono fun t => goesOn_expr_succ)
    exact ⟨rfl, rfl⟩
  | ternary test' question consequent colon alternate =>
    rw [Tree.yield, Tree.yield, List.append_assoc] at heq
    obtain ⟨rfl, rfl⟩ := ht test' _ _ heq hr' (ends_question question _)
    exact absurd hr (not_ends_question question _)
  | binary left op right => exact (no_operator (Or.inl rfl) op).elim

/-- The question mark tells a conditional from its test alone. -/
theorem unique_ternary {test : Tree (.expr 1)} {consequent alternate : Tree (.expr 0)}
    (question : Token [.question]) (colon : Token [.colon]) (ht : test.Unique)
    (hc : consequent.Unique) (ha : alternate.Unique) :
    (Tree.ternary test question consequent colon alternate).Unique := by
  intro u r s heq hr hs
  rw [Tree.yield, List.append_assoc] at heq
  cases u with
  | next _ test' =>
    obtain ⟨rfl, rfl⟩ := ht test' _ s heq (ends_question question _)
      (hs.mono fun t => goesOn_expr_succ)
    exact absurd hs (not_ends_question question _)
  | ternary test' question' consequent' colon' alternate' =>
    rw [Tree.yield, List.append_assoc] at heq
    obtain ⟨rfl, hrest⟩ := ht test' _ _ heq (ends_question question _) (ends_question question' _)
    simp only [List.cons_append, List.cons.injEq, List.append_assoc] at hrest
    obtain ⟨rfl, hlast⟩ := hc consequent' _ _ hrest.2
      (by simp [Nonterminal.goesOn, Terminal.bond?]) (by simp [Nonterminal.goesOn, Terminal.bond?])
    simp only [List.cons.injEq] at hlast
    obtain ⟨rfl, rfl⟩ := ha alternate' r s hlast.2 hr hs
    rw [Subtype.ext hrest.1, Subtype.ext hlast.1]
    exact ⟨rfl, rfl⟩
  | binary left op right => exact (no_operator (Or.inl rfl) op).elim

/-- No expression without a unary operator starts with one. -/
theorem yield_ne_unary (base : Tree (.expr 8)) (op : Token [.minus, .plus, .bang])
    (rest rest' : List Lexeme) : base.yield ++ rest ≠ op.1 :: rest' := by
  obtain ⟨l, ls, hyield, hl⟩ := base.starts
  intro h
  rw [hyield] at h
  have hop := op.2.1
  rw [← (List.cons.inj h).1] at hop
  simp only [List.mem_cons, List.not_mem_nil, or_false] at hop
  rcases hop with hop | hop | hop <;> rw [hop] at hl <;> cases hl

theorem unique_next_seven (h : 7 < 9) {base : Tree (.expr 8)} (hb : base.Unique) :
    (Tree.next h base).Unique := by
  intro u r s heq hr hs
  cases u with
  | next _ base' =>
    obtain ⟨rfl, rfl⟩ := hb base' r s heq (hr.mono fun t => goesOn_expr_succ)
      (hs.mono fun t => goesOn_expr_succ)
    exact ⟨rfl, rfl⟩
  | binary left op right => exact (no_operator (Or.inr (by omega)) op).elim
  | unary op operand => exact absurd heq (yield_ne_unary base op _ _)

/-- An operator in front tells the tree from what is tighter. -/
theorem unique_unary (op : Token [.minus, .plus, .bang]) {operand : Tree (.expr 7)}
    (ho : operand.Unique) : (Tree.unary op operand).Unique := by
  intro u r s heq hr hs
  cases u with
  | next _ base => exact absurd heq.symm (yield_ne_unary base op _ _)
  | binary left op right => exact (no_operator (Or.inr (by omega)) op).elim
  | unary op' operand' =>
    simp only [Tree.yield, List.cons_append, List.cons.injEq] at heq
    obtain ⟨rfl, rfl⟩ := ho operand' r s heq.2 hr hs
    rw [Subtype.ext heq.1]
    exact ⟨rfl, rfl⟩

theorem unique_numeral (number : Token [.number]) : (Tree.numeral number).Unique := by
  intro u r s heq hr hs
  cases u with
  | next h _ => omega
  | binary left op right => exact (no_operator (Or.inr (by omega)) op).elim
  | numeral number' =>
    simp only [Tree.yield, List.cons_append, List.nil_append, List.cons.injEq] at heq
    rw [Subtype.ext heq.1]
    exact ⟨rfl, heq.2⟩
  | _ => exact absurd (congrArg Lexeme.terminal (List.cons.inj heq).1) (by simp)

theorem unique_trueLiteral (word : Token [.trueWord]) : (Tree.trueLiteral word).Unique := by
  intro u r s heq hr hs
  cases u with
  | next h _ => omega
  | binary left op right => exact (no_operator (Or.inr (by omega)) op).elim
  | trueLiteral word' =>
    simp only [Tree.yield, List.cons_append, List.nil_append, List.cons.injEq] at heq
    rw [Subtype.ext heq.1]
    exact ⟨rfl, heq.2⟩
  | _ => exact absurd (congrArg Lexeme.terminal (List.cons.inj heq).1) (by simp)

theorem unique_falseLiteral (word : Token [.falseWord]) : (Tree.falseLiteral word).Unique := by
  intro u r s heq hr hs
  cases u with
  | next h _ => omega
  | binary left op right => exact (no_operator (Or.inr (by omega)) op).elim
  | falseLiteral word' =>
    simp only [Tree.yield, List.cons_append, List.nil_append, List.cons.injEq] at heq
    rw [Subtype.ext heq.1]
    exact ⟨rfl, heq.2⟩
  | _ => exact absurd (congrArg Lexeme.terminal (List.cons.inj heq).1) (by simp)

/-- A name before a parenthesis is called. -/
theorem not_ends_openParen (openParen : Token [.openParen]) (rest : List Lexeme) :
    ¬ Ends (.expr 9) (openParen.1 :: rest) := by
  simp [Nonterminal.goesOn, Terminal.bond?]

theorem unique_identifier (name : Token [.ident]) : (Tree.identifier name).Unique := by
  intro u r s heq hr hs
  cases u with
  | next h _ => omega
  | binary left op right => exact (no_operator (Or.inr (by omega)) op).elim
  | identifier name' =>
    simp only [Tree.yield, List.cons_append, List.nil_append, List.cons.injEq] at heq
    rw [Subtype.ext heq.1]
    exact ⟨rfl, heq.2⟩
  | call callee openParen args closeParen =>
    simp only [Tree.yield, List.cons_append, List.nil_append, List.cons.injEq] at heq
    rw [heq.2] at hr
    exact absurd hr (not_ends_openParen openParen _)
  | _ => exact absurd (congrArg Lexeme.terminal (List.cons.inj heq).1) (by simp)

/-- A closing bracket ends a list of arguments. -/
theorem ends_args {t : Terminal} (ht : t = .closeParen ∨ t = .closeBracket) (bracket : Token [t])
    (rest : List Lexeme) : Ends .args (bracket.1 :: rest) := by
  rcases ht with rfl | rfl <;> simp [Nonterminal.goesOn, Terminal.startsExpr, Terminal.bond?]

/-- A parenthesis after a name tells a call from the name. -/
theorem unique_call (callee : Token [.ident]) (openParen : Token [.openParen])
    {args : Tree .args} (closeParen : Token [.closeParen]) (ha : args.Unique) :
    (Tree.call callee openParen args closeParen).Unique := by
  intro u r s heq hr hs
  cases u with
  | next h _ => omega
  | binary left op right => exact (no_operator (Or.inr (by omega)) op).elim
  | identifier name =>
    simp only [Tree.yield, List.cons_append, List.nil_append, List.cons.injEq] at heq
    rw [← heq.2] at hs
    exact absurd hs (not_ends_openParen openParen _)
  | call callee' openParen' args' closeParen' =>
    simp only [Tree.yield, List.cons_append, List.cons.injEq, List.append_assoc] at heq
    obtain ⟨rfl, hrest⟩ := ha args' _ _ heq.2.2 (ends_args (Or.inl rfl) closeParen _)
      (ends_args (Or.inl rfl) closeParen' _)
    simp only [List.nil_append, List.cons.injEq] at hrest
    rw [Subtype.ext heq.1, Subtype.ext heq.2.1, Subtype.ext hrest.1]
    exact ⟨rfl, hrest.2⟩
  | _ => exact absurd (congrArg Lexeme.terminal (List.cons.inj heq).1) (by simp)

theorem unique_array (openBracket : Token [.openBracket]) {elements : Tree .args}
    (closeBracket : Token [.closeBracket]) (he : elements.Unique) :
    (Tree.array openBracket elements closeBracket).Unique := by
  intro u r s heq hr hs
  cases u with
  | next h _ => omega
  | binary left op right => exact (no_operator (Or.inr (by omega)) op).elim
  | array openBracket' elements' closeBracket' =>
    simp only [Tree.yield, List.cons_append, List.cons.injEq, List.append_assoc] at heq
    obtain ⟨rfl, hrest⟩ := he elements' _ _ heq.2 (ends_args (Or.inr rfl) closeBracket _)
      (ends_args (Or.inr rfl) closeBracket' _)
    simp only [List.nil_append, List.cons.injEq] at hrest
    rw [Subtype.ext heq.1, Subtype.ext hrest.1]
    exact ⟨rfl, hrest.2⟩
  | _ => exact absurd (congrArg Lexeme.terminal (List.cons.inj heq).1) (by simp)

theorem unique_group (openParen : Token [.openParen]) {inner : Tree (.expr 0)}
    (closeParen : Token [.closeParen]) (hi : inner.Unique) :
    (Tree.group openParen inner closeParen).Unique := by
  intro u r s heq hr hs
  cases u with
  | next h _ => omega
  | binary left op right => exact (no_operator (Or.inr (by omega)) op).elim
  | group openParen' inner' closeParen' =>
    simp only [Tree.yield, List.cons_append, List.cons.injEq, List.append_assoc] at heq
    obtain ⟨rfl, hrest⟩ := hi inner' _ _ heq.2 (by simp [Nonterminal.goesOn, Terminal.bond?])
      (by simp [Nonterminal.goesOn, Terminal.bond?])
    simp only [List.nil_append, List.cons.injEq] at hrest
    rw [Subtype.ext heq.1, Subtype.ext hrest.1]
    exact ⟨rfl, hrest.2⟩
  | _ => exact absurd (congrArg Lexeme.terminal (List.cons.inj heq).1) (by simp)

/-- Where a list may end no part of it starts. -/
theorem not_ends_expr (expr : Tree (.expr 0)) (rest : List Lexeme) :
    ¬ Ends .args (expr.yield ++ rest) := by
  obtain ⟨l, ls, hyield, hl⟩ := expr.starts
  rw [hyield]
  simp [Nonterminal.goesOn, hl]

theorem unique_noArgs : Tree.noArgs.Unique := by
  intro u r s heq hr hs
  cases u with
  | noArgs => exact ⟨rfl, heq⟩
  | someArgs first others =>
    rw [Tree.yield, Tree.yield, List.nil_append, List.append_assoc] at heq
    rw [heq] at hr
    exact absurd hr (not_ends_expr first _)

theorem Ends.moreArgs {rest : List Lexeme} (h : Ends .args rest) : Ends .moreArgs rest := by
  refine h.mono fun t ht => ?_
  simp only [Nonterminal.goesOn, Bool.or_eq_false_iff] at ht ⊢
  exact ⟨ht.1.1, ht.2⟩

theorem unique_someArgs {first : Tree (.expr 0)} {others : Tree .moreArgs} (hf : first.Unique)
    (ho : others.Unique) : (Tree.someArgs first others).Unique := by
  intro u r s heq hr hs
  rw [Tree.yield, List.append_assoc] at heq
  cases u with
  | noArgs =>
    rw [Tree.yield, List.nil_append] at heq
    rw [← heq] at hs
    exact absurd hs (not_ends_expr first _)
  | someArgs first' others' =>
    rw [Tree.yield, List.append_assoc] at heq
    obtain ⟨rfl, hrest⟩ := hf first' _ _ heq (ends_moreArgs hr.moreArgs others)
      (ends_moreArgs hs.moreArgs others')
    obtain ⟨rfl, rfl⟩ := ho others' r s hrest hr.moreArgs hs.moreArgs
    exact ⟨rfl, rfl⟩

theorem unique_lastArg : Tree.lastArg.Unique := by
  intro u r s heq hr hs
  cases u with
  | lastArg => exact ⟨rfl, heq⟩
  | nextArg comma arg others =>
    rw [Tree.yield, Tree.yield, List.nil_append] at heq
    rw [heq] at hr
    simp [Nonterminal.goesOn] at hr

/-- A comma tells that another part follows. -/
theorem unique_nextArg (comma : Token [.comma]) {arg : Tree (.expr 0)} {others : Tree .moreArgs}
    (ha : arg.Unique) (ho : others.Unique) : (Tree.nextArg comma arg others).Unique := by
  intro u r s heq hr hs
  cases u with
  | lastArg =>
    rw [Tree.yield, Tree.yield, List.nil_append] at heq
    rw [← heq] at hs
    simp [Nonterminal.goesOn] at hs
  | nextArg comma' arg' others' =>
    simp only [Tree.yield, List.cons_append, List.cons.injEq, List.append_assoc] at heq
    obtain ⟨rfl, hrest⟩ := ha arg' _ _ heq.2 (ends_moreArgs hr others) (ends_moreArgs hs others')
    obtain ⟨rfl, rfl⟩ := ho others' r s hrest hr hs
    rw [Subtype.ext heq.1]
    exact ⟨rfl, rfl⟩

end expressions

/-- Every tree is the only one at the start of its lexemes, and so are the parts of its
chain. -/
theorem Tree.unique_and_chained {n : Nonterminal} (t : Tree n) :
    t.Unique ∧ t.Chained Tree.Unique := by
  induction t with
  | program items ih =>
    refine ⟨?_, trivial⟩
    intro u r s h hr hs
    cases u with
    | program items' =>
      obtain ⟨rfl, rfl⟩ := ih.1 items' r s h hr hs
      exact ⟨rfl, rfl⟩
  | noItems => exact ⟨unique_noItems, trivial⟩
  | statementItem statement items ihs ihi => exact ⟨unique_statementItem ihs.1 ihi.1, trivial⟩
  | semicolonItem semicolon items ih => exact ⟨unique_semicolonItem semicolon ih.1, trivial⟩
  | letStatement letWord name becomes expr ih =>
    exact ⟨unique_letStatement letWord name becomes ih.1, trivial⟩
  | funcStatement funcWord name params becomes body ihp ihb =>
    exact ⟨unique_funcStatement funcWord name becomes ihp.1 ihb.1, trivial⟩
  | assignStatement name becomes expr ih =>
    exact ⟨unique_assignStatement name becomes ih.1, trivial⟩
  | printStatement printWord expr ih => exact ⟨unique_printStatement printWord ih.1, trivial⟩
  | whileStatement whileWord test body iht ihb =>
    exact ⟨unique_whileStatement whileWord iht.1 ihb.1, trivial⟩
  | noParams => exact ⟨unique_noParams, trivial⟩
  | param name params ih => exact ⟨unique_param name ih.1, trivial⟩
  | block openBrace items closeBrace ih => exact ⟨unique_block openBrace closeBrace ih.1, trivial⟩
  | @next level h expr ih =>
    have hchained := chained_next (P := Tree.Unique) h ih.1
    refine ⟨?_, hchained⟩
    by_cases h0 : level = 0
    · subst h0
      exact unique_next_zero h ih.1
    · by_cases h7 : level = 7
      · subst h7
        exact unique_next_seven h ih.1
      · exact unique_of_chained (by omega) h7 h hchained
  | ternary test question consequent colon alternate iht ihc iha =>
    exact ⟨unique_ternary question colon iht.1 ihc.1 iha.1, fun h => by omega⟩
  | @binary level left op right ihl ihr =>
    have hchained := chained_attach (P := Tree.Unique) (.binary op right) ihl.2 ihr.1
    have hlevel := level_of_operator op
    exact ⟨unique_of_chained hlevel.1 (by omega) (by omega) hchained, hchained⟩
  | unary op operand ih => exact ⟨unique_unary op ih.1, fun _ h => by omega⟩
  | subscript base openBracket index closeBracket ihb ihi =>
    have hchained := chained_attach (P := Tree.Unique)
      (.subscript openBracket index closeBracket) ihb.2 ihi.1
    exact ⟨unique_of_chained (by omega) (by omega) (by omega) hchained, hchained⟩
  | numeral number => exact ⟨unique_numeral number, fun _ _ h => by omega⟩
  | trueLiteral word => exact ⟨unique_trueLiteral word, fun _ _ h => by omega⟩
  | falseLiteral word => exact ⟨unique_falseLiteral word, fun _ _ h => by omega⟩
  | identifier name => exact ⟨unique_identifier name, fun _ _ h => by omega⟩
  | call callee openParen args closeParen ih =>
    exact ⟨unique_call callee openParen closeParen ih.1, fun _ _ h => by omega⟩
  | array openBracket elements closeBracket ih =>
    exact ⟨unique_array openBracket closeBracket ih.1, fun _ _ h => by omega⟩
  | group openParen inner closeParen ih =>
    exact ⟨unique_group openParen closeParen ih.1, fun _ _ h => by omega⟩
  | noArgs => exact ⟨unique_noArgs, trivial⟩
  | someArgs first others ihf iho => exact ⟨unique_someArgs ihf.1 iho.1, trivial⟩
  | lastArg => exact ⟨unique_lastArg, trivial⟩
  | nextArg comma arg others iha iho => exact ⟨unique_nextArg comma iha.1 iho.1, trivial⟩

/-- Two trees with the same lexemes are the same tree. -/
theorem Tree.yield_injective {n : Nonterminal} {t u : Tree n} (h : t.yield = u.yield) : t = u :=
  (t.unique_and_chained.1 u [] [] (by rw [h]) (by simp [Ends]) (by simp [Ends])).1

end BellaLang.Source
