-- The words that the nonterminals are written with. Each production says how the
-- words of a tree are made of the words of its parts, and how they lead from the
-- places where the tree may start to those where it may end.
import BellaLang.Proofs.Spacing

namespace BellaLang.Source

/-! ## Passages -/

/-- An operand is due. -/
inductive Place.Due : Place → Prop
  | operand : Due .operand
  | argument : Due .argument
  | element : Due .element

/-- An operand is complete. -/
inductive Place.Past : Place → Prop
  | operator : Past .operator
  | named : Past .named

/-- An item may start. -/
inductive Place.Free : Place → Prop
  | start : Free .start
  | statement : Free .statement
  | operator : Free .operator
  | named : Free .named

/-- A list of arguments may end. -/
inductive Place.Listing : Place → Prop
  | due {place : Place} (h : place.Due) : Listing place
  | past {place : Place} (h : place.Past) : Listing place

theorem Place.Past.free {place : Place} (h : place.Past) : place.Free := by
  cases h <;> constructor

/-- Some lexemes lead from places of one kind to places of another. -/
def Passage (P : Place → Prop) (ls : List Lexeme) (Q : Place → Prop) : Prop :=
  ∀ place, P place → ∃ final, Q final ∧ Leads place ls final

namespace Passage

variable {P Q R : Place → Prop} {ls ls' : List Lexeme}

theorem nil : Passage P [] P := fun place hp => ⟨place, hp, .nil place⟩

theorem cons {l : Lexeme} (hn : ∀ place, P place → place.Names l)
    (hstep : ∀ place, P place → R (place.after l.terminal)) (h : Passage R ls Q) :
    Passage P (l :: ls) Q := by
  intro place hp
  obtain ⟨final, hq, hl⟩ := h _ (hstep place hp)
  exact ⟨final, hq, .cons (hn place hp) hl⟩

/-- What leads from one kind of place to another may be followed by what leads on. -/
theorem append (h : Passage P ls R) (h' : Passage R ls' Q) : Passage P (ls ++ ls') Q := by
  intro place hp
  obtain ⟨next, hr, hl⟩ := h place hp
  obtain ⟨final, hq, hl'⟩ := h' next hr
  exact ⟨final, hq, hl.append hl'⟩

theorem mono (h : Passage P ls R) (hq : ∀ {place}, R place → Q place) : Passage P ls Q := by
  intro place hp
  obtain ⟨final, hr, hl⟩ := h place hp
  exact ⟨final, hq hr, hl⟩

end Passage

/-! ## Tokens from their words -/

/-- The token that a keyword or a sign spells. -/
def Token.fixed (s : String) (t : Terminal)
    (h : (s.toList, t) ∈ Terminal.keywords ++ Terminal.symbols) : Token [t] :=
  ⟨⟨t, s.toList⟩, List.mem_singleton_self t, spelt_of_mem h⟩

@[simp] theorem Token.wordOf_fixed {s : String} {t : Terminal}
    (h : (s.toList, t) ∈ Terminal.keywords ++ Terminal.symbols) :
    Reader.wordOf (Token.fixed s t h).1 = s := rfl

/-- A keyword or a sign leads on wherever it stands. -/
theorem Passage.fixed {P Q R : Place → Prop} {ls : List Lexeme} {s : String} {t : Terminal}
    (h : (s.toList, t) ∈ Terminal.keywords ++ Terminal.symbols)
    (hstep : ∀ place, P place → R (place.after t)) (hls : Passage R ls Q) :
    Passage P ((Token.fixed s t h).1 :: ls) Q :=
  .cons (fun _ _ hi => absurd hi (fixed_terminals _ h).1) hstep hls

/-- The token that a name is. -/
def Token.name {word : List Char} (h : IsWord word) : Token [.ident] :=
  ⟨⟨.ident, word⟩, List.mem_singleton_self _, h⟩

@[simp] theorem Token.wordOf_name {word : List Char} (h : IsWord word) :
    Reader.wordOf (Token.name h).1 = .ofChars word := rfl

/-- A name leads on where no keyword that it may not be is looked for. -/
theorem Passage.name {P Q R : Place → Prop} {ls : List Lexeme} {word : List Char}
    {reserved : List Terminal} (h : IsWord word)
    (hw : ∀ k ∈ Terminal.keywords, k.2 ∈ reserved → k.1 ≠ word)
    (hk : ∀ place, P place → ∀ k ∈ Terminal.keywords, k.2 ∉ reserved → place.accepts k.2 = false)
    (hstep : ∀ place, P place → R (place.after .ident)) (hls : Passage R ls Q) :
    Passage P ((Token.name h).1 :: ls) Q := by
  refine .cons ?_ hstep hls
  intro place hp _ k hmem heq
  exact hk place hp k hmem fun hr => hw k hmem hr heq

/-! ## Words of a nonterminal -/

/-- Where a tree of a nonterminal may start. -/
def Nonterminal.Enters : Nonterminal → Place → Prop
  | program | items | statement => Place.Free
  | params => (· = .parameter)
  | block | moreArgs => Place.Past
  | expr _ | args => Place.Due

/-- Where a tree of a nonterminal may end. -/
def Nonterminal.Leaves : Nonterminal → Place → Prop
  | program | items | statement | block => Place.Free
  | params => (· = .parameter)
  | expr _ | moreArgs => Place.Past
  | args => Place.Listing

/-- The word of a keyword or a sign. -/
abbrev fixed (s : String) : List Text := [.ofString s]

/-- Some words are those of a tree of a nonterminal, which is read as given. -/
def Writes (n : Nonterminal) (words : List Text) (x : n.Reading) : Prop :=
  ∃ ls, ls.map Reader.wordOf = words ∧ Derives n ls x ∧ Passage n.Enters ls n.Leaves

/-- A text that is laid out from the words of a program is read as this program. -/
theorem parse_of_writes {text : Text} {words : List Text} {program : Node}
    (h : Writes .program words program) (hl : Laid text.chars (words.map Text.chars)) :
    parse text = .ok program := by
  obtain ⟨ls, rfl, hd, hp⟩ := h
  obtain ⟨final, _, hleads⟩ := hp .start .start
  have htexts : (ls.map Reader.wordOf).map Text.chars = ls.map Lexeme.text := by
    simp [Reader.wordOf, Text.chars_ofChars, Function.comp_def]
  rw [htexts] at hl
  exact parse_of_laid hl hleads hd

/-! ## Expressions -/

section expressions

variable {level : Nat} {words words' words'' : List Text} {e e' e'' : Node} {args : List Node}

theorem Writes.lower {k : Nat} (h : Writes (.expr level) words e) (hk : k ≤ level)
    (h9 : level ≤ 9) : Writes (.expr k) words e := by
  obtain ⟨ls, hwords, hd, hp⟩ := h
  exact ⟨ls, hwords, hd.lower hk h9, hp⟩

theorem writes_numeral {text : List Char} {s : Number.Spelled} (h : Spells text s) :
    Writes (.expr 9) [.ofChars text] (.numeral s.toNumber) := by
  refine ⟨[⟨.number, text⟩], rfl, ?_, ?_⟩
  · refine ⟨.numeral ⟨⟨.number, text⟩, List.mem_singleton_self _, s, h⟩, rfl, ?_⟩
    simp [ofText?_spells h]
  · exact .cons (fun _ _ hi => nomatch hi) (by rintro _ ⟨⟩ <;> constructor) .nil

theorem writes_booleanLiteral (b : Bool) :
    Writes (.expr 9) [if b then "true" else "false"] (.booleanLiteral b) := by
  cases b with
  | true =>
    refine ⟨_, rfl, ⟨.trueLiteral (.fixed "true" .trueWord (by decide)), rfl, rfl⟩,
      .fixed _ ?_ .nil⟩
    rintro _ ⟨⟩ <;> constructor
  | false =>
    refine ⟨_, rfl, ⟨.falseLiteral (.fixed "false" .falseWord (by decide)), rfl, rfl⟩,
      .fixed _ ?_ .nil⟩
    rintro _ ⟨⟩ <;> constructor

/-- Where an operand is due, all words but the reserved ones are names. -/
theorem due_reserved {place : Place} (h : place.Due) :
    ∀ k ∈ Terminal.keywords, k.2 ∉ operandWords → place.accepts k.2 = false := by
  cases h <;> decide

theorem writes_identifier {name : Text} (h : IsName operandWords name) :
    Writes (.expr 9) [name] (.identifier (.str name)) := by
  obtain ⟨word, rfl, hw, hk⟩ := h
  exact ⟨_, rfl, ⟨.identifier (.name hw), rfl, rfl⟩,
    .name hw hk (fun _ => due_reserved) (by rintro _ ⟨⟩ <;> constructor) .nil⟩

theorem writes_group (h : Writes (.expr 0) words e) :
    Writes (.expr 9) (fixed "(" ++ words ++ fixed ")") e := by
  obtain ⟨ls, rfl, ⟨t, rfl, rfl⟩, hp⟩ := h
  refine ⟨_, ?_, ⟨.group (.fixed "(" .openParen (by decide)) t
    (.fixed ")" .closeParen (by decide)), rfl, rfl⟩, ?_⟩
  · simp
  · refine .fixed _ ?_ (hp.append (.fixed _ ?_ .nil))
    · rintro _ ⟨⟩ <;> constructor
    · rintro _ ⟨⟩ <;> constructor

theorem listing_closeParen : ∀ place : Place, place.Listing → (place.after .closeParen).Past := by
  rintro _ (⟨⟨⟩⟩ | ⟨⟨⟩⟩) <;> constructor

theorem listing_closeBracket : ∀ place : Place, place.Listing →
    (place.after .closeBracket).Past := by
  rintro _ (⟨⟨⟩⟩ | ⟨⟨⟩⟩) <;> constructor

theorem writes_call {callee : Text} (hc : IsName operandWords callee)
    (h : Writes .args words args) :
    Writes (.expr 9) ([callee] ++ fixed "(" ++ words ++ fixed ")") (.call (.str callee) args) := by
  obtain ⟨word, rfl, hw, hk⟩ := hc
  obtain ⟨ls, rfl, ⟨t, rfl, rfl⟩, hp⟩ := h
  refine ⟨_, ?_, ⟨.call (.name hw) (.fixed "(" .openParen (by decide)) t
    (.fixed ")" .closeParen (by decide)), rfl, rfl⟩, ?_⟩
  · simp
  · refine .name (R := (· = .named)) hw hk (fun _ => due_reserved) ?_ (.fixed _ ?_
      (hp.append (.fixed _ listing_closeParen .nil)))
    · rintro _ ⟨⟩ <;> rfl
    · rintro _ rfl
      constructor

theorem writes_arrayLiteral (h : Writes .args words args) :
    Writes (.expr 9) (fixed "[" ++ words ++ fixed "]") (.arrayLiteral args) := by
  obtain ⟨ls, rfl, ⟨t, rfl, rfl⟩, hp⟩ := h
  refine ⟨_, ?_, ⟨.array (.fixed "[" .openBracket (by decide)) t
    (.fixed "]" .closeBracket (by decide)), rfl, rfl⟩, ?_⟩
  · simp
  · refine .fixed _ ?_ (hp.append (.fixed _ listing_closeBracket .nil))
    rintro _ ⟨⟩ <;> constructor

theorem writes_noArgs : Writes .args [] [] :=
  ⟨[], rfl, ⟨.noArgs, rfl, rfl⟩, Passage.nil.mono .due⟩

theorem writes_someArgs (h : Writes (.expr 0) words e) (h' : Writes .moreArgs words' args) :
    Writes .args (words ++ words') (e :: args) := by
  obtain ⟨ls, rfl, ⟨t, rfl, rfl⟩, hp⟩ := h
  obtain ⟨ls', rfl, ⟨t', rfl, rfl⟩, hp'⟩ := h'
  refine ⟨_, ?_, ⟨.someArgs t t', rfl, rfl⟩, ?_⟩
  · simp
  · exact (hp.append hp').mono .past

theorem writes_lastArg : Writes .moreArgs [] [] :=
  ⟨[], rfl, ⟨.lastArg, rfl, rfl⟩, .nil⟩

theorem writes_nextArg (h : Writes (.expr 0) words e) (h' : Writes .moreArgs words' args) :
    Writes .moreArgs (fixed "," ++ words ++ words') (e :: args) := by
  obtain ⟨ls, rfl, ⟨t, rfl, rfl⟩, hp⟩ := h
  obtain ⟨ls', rfl, ⟨t', rfl, rfl⟩, hp'⟩ := h'
  refine ⟨_, ?_, ⟨.nextArg (.fixed "," .comma (by decide)) t t', rfl, rfl⟩, ?_⟩
  · simp
  · refine .fixed _ ?_ (hp.append hp')
    rintro _ ⟨⟩ <;> constructor

theorem writes_subscript (h : Writes (.expr 8) words e) (h' : Writes (.expr 0) words' e') :
    Writes (.expr 8) (words ++ fixed "[" ++ words' ++ fixed "]") (.subscript e e') := by
  obtain ⟨ls, rfl, ⟨t, rfl, rfl⟩, hp⟩ := h
  obtain ⟨ls', rfl, ⟨t', rfl, rfl⟩, hp'⟩ := h'
  refine ⟨_, ?_, ⟨.subscript t (.fixed "[" .openBracket (by decide)) t'
    (.fixed "]" .closeBracket (by decide)), rfl, rfl⟩, ?_⟩
  · simp
  · refine hp.append (.fixed _ ?_ (hp'.append (.fixed _ ?_ .nil)))
    · rintro _ ⟨⟩ <;> constructor
    · rintro _ ⟨⟩ <;> constructor

/-- The test needs parentheses if it is a conditional itself; the other parts do not. -/
theorem writes_conditional (h : Writes (.expr 1) words e) (h' : Writes (.expr 0) words' e')
    (h'' : Writes (.expr 0) words'' e'') :
    Writes (.expr 0) (words ++ fixed "?" ++ words' ++ fixed ":" ++ words'')
      (.conditional e e' e'') := by
  obtain ⟨ls, rfl, ⟨t, rfl, rfl⟩, hp⟩ := h
  obtain ⟨ls', rfl, ⟨t', rfl, rfl⟩, hp'⟩ := h'
  obtain ⟨ls'', rfl, ⟨t'', rfl, rfl⟩, hp''⟩ := h''
  refine ⟨_, ?_, ⟨.ternary t (.fixed "?" .question (by decide)) t'
    (.fixed ":" .colon (by decide)) t'', rfl, rfl⟩, ?_⟩
  · simp
  · refine hp.append (.fixed _ ?_ (hp'.append (.fixed _ ?_ hp'')))
    · rintro _ ⟨⟩ <;> constructor
    · rintro _ ⟨⟩ <;> constructor

/-- The terminal that spells a unary operator. -/
def unaryTerminal : UnaryOp → Terminal
  | .negate => .minus
  | .plus => .plus
  | .not => .bang

theorem unaryTerminal_spells (op : UnaryOp) :
    (op.symbol.toList, unaryTerminal op) ∈ Terminal.keywords ++ Terminal.symbols ∧
      (unaryTerminal op).unary? = some op ∧
      ∀ place : Place, place.Due → (place.after (unaryTerminal op)).Due := by
  cases op <;> exact ⟨by decide, rfl, by rintro _ ⟨⟩ <;> constructor⟩

theorem writes_unary (op : UnaryOp) (h : Writes (.expr 7) words e) :
    Writes (.expr 7) (fixed op.symbol ++ words) (.unary (.str op.symbol) e) := by
  obtain ⟨ls, rfl, hd, hp⟩ := h
  obtain ⟨hmem, hop, hstep⟩ := unaryTerminal_spells op
  exact ⟨(Token.fixed op.symbol _ hmem).1 :: ls, rfl, derives_unary (spelt_of_mem hmem) hop hd,
    .fixed hmem hstep hp⟩

/-- The terminal that spells a binary operator. -/
def binaryTerminal : BinaryOp → Terminal
  | .or => .or
  | .and => .and
  | .equal => .equal
  | .notEqual => .notEqual
  | .less => .less
  | .greater => .greater
  | .atMost => .atMost
  | .atLeast => .atLeast
  | .add => .plus
  | .subtract => .minus
  | .multiply => .star
  | .divide => .slash
  | .remainder => .percent

theorem binaryTerminal_spells (op : BinaryOp) :
    (op.symbol.toList, binaryTerminal op) ∈ Terminal.keywords ++ Terminal.symbols ∧
      (binaryTerminal op).binary? = some op ∧
      ∀ place : Place, place.Past → (place.after (binaryTerminal op)).Due := by
  cases op <;> exact ⟨by decide, rfl, by rintro _ ⟨⟩ <;> constructor⟩

/-- The right operand binds more tightly, since the operators of a level group to the left. -/
theorem writes_binary (op : BinaryOp) (h : Writes (.expr op.level) words e)
    (h' : Writes (.expr (op.level + 1)) words' e') :
    Writes (.expr op.level) (words ++ fixed op.symbol ++ words')
      (.binary (.str op.symbol) e e') := by
  obtain ⟨ls, rfl, hd, hp⟩ := h
  obtain ⟨ls', rfl, hd', hp'⟩ := h'
  obtain ⟨hmem, hop, hstep⟩ := binaryTerminal_spells op
  refine ⟨ls ++ (Token.fixed op.symbol _ hmem).1 :: ls', ?_,
    derives_binary (spelt_of_mem hmem) hop hd hd', hp.append (.fixed hmem hstep hp')⟩
  simp

end expressions

/-! ## Statements -/

section statements

variable {words words' : List Text} {e statement : Node} {statements : List Node}

/-- Where an item may start, all words but the reserved ones are names. -/
theorem free_reserved {place : Place} (h : place.Free) :
    ∀ k ∈ Terminal.keywords, k.2 ∉ statementWords → place.accepts k.2 = false := by
  cases h <;> decide

theorem writes_variableDeclaration {name : Text} (hn : IsName [] name)
    (h : Writes (.expr 0) words e) :
    Writes .statement (fixed "let" ++ [name] ++ fixed "=" ++ words)
      (.variableDeclaration (.str name) e) := by
  obtain ⟨word, rfl, hw, hk⟩ := hn
  obtain ⟨ls, rfl, ⟨t, rfl, rfl⟩, hp⟩ := h
  refine ⟨_, ?_, ⟨.letStatement (.fixed "let" .letWord (by decide)) (.name hw)
    (.fixed "=" .becomes (by decide)) t, rfl, rfl⟩, ?_⟩
  · simp
  · refine .fixed (R := (· = .variableName)) _ ?_ (.name (R := (· = .becomes)) hw hk ?_ ?_
      (.fixed _ ?_ (hp.mono Place.Past.free)))
    · rintro _ ⟨⟩ <;> rfl
    · rintro _ rfl
      decide
    · rintro _ rfl
      rfl
    · rintro _ rfl
      constructor

theorem writes_noParams : Writes .params [] [] :=
  ⟨[], rfl, ⟨.noParams, rfl, rfl⟩, .nil⟩

theorem writes_param {name : Text} {params : List Text} (hn : IsName [] name)
    (h : Writes .params words params) : Writes .params ([name] ++ words) (name :: params) := by
  obtain ⟨word, rfl, hw, hk⟩ := hn
  obtain ⟨ls, rfl, ⟨t, rfl, rfl⟩, hp⟩ := h
  refine ⟨_, rfl, ⟨.param (.name hw) t, rfl, rfl⟩, .name hw hk ?_ ?_ hp⟩
  · rintro _ rfl
    decide
  · rintro _ rfl
    rfl

theorem writes_functionDeclaration {name : Text} {params : List Text} (hn : IsName [] name)
    (hps : Writes .params words params) (h : Writes (.expr 0) words' e) :
    Writes .statement (fixed "func" ++ [name] ++ words ++ fixed "=" ++ words')
      (.functionDeclaration (.str name) (params.map .str) e) := by
  obtain ⟨word, rfl, hw, hk⟩ := hn
  obtain ⟨ls, rfl, ⟨t, rfl, rfl⟩, hp⟩ := hps
  obtain ⟨ls', rfl, ⟨t', rfl, rfl⟩, hp'⟩ := h
  refine ⟨_, ?_, ⟨.funcStatement (.fixed "func" .funcWord (by decide)) (.name hw) t
    (.fixed "=" .becomes (by decide)) t', rfl, rfl⟩, ?_⟩
  · simp
  · refine .fixed (R := (· = .functionName)) _ ?_ (.name hw hk ?_ ?_
      (hp.append (.fixed _ ?_ (hp'.mono Place.Past.free))))
    · rintro _ ⟨⟩ <;> rfl
    · rintro _ rfl
      decide
    · rintro _ rfl
      rfl
    · rintro _ rfl
      constructor

theorem writes_assignment {name : Text} (hn : IsName statementWords name)
    (h : Writes (.expr 0) words e) :
    Writes .statement ([name] ++ fixed "=" ++ words) (.assignment (.str name) e) := by
  obtain ⟨word, rfl, hw, hk⟩ := hn
  obtain ⟨ls, rfl, ⟨t, rfl, rfl⟩, hp⟩ := h
  refine ⟨_, ?_, ⟨.assignStatement (.name hw) (.fixed "=" .becomes (by decide)) t, rfl, rfl⟩, ?_⟩
  · simp
  · refine .name (R := (· = .becomes)) hw hk (fun _ => free_reserved) ?_
      (.fixed _ ?_ (hp.mono Place.Past.free))
    · rintro _ ⟨⟩ <;> rfl
    · rintro _ rfl
      constructor

theorem writes_printStatement (h : Writes (.expr 0) words e) :
    Writes .statement (fixed "print" ++ words) (.printStatement e) := by
  obtain ⟨ls, rfl, ⟨t, rfl, rfl⟩, hp⟩ := h
  refine ⟨_, rfl, ⟨.printStatement (.fixed "print" .printWord (by decide)) t, rfl, rfl⟩,
    .fixed _ ?_ (hp.mono Place.Past.free)⟩
  rintro _ ⟨⟩ <;> constructor

theorem writes_noItems : Writes .items [] [] :=
  ⟨[], rfl, ⟨.noItems, rfl, rfl⟩, .nil⟩

theorem writes_statementItem (h : Writes .statement words statement)
    (h' : Writes .items words' statements) :
    Writes .items (words ++ words') (statement :: statements) := by
  obtain ⟨ls, rfl, ⟨t, rfl, rfl⟩, hp⟩ := h
  obtain ⟨ls', rfl, ⟨t', rfl, rfl⟩, hp'⟩ := h'
  refine ⟨_, ?_, ⟨.statementItem t t', rfl, rfl⟩, hp.append hp'⟩
  simp

theorem writes_block (h : Writes .items words statements) :
    Writes .block (fixed "\x7b" ++ words ++ fixed "\x7d") (.block statements) := by
  obtain ⟨ls, rfl, ⟨t, rfl, rfl⟩, hp⟩ := h
  refine ⟨_, ?_, ⟨.block (.fixed "\x7b" .openBrace (by decide)) t
    (.fixed "\x7d" .closeBrace (by decide)), rfl, rfl⟩, ?_⟩
  · simp
  · refine .fixed _ ?_ (hp.append (.fixed _ ?_ .nil))
    · rintro _ ⟨⟩ <;> constructor
    · rintro _ ⟨⟩ <;> constructor

theorem writes_whileStatement (h : Writes (.expr 0) words e)
    (h' : Writes .block words' statement) :
    Writes .statement (fixed "while" ++ words ++ words') (.whileStatement e statement) := by
  obtain ⟨ls, rfl, ⟨t, rfl, rfl⟩, hp⟩ := h
  obtain ⟨ls', rfl, ⟨t', rfl, rfl⟩, hp'⟩ := h'
  refine ⟨_, ?_, ⟨.whileStatement (.fixed "while" .whileWord (by decide)) t t', rfl, rfl⟩, ?_⟩
  · simp
  · refine .fixed _ ?_ (hp.append hp')
    rintro _ ⟨⟩ <;> constructor

theorem writes_program (h : Writes .items words statements) :
    Writes .program words (.program (.block statements)) := by
  obtain ⟨ls, rfl, ⟨t, rfl, rfl⟩, hp⟩ := h
  exact ⟨_, rfl, ⟨.program t, rfl, rfl⟩, hp⟩

end statements

end BellaLang.Source
