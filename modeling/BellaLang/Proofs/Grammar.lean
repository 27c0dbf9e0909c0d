-- The grammar of the language: its nonterminals, a tree constructor for each of
-- its productions, the lexemes of a tree in their order, and the node that a tree
-- is read as.
import BellaLang.Proofs.Reading

namespace BellaLang.Source

/-! ## Tokens -/

/-- A lexeme is spelled as its terminal demands. -/
def Lexeme.Spelt (l : Lexeme) : Prop :=
  match l.terminal with
  | .ident => IsWord l.text
  | .number => ∃ spelled, Spells l.text spelled
  | t => (l.text, t) ∈ Terminal.keywords ++ Terminal.symbols

/-- A lexeme of one of the given terminals. -/
def Token (terminals : List Terminal) : Type :=
  { l : Lexeme // l.terminal ∈ terminals ∧ l.Spelt }

/-- The text of a token. -/
def Token.word {terminals : List Terminal} (token : Token terminals) : Text :=
  .ofChars token.1.text

/-! ## Trees -/

/-- The nonterminals. Expressions have ten levels: conditionals, six levels of binary
operators, unary operators, subscripts, and what needs no parentheses. -/
inductive Nonterminal where
  | program
  | items
  | statement
  | params
  | block
  | expr (level : Nat)
  | args
  | moreArgs

/-- The binary operators of a level. -/
def operators : Nat → List Terminal
  | 1 => [.or]
  | 2 => [.and]
  | 3 => [.equal, .notEqual]
  | 4 => [.less, .greater, .atMost, .atLeast]
  | 5 => [.plus, .minus]
  | 6 => [.star, .slash, .percent]
  | _ => []

/-- The derivation trees of a nonterminal, with a constructor for each production. -/
inductive Tree : Nonterminal → Type where
  | program (items : Tree .items) : Tree .program
  | noItems : Tree .items
  | statementItem (statement : Tree .statement) (items : Tree .items) : Tree .items
  | semicolonItem (semicolon : Token [.semicolon]) (items : Tree .items) : Tree .items
  | letStatement (letWord : Token [.letWord]) (name : Token [.ident]) (becomes : Token [.becomes])
      (expr : Tree (.expr 0)) : Tree .statement
  | funcStatement (funcWord : Token [.funcWord]) (name : Token [.ident]) (params : Tree .params)
      (becomes : Token [.becomes]) (body : Tree (.expr 0)) : Tree .statement
  | assignStatement (name : Token [.ident]) (becomes : Token [.becomes])
      (expr : Tree (.expr 0)) : Tree .statement
  | printStatement (printWord : Token [.printWord]) (expr : Tree (.expr 0)) : Tree .statement
  | whileStatement (whileWord : Token [.whileWord]) (test : Tree (.expr 0))
      (body : Tree .block) : Tree .statement
  | noParams : Tree .params
  | param (name : Token [.ident]) (params : Tree .params) : Tree .params
  | block (openBrace : Token [.openBrace]) (items : Tree .items)
      (closeBrace : Token [.closeBrace]) : Tree .block
  | next {level : Nat} (h : level < 9) (expr : Tree (.expr (level + 1))) : Tree (.expr level)
  | ternary (test : Tree (.expr 1)) (question : Token [.question]) (consequent : Tree (.expr 0))
      (colon : Token [.colon]) (alternate : Tree (.expr 0)) : Tree (.expr 0)
  | binary {level : Nat} (left : Tree (.expr level)) (op : Token (operators level))
      (right : Tree (.expr (level + 1))) : Tree (.expr level)
  | unary (op : Token [.minus, .plus, .bang]) (operand : Tree (.expr 7)) : Tree (.expr 7)
  | subscript (base : Tree (.expr 8)) (openBracket : Token [.openBracket])
      (index : Tree (.expr 0)) (closeBracket : Token [.closeBracket]) : Tree (.expr 8)
  | numeral (number : Token [.number]) : Tree (.expr 9)
  | trueLiteral (word : Token [.trueWord]) : Tree (.expr 9)
  | falseLiteral (word : Token [.falseWord]) : Tree (.expr 9)
  | identifier (name : Token [.ident]) : Tree (.expr 9)
  | call (callee : Token [.ident]) (openParen : Token [.openParen]) (args : Tree .args)
      (closeParen : Token [.closeParen]) : Tree (.expr 9)
  | array (openBracket : Token [.openBracket]) (elements : Tree .args)
      (closeBracket : Token [.closeBracket]) : Tree (.expr 9)
  | group (openParen : Token [.openParen]) (inner : Tree (.expr 0))
      (closeParen : Token [.closeParen]) : Tree (.expr 9)
  | noArgs : Tree .args
  | someArgs (first : Tree (.expr 0)) (others : Tree .moreArgs) : Tree .args
  | lastArg : Tree .moreArgs
  | nextArg (comma : Token [.comma]) (arg : Tree (.expr 0)) (others : Tree .moreArgs) :
      Tree .moreArgs

namespace Tree

/-- The lexemes of a tree, from left to right. -/
@[simp] def yield : {n : Nonterminal} → Tree n → List Lexeme
  | _, program items => items.yield
  | _, noItems => []
  | _, statementItem statement items => statement.yield ++ items.yield
  | _, semicolonItem semicolon items => semicolon.1 :: items.yield
  | _, letStatement letWord name becomes expr =>
    letWord.1 :: name.1 :: becomes.1 :: expr.yield
  | _, funcStatement funcWord name params becomes body =>
    funcWord.1 :: name.1 :: (params.yield ++ becomes.1 :: body.yield)
  | _, assignStatement name becomes expr => name.1 :: becomes.1 :: expr.yield
  | _, printStatement printWord expr => printWord.1 :: expr.yield
  | _, whileStatement whileWord test body => whileWord.1 :: (test.yield ++ body.yield)
  | _, noParams => []
  | _, param name params => name.1 :: params.yield
  | _, block openBrace items closeBrace => openBrace.1 :: (items.yield ++ [closeBrace.1])
  | _, next _ expr => expr.yield
  | _, ternary test question consequent colon alternate =>
    test.yield ++ question.1 :: (consequent.yield ++ colon.1 :: alternate.yield)
  | _, binary left op right => left.yield ++ op.1 :: right.yield
  | _, unary op operand => op.1 :: operand.yield
  | _, subscript base openBracket index closeBracket =>
    base.yield ++ openBracket.1 :: (index.yield ++ [closeBracket.1])
  | _, numeral number => [number.1]
  | _, trueLiteral word => [word.1]
  | _, falseLiteral word => [word.1]
  | _, identifier name => [name.1]
  | _, call callee openParen args closeParen =>
    callee.1 :: openParen.1 :: (args.yield ++ [closeParen.1])
  | _, array openBracket elements closeBracket =>
    openBracket.1 :: (elements.yield ++ [closeBracket.1])
  | _, group openParen inner closeParen => openParen.1 :: (inner.yield ++ [closeParen.1])
  | _, noArgs => []
  | _, someArgs first others => first.yield ++ others.yield
  | _, lastArg => []
  | _, nextArg comma arg others => comma.1 :: (arg.yield ++ others.yield)

end Tree

/-- What the trees of a nonterminal are read as. -/
abbrev Nonterminal.Reading : Nonterminal → Type
  | program => Node
  | items => List Node
  | statement => Node
  | params => List Text
  | block => Node
  | expr _ => Node
  | args => List Node
  | moreArgs => List Node

/-- The node that a tree stands for. Parentheses, separators and the levels leave no trace. -/
@[simp] def Tree.read : {n : Nonterminal} → Tree n → n.Reading
  | _, program items => Node.program (.block items.read)
  | _, noItems => ([] : List Node)
  | _, statementItem statement items => List.cons statement.read items.read
  | _, semicolonItem _ items => items.read
  | _, letStatement _ name _ expr => Node.variableDeclaration (.str name.word) expr.read
  | _, funcStatement _ name params _ body =>
    Node.functionDeclaration (.str name.word) (List.map .str params.read) body.read
  | _, assignStatement name _ expr => Node.assignment (.str name.word) expr.read
  | _, printStatement _ expr => Node.printStatement expr.read
  | _, whileStatement _ test body => Node.whileStatement test.read body.read
  | _, noParams => ([] : List Text)
  | _, param name params => List.cons name.word params.read
  | _, block _ items _ => Node.block items.read
  | _, next _ expr => expr.read
  | _, ternary test _ consequent _ alternate =>
    Node.conditional test.read consequent.read alternate.read
  | _, binary left op right => Node.binary (.str op.word) left.read right.read
  | _, unary op operand => Node.unary (.str op.word) operand.read
  | _, subscript base _ index _ => Node.subscript base.read index.read
  | _, numeral number => Node.numeral ((Number.ofText? number.1.text).getD 0)
  | _, trueLiteral _ => Node.booleanLiteral true
  | _, falseLiteral _ => Node.booleanLiteral false
  | _, identifier name => Node.identifier (.str name.word)
  | _, call callee _ args _ => Node.call (.str callee.word) args.read
  | _, array _ elements _ => Node.arrayLiteral elements.read
  | _, group _ inner _ => inner.read
  | _, noArgs => ([] : List Node)
  | _, someArgs first others => List.cons first.read others.read
  | _, lastArg => ([] : List Node)
  | _, nextArg _ arg others => List.cons arg.read others.read

end BellaLang.Source
