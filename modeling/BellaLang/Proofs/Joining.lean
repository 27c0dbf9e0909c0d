-- Sources one after the other are one source. A newline between two programs ends
-- whatever the first one ends with, and no program starts with a lexeme that goes
-- on with a complete statement; so executing programs in turn, in one store, is
-- running the program of their joined texts.
import BellaLang.Proofs.Refusals
import BellaLang.Proofs.Unrolling
import BellaLang.Proofs.Wording

namespace BellaLang

namespace Source

/-! ## Lexemes across a newline -/

/-- The place after some lexemes. -/
def Place.afterAll (place : Place) (ls : List Lexeme) : Place :=
  ls.foldl (fun place l => place.after l.terminal) place

section lexemes

variable {place : Place} {cs cs' : List Char} {ls ls' : List Lexeme} {l : Lexeme}
  {rest : List Char} {r r' : Reader} {program : Node}

/-- A newline ends a word, a number, a sign and a comment, so the lexemes before it are what they
were. -/
theorem Lexes.append (h : Lexes place cs ls) (h' : Lexes (place.afterAll ls) cs' ls') :
    Lexes place (cs ++ '\n' :: cs') (ls ++ ls') := by
  induction h with
  | done => exact .layout rfl h'
  | layout hc _ ih => exact .layout hc (ih h')
  | @comment place body cs ls hb hend _ ih =>
    have hend' : ∀ c ∈ (cs ++ '\n' :: cs').head?, c = '\n' := by
      intro c hc
      rcases cs with _ | ⟨d, cs⟩
      · simpa using hc.symm
      · exact hend c hc
    simpa using Lexes.comment hb hend' (ih h')
  | @lexeme place l rest ls ht _ ih =>
    have htaken : Taken place.accepts l (rest ++ '\n' :: cs') := by
      rw [← List.append_nil rest] at ht
      exact ht.cut rfl cs'
    simpa using Lexes.lexeme htaken (ih h')

theorem Taken.accepts {accepts : Terminal → Bool} (h : Taken accepts l rest) :
    accepts l.terminal = true := by
  cases h with
  | keyword _ _ _ ha => exact ha
  | name _ _ _ ha => exact ha
  | number _ _ ha => exact ha
  | symbol _ _ _ ha => exact ha

/-- What an item starts with, or the end of a block, is taken alike wherever items may start. -/
theorem Taken.exchange {place' : Place} (hp : place.Free) (hp' : place'.Free)
    (h : Taken place.accepts l rest) (hl : l.terminal ∈ Place.statement.terminals)
    (hl' : place'.accepts l.terminal = true) : Taken place'.accepts l rest := by
  have hkeywords : ∀ k ∈ Terminal.keywords, place.accepts k.2 = false →
      place'.accepts k.2 = false := by
    cases hp <;> cases hp' <;> decide
  have hsigns : ∀ s ∈ Terminal.symbols, s.2 ∈ Place.statement.terminals → s.1.head? = some ';' ∨
      s.1.head? = some '\x7d' := by decide
  have hlone : ∀ s ∈ Terminal.symbols, s.1.head? = some ';' ∨ s.1.head? = some '\x7d' →
      s.1.length = 1 := by decide
  cases h with
  | keyword hw hend hk _ => exact .keyword hw hend hk hl'
  | name hw hend hk _ =>
    exact .name hw hend (fun k hmem heq => hkeywords k hmem (hk k hmem heq)) hl'
  | number _ _ _ =>
    have hnot : Terminal.number ∉ Place.statement.terminals := by decide
    exact absurd hl hnot
  | @symbol sign rest t hs _ hc _ =>
    -- The signs that may stand there are no starts of longer ones.
    have hsign := hsigns _ hs hl
    refine .symbol hs ?_ hc hl'
    intro s hmem _ hprefix
    have hone : sign.length = 1 := hlone _ hs hsign
    rcases hstart : s.1 with _ | ⟨c, tail⟩
    · exact Nat.zero_le _
    · rw [hstart] at hprefix
      rcases sign with _ | ⟨d, sign⟩
      · cases hone
      · obtain ⟨rfl, _⟩ := List.cons_prefix_cons.1 hprefix
        have hlength : (c :: tail).length = 1 := by
          rw [← hstart]
          exact hlone s hmem (by rw [hstart]; exact hsign)
        exact Nat.le_of_eq (hlength.trans hone.symm)

theorem after_item (hp : place.Free) {t : Terminal} (ht : t ∈ Place.statement.terminals) :
    place.after t = Place.afterItem t := by
  cases hp <;> cases t <;> first | rfl | exact absurd ht (by decide)

/-- The lexemes from an item on, or from the end of a block on, are the same wherever items may
start. -/
theorem Lexes.exchange {place' : Place} (hp : place.Free) (hp' : place'.Free)
    (h : Lexes place cs ls) (hfirst : ∀ l ∈ ls.head?,
      l.terminal ∈ Place.statement.terminals ∧ place'.accepts l.terminal = true) :
    Lexes place' cs ls := by
  rcases ls with _ | ⟨l, ls⟩
  · exact lexes_nil_iff.2 (lexes_nil_iff.1 h)
  · obtain ⟨rest, hl, hrest⟩ := lexes_cons_iff.1 h
    obtain ⟨hcs, ht⟩ := taken_of_lexeme? (skipLayout_solid cs) hl
    obtain ⟨hitem, haccepts⟩ := hfirst l rfl
    rw [after_item hp hitem, ← after_item hp' hitem] at hrest
    refine lexes_cons_iff.2 ⟨rest, ?_, hrest⟩
    rw [hcs]
    exact lexeme?_of_taken (ht.exchange hp hp' hitem haccepts)

theorem Lexes.accepts (h : Lexes place cs ls) :
    ∀ l ∈ ls.head?, place.accepts l.terminal = true := by
  intro l hl
  rcases ls with _ | ⟨first, ls⟩
  · cases hl
  · cases hl
    obtain ⟨rest, hlexeme, _⟩ := lexes_cons_iff.1 h
    exact (taken_of_lexeme? (skipLayout_solid cs) hlexeme).2.accepts

/-- The lexemes of a program are the same after the end of another one. -/
theorem Lexes.free (hp : place.Free) (h : Lexes .start cs ls) : Lexes place cs ls := by
  apply h.exchange .start hp
  intro l hl
  have haccepts := h.accepts l hl
  have hitems : ∀ t, Place.start.accepts t = true → t ∈ Place.statement.terminals ∧
      place.accepts t = true := by
    intro t
    cases hp <;> cases t <;> decide
  exact hitems _ haccepts

/-! ## Where a program may end -/

theorem standsAt_run (hp : StandsAt place r) (h : r.run ls = some r') :
    StandsAt (place.afterAll ls) r' := by
  induction ls generalizing place r with
  | nil =>
    cases h
    exact hp
  | cons l ls ih =>
    obtain ⟨next, hstep, hrun⟩ := Option.bind_eq_some_iff.1 h
    exact ih (place_step hp hstep).2 hrun

/-- Where the text may end, an item may start. -/
theorem free_of_finish? (hp : StandsAt place r) (h : r.finish? = some program) : place.Free := by
  cases hp with
  | start => exact .start
  | mode =>
    obtain ⟨outer, done, mode⟩ := r
    rcases outer with _ | ⟨block, outer⟩
    · cases mode with
      | statement => exact .statement
      | named head pending name => exact .named
      | operator head pending expr => exact .operator
      | _ => cases h
    · cases h

end lexemes

/-! ## Joined texts -/

section texts

variable {text text' : Text} {ls ls' : List Lexeme} {statements statements' : List Node}

theorem derives_join (h : Derives .program ls (.program (.block statements)))
    (h' : Derives .program ls' (.program (.block statements'))) :
    Derives .program (ls ++ ls') (.program (.block (statements ++ statements'))) := by
  obtain ⟨⟨items⟩, rfl, hread⟩ := h
  obtain ⟨⟨items'⟩, rfl, hread'⟩ := h'
  cases hread
  cases hread'
  exact ⟨.program (items.append items'), items.yield_append items',
    by rw [Tree.read, items.read_append items']⟩

/-- Two programs with a newline between them are one program, with the statements of both. -/
theorem parse_join (h : parse text = .ok (.program (.block statements)))
    (h' : parse text' = .ok (.program (.block statements'))) :
    parse (text ++ ("\n" : Text) ++ text') =
      .ok (.program (.block (statements ++ statements'))) := by
  obtain ⟨ls, hlexes, hderives⟩ := parse_iff.1 h
  obtain ⟨ls', hlexes', hderives'⟩ := parse_iff.1 h'
  obtain ⟨r, hrun, hfinish⟩ := (accepts_iff (spelt_of_lexes hlexes)).2 hderives
  -- Lexemes depend on their place, and the second program's first one may stand at this place.
  have hfree := free_of_finish? (standsAt_run .start hrun) hfinish
  refine parse_iff.2 ⟨ls ++ ls', ?_, derives_join hderives hderives'⟩
  have hnewline : Text.chars ("\n" : Text) = ['\n'] := rfl
  rw [chars_append, chars_append, hnewline, List.append_assoc]
  exact hlexes.append (hlexes'.free hfree)

theorem parse_nil : parse [] = .ok (.program (.block [])) :=
  parse_iff.2 ⟨[], .done .start, .program .noItems, rfl, rfl⟩

/-- Any number of programs with newlines between them are one program. -/
theorem parse_joinAll {texts : List Text} {blocks : List (List Node)}
    (h : List.Forall₂ (fun text statements => parse text = .ok (.program (.block statements)))
      texts blocks) :
    parse (Text.join "\n" texts) = .ok (.program (.block blocks.flatten)) := by
  induction h with
  | nil => exact parse_nil
  | @cons text statements texts blocks hfirst hrest ih =>
    cases hrest with
    | nil => simpa [Text.join, List.intercalate] using hfirst
    | @cons text' _ texts' _ _ _ =>
      have hjoin : Text.join "\n" (text :: text' :: texts') =
          text ++ ("\n" : Text) ++ Text.join "\n" (text' :: texts') := by
        simp [Text.join, List.intercalate]
      rw [hjoin, List.flatten_cons]
      exact parse_join hfirst ih

end texts

end Source

open BellaLang.Action

/-! ## Programs in turn -/

/-- Executes programs one after the other in one store, up to the first one that fails. -/
def executeInTurn (s : Settings) : List Node → Action Unit
  | [] => pure ()
  | program :: programs => do
    executeProgram s program
    executeInTurn s programs

theorem executeInTurn_blocks (s : Settings) (blocks : List (List Node)) :
    executeInTurn s (blocks.map fun statements => .program (.block statements)) =
      executeAll s blocks.flatten := by
  induction blocks with
  | nil => rw [List.map_nil, executeInTurn, List.flatten_nil, executeAll]
  | cons statements blocks ih =>
    rw [List.map_cons, executeInTurn, ih, List.flatten_cons, executeAll_append, executeProgram,
      executeBlock]

section blind

variable {s : Settings}

theorem blind_repeatWhile {test : Action Bool} {body : Action Unit} (ht : Blind test)
    (hb : Blind body) (rounds : Nat) : Blind (repeatWhile rounds test body) := by
  induction rounds with
  | zero => exact blind_of_looks (looks_stop _)
  | succ rounds ih =>
    rw [repeatWhile]
    apply blind_bind ht
    intro holds
    split
    · exact blind_bind hb fun _ => ih
    · exact blind_of_looks (looks_pure ())

theorem blind_executeAll {nodes : List Node} (h : ∀ node ∈ nodes, Blind (execute s node)) :
    Blind (executeAll s nodes) := by
  induction nodes with
  | nil =>
    rw [executeAll]
    exact blind_of_looks (looks_pure ())
  | cons node nodes ih =>
    rw [executeAll]
    exact blind_bind (h node (by simp)) fun _ => ih fun n hn => h n (by simp [hn])

/-- The notes taken before a statement make no difference to it; nor to a block, which may be the
body of a loop. -/
theorem blind_execute (s : Settings) (node : Node) :
    Blind (execute s node) ∧ Blind (executeBlock s node) := by
  induction node with
  | block statements ih =>
    simp only [execute, executeBlock]
    exact ⟨blind_of_looks (looks_stop _), blind_executeAll fun n hn => (ih n hn).1⟩
  | whileStatement test body _ ih =>
    simp only [execute, executeBlock]
    exact ⟨blind_repeatWhile (blind_of_looks (looks_loopTest s test)) ih.2 s.rounds,
      blind_of_looks (looks_stop _)⟩
  | variableDeclaration name expr =>
    exact ⟨blind_simple s trivial, blind_of_looks (looks_stop _)⟩
  | functionDeclaration name params body =>
    exact ⟨blind_simple s trivial, blind_of_looks (looks_stop _)⟩
  | assignment name expr =>
    exact ⟨blind_simple s trivial, blind_of_looks (looks_stop _)⟩
  | printStatement expr =>
    exact ⟨blind_simple s trivial, blind_of_looks (looks_stop _)⟩
  | _ =>
    simp only [execute, executeBlock]
    exact ⟨blind_of_looks (looks_stop _), blind_of_looks (looks_stop _)⟩

end blind

/-- A run does what its statements do from the start, between two notes. -/
theorem alike_executeAll (s : Settings) (statements : List Node) :
    Alike (run s (.program (.block statements))) (executeAll s statements .start) := by
  obtain ⟨m, hm, hresult, hrun⟩ := run_of_executeAll s statements
  obtain ⟨hfst, hsnd⟩ := blind_executeAll (fun n _ => (blind_execute s n).1) m .start hm
  have hagrees := hrun.trans hsnd
  exact ⟨hresult.trans hfst, by rw [hagrees.store], by rw [hagrees.store], hagrees.printed⟩

theorem block_of_parse {text : Text} {program : Node} (h : Source.parse text = .ok program) :
    ∃ statements, program = .program (.block statements) := by
  obtain ⟨_⟩ := Source.parse_isProgram h
  exact ⟨_, rfl⟩

/-- The programs of some texts are blocks of statements. -/
theorem blocks_of_parse {texts : List Text} {programs : List Node}
    (h : List.Forall₂ (fun text program => Source.parse text = .ok program) texts programs) :
    ∃ blocks : List (List Node),
      programs = blocks.map (fun statements => .program (.block statements)) ∧
      List.Forall₂ (fun text statements =>
        Source.parse text = .ok (.program (.block statements))) texts blocks := by
  induction h with
  | nil => exact ⟨[], rfl, .nil⟩
  | cons hfirst _ ih =>
    obtain ⟨statements, rfl⟩ := block_of_parse hfirst
    obtain ⟨blocks, rfl, hblocks⟩ := ih
    exact ⟨statements :: blocks, rfl, .cons hfirst hblocks⟩

/-- Two programs with a newline between their texts are a program whose statements are those of the
first and then those of the second. So any programs, executed in turn from one empty store up to
the first that fails, end as the program of their texts joined by newlines does, print the same
lines and leave the same bindings in the same order. -/
theorem programs_in_turn_run_as_one :
    (∀ text text' program program', Source.parse text = .ok program →
      Source.parse text' = .ok program' →
      ∃ statements statements', program = .program (.block statements) ∧
        program' = .program (.block statements') ∧
        Source.parse (text ++ ("\n" : Text) ++ text') =
          .ok (.program (.block (statements ++ statements')))) ∧
    ∀ texts programs,
      List.Forall₂ (fun text program => Source.parse text = .ok program) texts programs →
      ∃ program, Source.parse (Text.join "\n" texts) = .ok program ∧
        ∀ s : Settings, Alike (run s program) (executeInTurn s programs .start) := by
  constructor
  · intro text text' program program' h h'
    obtain ⟨statements, rfl⟩ := block_of_parse h
    obtain ⟨statements', rfl⟩ := block_of_parse h'
    exact ⟨statements, statements', rfl, rfl, Source.parse_join h h'⟩
  · intro texts programs h
    obtain ⟨blocks, rfl, hblocks⟩ := blocks_of_parse h
    refine ⟨_, Source.parse_joinAll hblocks, fun s => ?_⟩
    rw [executeInTurn_blocks]
    exact alike_executeAll s blocks.flatten

/-- The first text ends in a comment, and the last one fails at its first statement. -/
theorem programs_in_turn_run_as_one_up_to_a_failure :
    ∃ program,
      Source.parse (Text.join "\n" ["let x = 2 // two", "print x; x = x", "x = y; print x"]) =
        .ok program ∧
      (run {} program).1 = .error (.fault (.undeclared (.str "y"))) ∧
      (run {} program).2.printed = [("2" : Text)] := by
  have hparse : List.Forall₂ (fun text program => Source.parse text = .ok program)
      ["let x = 2 // two", "print x; x = x", "x = y; print x"]
      [.program (.block [.variableDeclaration (.str "x") (.numeral 2.0)]),
        .program (.block [.printStatement (.identifier (.str "x")),
          .assignment (.str "x") (.identifier (.str "x"))]),
        .program (.block [.assignment (.str "x") (.identifier (.str "y")),
          .printStatement (.identifier (.str "x"))])] :=
    .cons (by with_unfolding_all rfl) (.cons (by with_unfolding_all rfl)
      (.cons (by with_unfolding_all rfl) .nil))
  obtain ⟨program, hjoined, hrun⟩ := programs_in_turn_run_as_one.2 _ _ hparse
  refine ⟨program, hjoined, ?_, ?_⟩
  · rw [(hrun {}).result]
    rfl
  · rw [(hrun {}).printed]
    decide +kernel

end BellaLang
