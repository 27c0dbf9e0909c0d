-- Parsing accepts exactly the grammar. The reader and the places between lexemes
-- move together, so a text is read to its end exactly when its lexemes are those
-- of a tree; the tree is the only one, and the program is what it is read as.
import BellaLang.Proofs.Lexing

namespace BellaLang.Source

/-! ## Places of the reader -/

/-- The place at which the reader stands. -/
def Mode.place : Mode → Place
  | .statement => .statement
  | .variableName => .variableName
  | .variableBecomes _ => .becomes
  | .functionName => .functionName
  | .parameters _ _ => .parameter
  | .assignmentBecomes _ => .becomes
  | .operand _ (.call _ [] :: _) => .argument
  | .operand _ (.array [] :: _) => .element
  | .operand _ _ => .operand
  | .named _ _ _ => .named
  | .operator _ _ _ => .operator

/-- The reader stands at a place; before the first lexeme it has a place of its own. -/
inductive StandsAt : Place → Reader → Prop
  | start : StandsAt .start .start
  | mode (r : Reader) : StandsAt r.mode.place r

section places

variable {outer : List (Node × List Node)} {done : List Node} {r r' : Reader} {l : Lexeme}

/-- After a step between statements. -/
theorem place_stepStatement (h : r.stepStatement l = some r') :
    r'.mode.place = Place.afterItem l.terminal ∧
      (l.terminal ∈ Place.items ∨ l.terminal = .closeBrace ∧ r.outer ≠ []) := by
  unfold Reader.stepStatement at h
  split at h
  case h_7 ht =>
    split at h
    · cases h
    · rename_i houter
      cases h
      exact ⟨by rw [ht]; rfl, Or.inr ⟨ht, by simp [houter]⟩⟩
  case h_8 => cases h
  all_goals
    rename_i ht
    cases h
    exact ⟨by rw [ht]; rfl, by simp [ht, Place.items]⟩

/-- After a step where an operand is due. -/
theorem place_stepOperand {head : Head} {pending : List Pending} {mode : Mode}
    (h : Reader.stepOperand head pending l = some mode) :
    mode.place = Place.afterOperand l.terminal ∧
      l.terminal ∈ (Mode.operand head pending).place.terminals := by
  have hoperands : ∀ t ∈ Place.operands, t ∈ (Mode.operand head pending).place.terminals := by
    intro t ht
    unfold Mode.place
    split <;> simp_all [Place.terminals]
  unfold Reader.stepOperand at h
  split at h
  · rename_i op hop
    cases h
    cases ht : l.terminal <;> rw [ht] at hop <;> simp [Terminal.unary?] at hop
    all_goals exact ⟨rfl, hoperands _ (by decide)⟩
  · split at h
    -- The brackets that close an empty list stand only where one was opened.
    case h_7 ht =>
      cases h
      rw [ht]
      exact ⟨rfl, by simp [Mode.place, Place.terminals]⟩
    case h_8 ht =>
      cases h
      rw [ht]
      exact ⟨rfl, by simp [Mode.place, Place.terminals]⟩
    case h_9 => cases h
    all_goals
      rename_i ht
      cases h
      rw [ht]
      exact ⟨rfl, hoperands _ (by decide)⟩

/-- After a step that follows an operand. -/
theorem place_stepOperator {head : Head} {pending : List Pending} {expr : Node}
    (h : r.stepOperator head pending expr l = some r') :
    r'.mode.place = Place.after .operator l.terminal ∧
      l.terminal ∈ Place.terminals .operator := by
  unfold Reader.stepOperator at h
  split at h
  · rename_i op hop
    cases h
    cases ht : l.terminal <;> rw [ht] at hop <;> simp [Terminal.binary?] at hop
    all_goals exact ⟨rfl, by decide⟩
  · split at h
    case h_8 =>
      split at h
      · obtain ⟨statement, _, hstep⟩ := Option.bind_eq_some_iff.1 h
        obtain ⟨hplace, hmem⟩ := place_stepStatement hstep
        have hitem : ∀ t, t ∈ Place.items ∨ t = .closeBrace →
            Place.after .operator t = Place.afterItem t ∧ t ∈ Place.terminals .operator := by
          intro t ht
          cases t <;> simp [Place.items] at ht <;> exact ⟨rfl, by decide⟩
        obtain ⟨hafter, hterminal⟩ := hitem l.terminal (hmem.imp id And.left)
        exact ⟨by rw [hplace, hafter], hterminal⟩
      · cases h
    -- A bracket and a question mark need no more; every other sign needs what waits for it.
    case h_1 ht | h_2 ht =>
      cases h
      rw [ht]
      exact ⟨rfl, by decide⟩
    all_goals
      rename_i ht
      rw [ht]
      split at h <;> cases h <;> exact ⟨rfl, by decide⟩

/-- The places move with the reader: a lexeme that it takes is acceptable, and leads to the
place where it then stands. -/
theorem place_step {place : Place} (hp : StandsAt place r) (h : r.step l = some r') :
    l.terminal ∈ place.terminals ∧ StandsAt (place.after l.terminal) r' := by
  cases hp with
  | start =>
    obtain ⟨hplace, hmem⟩ := place_stepStatement h
    refine ⟨?_, ?_⟩
    · rcases hmem with hmem | ⟨_, houter⟩
      · exact hmem
      · exact absurd rfl houter
    · have hstands := StandsAt.mode r'
      rwa [hplace] at hstands
  | mode =>
    suffices hplace : l.terminal ∈ r.mode.place.terminals ∧
        r'.mode.place = r.mode.place.after l.terminal by
      rw [← hplace.2]
      exact ⟨hplace.1, .mode r'⟩
    unfold Reader.step at h
    split at h
    case h_1 hmode =>
      obtain ⟨hplace, hmem⟩ := place_stepStatement h
      rw [hmode]
      refine ⟨?_, hplace⟩
      rcases hmem with hmem | ⟨hmem, _⟩
      · exact List.mem_cons_of_mem _ hmem
      · rw [hmem]
        exact List.mem_cons_self
    case h_7 head pending hmode =>
      obtain ⟨mode, hstep, hr'⟩ := Option.bind_eq_some_iff.1 h
      cases hr'
      obtain ⟨hplace, hmem⟩ := place_stepOperand hstep
      rw [hmode]
      refine ⟨hmem, ?_⟩
      rw [hplace]
      unfold Mode.place
      split <;> simp_all [Place.after]
    case h_8 head pending name hmode =>
      rw [hmode]
      split at h
      · rename_i ht
        cases h
        rw [ht]
        exact ⟨by simp [Mode.place, Place.terminals], rfl⟩
      · obtain ⟨hplace, hmem⟩ := place_stepOperator h
        exact ⟨List.mem_cons_of_mem _ hmem, hplace⟩
    case h_9 head pending expr hmode =>
      obtain ⟨hplace, hmem⟩ := place_stepOperator h
      rw [hmode]
      exact ⟨hmem, hplace⟩
    -- In a declaration or an assignment one or two terminals may come next.
    all_goals
      rename_i hmode
      rw [hmode]
      split at h <;> cases h
    all_goals
      rename_i ht
      rw [ht]
      exact ⟨by simp [Mode.place, Place.terminals], rfl⟩

end places

/-! ## Lexemes that the reader looks for -/

/-- A context looks for what is acceptable at a place, for no other keyword, and for no other
sign of two characters. -/
structure Fits (place : Place) (context : Context) : Prop where
  accepts : ∀ t, place.accepts t = true → context.accepts t = true
  keyword : ∀ k ∈ Terminal.keywords, context.accepts k.2 = true → place.accepts k.2 = true
  sign : ∀ s ∈ Terminal.symbols, context.accepts s.2 = true → place.accepts s.2 = true ∨
    s.1.length = 1

/-- The context in which a lexeme at a place is looked for. -/
def Place.context : Place → Context
  | start | statement => .statement
  | variableName | functionName => .name
  | becomes => .becomes
  | parameter => .parameter
  | operand | argument | element => .operand
  | operator | named => .operator

theorem fits (place : Place) : Fits place place.context := by
  cases place <;> exact ⟨by intro t; cases t <;> decide, by decide, by decide⟩

theorem context_eq {place : Place} {r : Reader} (h : StandsAt place r) :
    r.context = place.context := by
  cases h with
  | start => rfl
  | mode =>
    obtain ⟨outer, done, mode⟩ := r
    cases mode with
    | operand head pending =>
      have hplace : (Mode.operand head pending).place.context = .operand := by
        unfold Mode.place
        split <;> simp_all [Place.context]
      exact hplace.symm
    | _ => rfl

section taken

variable {place : Place} {context : Context} {l : Lexeme} {rest : List Char}

theorem Taken.inContext (hf : Fits place context) (h : Taken place.accepts l rest) :
    Taken context.accepts l rest := by
  cases h with
  | keyword hw hend hk ha => exact .keyword hw hend hk (hf.accepts _ ha)
  | name hw hend hk ha =>
    refine .name hw hend ?_ (hf.accepts _ ha)
    intro k hmem heq
    rw [Bool.eq_false_iff]
    intro hacc
    have hno := hk k hmem heq
    rw [hf.keyword k hmem hacc] at hno
    cases hno
  | number hs hlong ha => exact .number hs hlong (hf.accepts _ ha)
  | @symbol sign rest t hs hlong hc ha =>
    refine .symbol hs ?_ hc (hf.accepts _ ha)
    intro s hmem hacc hprefix
    rcases hf.sign s hmem hacc with hplace | hone
    · exact hlong s hmem hplace hprefix
    · have hpos := List.length_pos_iff.2 (symbols_nonempty _ hs)
      simp only at hpos
      omega

theorem Taken.atPlace (hf : Fits place context) (hl : place.accepts l.terminal = true)
    (h : Taken context.accepts l rest) : Taken place.accepts l rest := by
  cases h with
  | keyword hw hend hk _ => exact .keyword hw hend hk hl
  | name hw hend hk _ =>
    refine .name hw hend ?_ hl
    intro k hmem heq
    rw [Bool.eq_false_iff]
    intro hacc
    have hno := hk k hmem heq
    rw [hf.accepts _ hacc] at hno
    cases hno
  | number hs hlong _ => exact .number hs hlong hl
  | symbol hs hlong hc _ =>
    exact .symbol hs (fun s hmem hacc => hlong s hmem (hf.accepts _ hacc)) hc hl

theorem spelt_of_taken {accepts : Terminal → Bool} (h : Taken accepts l rest) : l.Spelt := by
  cases h with
  | keyword _ _ hk _ => exact spelt_of_mem (List.mem_append_left _ hk)
  | name hw _ _ _ => exact hw
  | number hs _ _ => exact ⟨_, hs⟩
  | symbol hs _ _ _ => exact spelt_of_mem (List.mem_append_right _ hs)

theorem spelt_of_lexes {cs : List Char} {ls : List Lexeme} (h : Lexes place cs ls) :
    ∀ l ∈ ls, l.Spelt := by
  induction h with
  | done => simp
  | layout _ _ ih => exact ih
  | comment _ _ _ ih => exact ih
  | lexeme ht _ ih => exact List.forall_mem_cons.2 ⟨spelt_of_taken ht, ih⟩

end taken

/-! ## Reading a text -/

section texts

variable {place : Place} {r : Reader} {last : Nat} {cs rest : List Char} {l : Lexeme}
  {program : Node}

theorem lexeme?_inContext (hp : StandsAt place r)
    (h : lexeme? place.accepts (skipLayout false cs) = some (l, rest)) :
    lexeme? r.context.accepts (skipLayout false cs) = some (l, rest) := by
  obtain ⟨hcs, ht⟩ := taken_of_lexeme? (skipLayout_solid cs) h
  rw [hcs, context_eq hp]
  exact lexeme?_of_taken (ht.inContext (fits place))

theorem lexeme?_atPlace (hp : StandsAt place r) (hl : l.terminal ∈ place.terminals)
    (h : lexeme? r.context.accepts (skipLayout false cs) = some (l, rest)) :
    lexeme? place.accepts (skipLayout false cs) = some (l, rest) := by
  obtain ⟨hcs, ht⟩ := taken_of_lexeme? (skipLayout_solid cs) h
  rw [context_eq hp] at ht
  rw [hcs]
  exact lexeme?_of_taken (ht.atPlace (fits place) (by simpa [Place.accepts] using hl))

/-- What is read to its end has lexemes that the reader takes. -/
theorem lexes_of_readFrom (hp : StandsAt place r) (h : readFrom r last cs = .ok program) :
    ∃ ls r', Lexes place cs ls ∧ r.run ls = some r' ∧ r'.finish? = some program := by
  fun_induction readFrom r last cs generalizing place with
  | case1 r last cs hlayout program' hfinish =>
    cases h
    exact ⟨[], r, lexes_nil_iff.2 hlayout, rfl, hfinish⟩
  | case3 r last cs c tail hlayout _ lexeme rest hl _ next hstep =>
    rename_i ih
    obtain ⟨hmem, hnext⟩ := place_step hp hstep
    obtain ⟨ls, r', hlexes, hrun, hfinish⟩ := ih hnext h
    rw [← hlayout] at hl
    exact ⟨lexeme :: ls, r', lexes_cons_iff.2 ⟨rest, lexeme?_atPlace hp hmem hl, hlexes⟩,
      by rw [run_cons_of hstep, hrun], hfinish⟩
  | _ => cases h

theorem readFrom_nil (hcs : skipLayout false cs = []) (hf : r.finish? = some program) :
    readFrom r last cs = .ok program := by
  unfold readFrom
  split
  · rw [hf]
  · rename_i hlayout
    rw [hcs] at hlayout
    cases hlayout

theorem readFrom_cons {next : Reader}
    (hl : lexeme? r.context.accepts (skipLayout false cs) = some (l, rest))
    (hstep : r.step l = some next) : ∃ place, readFrom r last cs = readFrom next place rest := by
  rw [readFrom]
  split
  · rename_i hlayout
    rw [hlayout] at hl
    cases hl
  · rename_i c tail hlayout
    rw [hlayout] at hl
    refine ⟨tail.length + 1, ?_⟩
    simp only
    split
    · rename_i found
      cases hl.symm.trans found
      rw [hstep]
    · rename_i found
      cases hl.symm.trans found

/-- A text is read along its lexemes. -/
theorem readFrom_of_lexes {ls : List Lexeme} {r' : Reader} (hp : StandsAt place r)
    (hlexes : Lexes place cs ls) (hrun : r.run ls = some r') (hf : r'.finish? = some program) :
    readFrom r last cs = .ok program := by
  induction ls generalizing place r last cs with
  | nil =>
    cases hrun
    exact readFrom_nil (lexes_nil_iff.1 hlexes) hf
  | cons l ls ih =>
    obtain ⟨rest, hl, hrest⟩ := lexes_cons_iff.1 hlexes
    obtain ⟨next, hstep, hrun'⟩ := Option.bind_eq_some_iff.1 hrun
    obtain ⟨at', heq⟩ := readFrom_cons (lexeme?_inContext hp hl) hstep
    rw [heq]
    exact ih (place_step hp hstep).2 hrest hrun'

end texts

theorem parse_eq_ok_iff {text : Text} {program : Node} :
    parse text = .ok program ↔ read text.chars = .ok program := by
  unfold parse
  rcases read text.chars with e | node
  · simp
  · simp

/-- The program of a text is read off the tree of its lexemes. -/
theorem parse_iff {text : Text} {program : Node} :
    parse text = .ok program ↔
      ∃ ls, Lexes .start text.chars ls ∧ Derives .program ls program := by
  rw [parse_eq_ok_iff]
  constructor
  · intro h
    obtain ⟨ls, r, hlexes, hrun, hfinish⟩ := lexes_of_readFrom .start h
    exact ⟨ls, hlexes, (accepts_iff (spelt_of_lexes hlexes)).1 ⟨r, hrun, hfinish⟩⟩
  · rintro ⟨ls, hlexes, hderives⟩
    obtain ⟨r, hrun, hfinish⟩ := (accepts_iff (spelt_of_lexes hlexes)).2 hderives
    exact readFrom_of_lexes .start hlexes hrun hfinish

/-- A text is a program exactly when it has lexemes, each acceptable after the one before it,
and these are the lexemes of a tree of the grammar. They are the only lexemes of the text, the
tree is the only one that has them, and the program is what the tree is read as. Every other
text is refused with a syntax error. -/
theorem parsing_accepts_exactly_the_grammar (text : Text) :
    (∀ program, parse text = .ok program ↔ ∃ (ls : List Lexeme) (tree : Tree .program),
      (∀ ls', Lexes .start text.chars ls' ↔ ls' = ls) ∧
      (∀ tree' : Tree .program, tree'.yield = ls ↔ tree' = tree) ∧ tree.read = program) ∧
    ((∃ e, parse text = .error e) ↔
      ¬ ∃ tree : Tree .program, Lexes .start text.chars tree.yield) := by
  constructor
  · intro program
    rw [parse_iff]
    constructor
    · rintro ⟨ls, hlexes, tree, rfl, hread⟩
      refine ⟨tree.yield, tree, ?_, ?_, hread⟩
      · exact fun ls' => ⟨fun h => lexes_unique h hlexes, fun h => h ▸ hlexes⟩
      · exact fun tree' => ⟨Tree.yield_injective, fun h => h ▸ rfl⟩
    · rintro ⟨ls, tree, hls, htree, hread⟩
      exact ⟨ls, (hls ls).2 rfl, tree, (htree tree).2 rfl, hread⟩
  · constructor
    · rintro ⟨e, herror⟩ ⟨tree, hlexes⟩
      have hok := parse_iff.2 ⟨tree.yield, hlexes, tree, rfl, rfl⟩
      rw [herror] at hok
      cases hok
    · intro hnone
      rcases hparse : parse text with e | program
      · exact ⟨e, rfl⟩
      · obtain ⟨ls, hlexes, tree, rfl, _⟩ := parse_iff.1 hparse
        exact absurd ⟨tree, hlexes⟩ hnone

end BellaLang.Source
