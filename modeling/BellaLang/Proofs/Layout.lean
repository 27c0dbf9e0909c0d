-- Layout means nothing. Blanks and comments may be put before and behind any lexeme, a
-- separator may become a blank, and separators may be put before and behind any
-- statement: the text is read as the same program.
import BellaLang.Proofs.Joining

namespace BellaLang.Source

/-! ## Lexemes in a text -/

/-- Read from a place, with the rest behind it, a text has some lexemes, and they lead to another
place. -/
inductive Reads (rest : List Char) : Place → List Char → List Lexeme → Place → Prop
  | nil (place : Place) : Reads rest place [] [] place
  | layout {place place' : Place} {c : Char} {u : List Char} {ls : List Lexeme}
      (hc : isLayout c = true) (h : Reads rest place u ls place') :
      Reads rest place (c :: u) ls place'
  | comment {place place' : Place} {body u : List Char} {ls : List Lexeme} (hb : '\n' ∉ body)
      (hend : u.head? = some '\n') (h : Reads rest place u ls place') :
      Reads rest place ('/' :: '/' :: (body ++ u)) ls place'
  | lexeme {place place' : Place} {l : Lexeme} {u : List Char} {ls : List Lexeme}
      (ht : Taken place.accepts l (u ++ rest))
      (h : Reads rest (place.after l.terminal) u ls place') :
      Reads rest place (l.text ++ u) (l :: ls) place'

/-- After some other lexemes, a lexeme stands between two parts of a text. -/
def LexemeAt (before : List Lexeme) (u : List Char) (l : Lexeme) (v : List Char) : Prop :=
  ∃ place, Reads (l.text ++ v) .start u before place ∧ Taken place.accepts l v

/-- After some lexemes, another one starts where the second part of a text does. -/
def StartsAt (ls : List Lexeme) (u v : List Char) : Prop :=
  ∃ l rest, v = l.text ++ rest ∧ LexemeAt ls u l rest

/-- The last of some lexemes ends where the first part of a text does. -/
def EndsAt (ls : List Lexeme) (u v : List Char) : Prop :=
  ∃ before l u', ls = before ++ [l] ∧ u = u' ++ l.text ∧ LexemeAt before u' l v

/-- Where layout may be put: at the ends of a text, and where a lexeme starts or ends. -/
inductive Boundary (u v : List Char) : Prop
  | first (h : u = [])
  | last (h : v = [])
  | start {ls : List Lexeme} (h : StartsAt ls u v)
  | ending {ls : List Lexeme} (h : EndsAt ls u v)

section reads

variable {place place' : Place} {u v rest cs cs' : List Char} {ls ls' all : List Lexeme}
  {l : Lexeme}

theorem lexes_iff_of_skipLayout (h : skipLayout false cs = skipLayout false cs') :
    Lexes place cs ls ↔ Lexes place cs' ls :=
  ⟨lexes_congr h, lexes_congr h.symm⟩

theorem lexes_taken_iff (ht : Taken place.accepts l rest) :
    Lexes place (l.text ++ rest) all ↔
      ∃ ls, all = l :: ls ∧ Lexes (place.after l.terminal) rest ls := by
  constructor
  · intro h
    rcases skipLayout_lexes h with ⟨hcs, _⟩ | ⟨l', rest', ls, hcs, rfl, ht', hrest⟩
    · obtain ⟨c, tail, heq, _⟩ := ht.solid
      rw [skipLayout_taken ht, heq] at hcs
      cases hcs
    · have hlexeme := lexeme?_of_taken ht
      rw [← skipLayout_taken ht, hcs, lexeme?_of_taken ht'] at hlexeme
      cases hlexeme
      exact ⟨ls, rfl, hrest⟩
  · rintro ⟨ls, rfl, hrest⟩
    exact .lexeme ht hrest

/-- The lexemes of a text are those of its first part and then those of the rest. -/
theorem Reads.lexes_iff (h : Reads rest place u ls place') :
    Lexes place (u ++ rest) all ↔ ∃ ls', all = ls ++ ls' ∧ Lexes place' rest ls' := by
  induction h generalizing all with
  | nil => simp
  | layout hc _ ih =>
    rw [List.cons_append, lexes_iff_of_skipLayout (skipLayout_layout hc _)]
    exact ih
  | @comment place place' body u ls hb hend _ ih =>
    have hnewline : ∀ c ∈ (u ++ rest).head?, c = '\n' := by
      obtain ⟨tail, rfl⟩ := List.head?_eq_some_iff.1 hend
      intro c hc
      simpa using hc.symm
    rw [List.cons_append, List.cons_append, List.append_assoc,
      lexes_iff_of_skipLayout (skipLayout_body hb hnewline)]
    exact ih
  | lexeme ht _ ih =>
    rw [List.append_assoc, lexes_taken_iff ht]
    constructor
    · rintro ⟨others, rfl, hothers⟩
      obtain ⟨ls', rfl, hls'⟩ := ih.1 hothers
      exact ⟨ls', rfl, hls'⟩
    · rintro ⟨ls', rfl, hls'⟩
      exact ⟨_, rfl, ih.2 ⟨ls', rfl, hls'⟩⟩

/-- Layout ends every lexeme, so with layout behind it a text has the lexemes that it has. -/
theorem Reads.cut (h : Reads rest place u ls place') {b : Char} (hb : isLayout b = true)
    (any : List Char) : Reads (b :: any) place u ls place' := by
  induction h with
  | nil => exact .nil _
  | layout hc _ ih => exact .layout hc ih
  | comment hbody hend _ ih => exact .comment hbody hend ih
  | lexeme ht _ ih => exact .lexeme (ht.cut hb any) ih

theorem Reads.snoc (h : Reads (l.text ++ v) place u ls place') (ht : Taken place'.accepts l v) :
    Reads v place (u ++ l.text) (ls ++ [l]) (place'.after l.terminal) := by
  induction h with
  | nil =>
    rw [List.nil_append, ← List.append_nil l.text]
    exact .lexeme ht (.nil _)
  | layout hc _ ih => exact .layout hc (ih ht)
  | @comment place place' body u ls hb hend _ ih =>
    have hcomment := Reads.comment hb (u := u ++ l.text) ?_ (ih ht)
    · simpa using hcomment
    · obtain ⟨tail, rfl⟩ := List.head?_eq_some_iff.1 hend
      rfl
  | lexeme ht' _ ih =>
    rw [List.append_assoc, List.cons_append]
    exact .lexeme (by rwa [List.append_assoc]) (ih ht)

theorem Reads.place_eq (h : Reads rest place u ls place') : place' = place.afterAll ls := by
  induction h with
  | nil => rfl
  | layout _ _ ih => exact ih
  | comment _ _ _ ih => exact ih
  | lexeme _ _ ih => exact ih

theorem StartsAt.reads (h : StartsAt ls u v) : Reads v .start u ls (Place.start.afterAll ls) := by
  obtain ⟨l, rest, rfl, place, hreads, _⟩ := h
  rwa [← hreads.place_eq]

theorem EndsAt.reads (h : EndsAt ls u v) : Reads v .start u ls (Place.start.afterAll ls) := by
  obtain ⟨before, l, u', rfl, rfl, place, hreads, ht⟩ := h
  have hsnoc := hreads.snoc ht
  rwa [hsnoc.place_eq] at hsnoc

theorem exists_reads (h : Lexes place cs all) (hall : all = ls ++ l :: ls') :
    ∃ u v place', cs = u ++ (l.text ++ v) ∧ Reads (l.text ++ v) place u ls place' ∧
      Taken place'.accepts l v := by
  induction h generalizing ls with
  | done => simp at hall
  | @layout place c cs all hc _ ih =>
    obtain ⟨u, v, place', rfl, hreads, ht⟩ := ih hall
    exact ⟨c :: u, v, place', rfl, .layout hc hreads, ht⟩
  | @comment place body cs all hb hend _ ih =>
    obtain ⟨u, v, place', rfl, hreads, ht⟩ := ih hall
    refine ⟨'/' :: '/' :: (body ++ u), v, place', by simp, .comment hb ?_ hreads, ht⟩
    -- The newline that ends the comment is layout, and no lexeme starts with layout.
    rcases u with _ | ⟨c, u⟩
    · obtain ⟨c, tail, heq, hc, _⟩ := ht.solid
      rw [List.nil_append, heq] at hend
      rw [hend c rfl] at hc
      cases hc
    · rw [List.head?_cons, hend c rfl]
  | @lexeme place first rest all ht h ih =>
    rcases ls with _ | ⟨first', ls⟩
    · cases hall
      exact ⟨[], rest, place, rfl, .nil place, ht⟩
    · cases hall
      obtain ⟨u, v, place', rfl, hreads, htaken⟩ := ih rfl
      exact ⟨first.text ++ u, v, place', by simp, .lexeme ht hreads, htaken⟩

/-- Every lexeme of a text stands somewhere in it. -/
theorem exists_lexemeAt (h : Lexes .start cs (ls ++ l :: ls')) :
    ∃ u v, cs = u ++ (l.text ++ v) ∧ LexemeAt ls u l v := by
  obtain ⟨u, v, place, hcs, hreads, ht⟩ := exists_reads h rfl
  exact ⟨u, v, hcs, place, hreads, ht⟩

end reads

/-! ## Gaps -/

/-- What may be put between lexemes: blanks, or blanks and a comment that a newline ends. -/
inductive Gap : List Char → Prop
  | blanks {blanks : List Char} (hne : blanks ≠ []) (h : ∀ c ∈ blanks, isLayout c = true) :
      Gap blanks
  | comment {blanks body : List Char} (hne : blanks ≠ []) (h : ∀ c ∈ blanks, isLayout c = true)
      (hb : '\n' ∉ body) : Gap (blanks ++ '/' :: '/' :: (body ++ ['\n']))

section gaps

variable {place place' : Place} {u v w blanks cs : List Char} {ls ls' : List Lexeme}

theorem skipLayout_blanks (h : ∀ c ∈ blanks, isLayout c = true) (cs : List Char) :
    skipLayout false (blanks ++ cs) = skipLayout false cs := by
  induction blanks with
  | nil => rfl
  | cons c blanks ih =>
    rw [List.cons_append, skipLayout_layout (h c (by simp)), ih fun d hd => h d (by simp [hd])]

/-- Blanks in a comment leave it open, or end it. -/
theorem skipLayout_true_blanks (h : ∀ c ∈ blanks, isLayout c = true) (cs : List Char) :
    skipLayout true (blanks ++ cs) = skipLayout true cs ∨
      skipLayout true (blanks ++ cs) = skipLayout false cs := by
  induction blanks with
  | nil => exact Or.inl rfl
  | cons c blanks ih =>
    have hblanks : ∀ d ∈ blanks, isLayout d = true := fun d hd => h d (by simp [hd])
    by_cases hc : c = '\n'
    · subst hc
      exact Or.inr (skipLayout_blanks hblanks cs)
    · have hne : (c != '\n') = true := by simpa using hc
      rw [List.cons_append, skipLayout, hne]
      exact ih hblanks

theorem Gap.skip (hw : Gap w) (v : List Char) :
    skipLayout false (w ++ v) = skipLayout false v := by
  cases hw with
  | blanks _ h => exact skipLayout_blanks h v
  | @comment blanks body _ h hb =>
    have hbody : skipLayout false ('/' :: '/' :: (body ++ '\n' :: v)) = skipLayout false v := by
      rw [skipLayout_body hb (by simp)]
      rfl
    rw [List.append_assoc, skipLayout_blanks h]
    simpa using hbody

theorem Gap.skip_comment (hw : Gap w) : skipLayout true w = [] := by
  cases hw with
  | blanks _ h =>
    have hblanks := skipLayout_true_blanks h []
    rw [List.append_nil] at hblanks
    exact hblanks.elim id id
  | @comment blanks body _ h hb =>
    have hopen : skipLayout true ('/' :: '/' :: (body ++ ['\n'])) = [] := skipLayout_open hb ['\n']
    have hclosed : skipLayout false ('/' :: '/' :: (body ++ ['\n'])) = [] :=
      skipLayout_body hb (by simp)
    rcases skipLayout_true_blanks h ('/' :: '/' :: (body ++ ['\n'])) with heq | heq
    · rw [heq, hopen]
    · rw [heq, hclosed]

theorem Gap.exists_head (hw : Gap w) : ∃ b any, w = b :: any ∧ isLayout b = true := by
  cases hw with
  | @blanks blanks hne h =>
    obtain ⟨b, any, rfl⟩ := List.exists_cons_of_ne_nil hne
    exact ⟨b, any, rfl, h b (by simp)⟩
  | @comment blanks body hne h _ =>
    obtain ⟨b, any, rfl⟩ := List.exists_cons_of_ne_nil hne
    exact ⟨b, _, rfl, h b (by simp)⟩

theorem Reads.insert_gap (h : Reads v place u ls place') (hv : Lexes place' v ls') (hw : Gap w) :
    Lexes place (u ++ (w ++ v)) (ls ++ ls') := by
  obtain ⟨b, any, rfl, hb⟩ := hw.exists_head
  exact (h.cut hb (any ++ v)).lexes_iff.2 ⟨ls', rfl, lexes_congr (hw.skip v).symm hv⟩

/-- A comment that the end of the text ends takes up as much of the gap as is on its line. -/
theorem Lexes.append_gap (h : Lexes place cs ls) (hw : Gap w) : Lexes place (cs ++ w) ls := by
  induction h with
  | done =>
    apply lexes_nil_iff.2
    have hskip := hw.skip []
    rwa [List.append_nil] at hskip
  | layout hc _ ih => exact .layout hc ih
  | @comment place body cs ls hb hend h ih =>
    rcases cs with _ | ⟨c, cs⟩
    · have hskip : skipLayout false ('/' :: '/' :: (body ++ w)) = [] :=
        (skipLayout_open hb w).trans hw.skip_comment
      have hnil := lexes_unique h (.done place)
      subst hnil
      simpa using lexes_nil_iff.2 hskip
    · have hnewline : ∀ d ∈ (c :: cs ++ w).head?, d = '\n' := hend
      simpa using Lexes.comment hb hnewline ih
  | @lexeme place l rest ls ht _ ih =>
    obtain ⟨b, any, rfl, hb⟩ := hw.exists_head
    rw [← List.append_nil rest] at ht
    rw [List.append_assoc]
    exact .lexeme (ht.cut hb any) ih

theorem lexes_with_gap (hl : Lexes .start (u ++ v) ls) (hb : Boundary u v) (hw : Gap w) :
    Lexes .start (u ++ (w ++ v)) ls := by
  cases hb with
  | first hu =>
    subst hu
    exact lexes_congr (hw.skip v).symm hl
  | last hv =>
    subst hv
    rw [List.append_nil] at hl ⊢
    exact hl.append_gap hw
  | start h =>
    obtain ⟨ls', rfl, hv⟩ := h.reads.lexes_iff.1 hl
    exact h.reads.insert_gap hv hw
  | ending h =>
    obtain ⟨ls', rfl, hv⟩ := h.reads.lexes_iff.1 hl
    exact h.reads.insert_gap hv hw

end gaps

/-! ## Separators -/

/-- The separator of statements. -/
def semicolon : Token [.semicolon] := ⟨⟨.semicolon, [';']⟩, by decide, spelt_of_mem (by decide)⟩

section separators

variable {place : Place} {r r' : Reader} {l sep : Lexeme} {ls ls' : List Lexeme} {program : Node}

/-- What no expression goes on with completes the statement, and is a step between statements. -/
theorem stepOperator_item (hl : l.terminal ∈ Place.statement.terminals) (r : Reader) (head : Head)
    (pending : List Pending) (expr : Node) :
    r.stepOperator head pending expr l =
      match close pending expr with
      | ([], whole) => (head.complete? whole).bind fun statement =>
          Reader.stepStatement ⟨r.outer, statement :: r.done, .statement⟩ l
      | _ => none := by
  have hcases : l.terminal = .closeBrace ∨ l.terminal = .ident ∨ l.terminal = .letWord ∨
      l.terminal = .funcWord ∨ l.terminal = .printWord ∨ l.terminal = .whileWord ∨
      l.terminal = .semicolon := by
    simpa [Place.terminals, Place.items] using hl
  unfold Reader.stepOperator
  rcases hcases with ht | ht | ht | ht | ht | ht | ht <;> simp only [ht, Terminal.binary?] <;> rfl

/-- A separator after a whole expression completes the statement, as the end of the text does and
what may stand between statements. -/
theorem stepOperator_semicolon (hsep : sep.terminal = .semicolon) {head : Head}
    {pending : List Pending} {expr : Node} (h : r.stepOperator head pending expr sep = some r') :
    r'.outer = r.outer ∧ r'.mode = .statement ∧
      Reader.endAfter r.done head pending expr = some r'.done ∧
      ∀ l, l.terminal ∈ Place.statement.terminals →
        r.stepOperator head pending expr l = r'.step l := by
  rw [stepOperator_item (by rw [hsep]; decide)] at h
  split at h
  · rename_i whole hclose
    obtain ⟨statement, hcomplete, hstep⟩ := Option.bind_eq_some_iff.1 h
    simp only [Reader.stepStatement, hsep, Option.some.injEq] at hstep
    subst hstep
    refine ⟨rfl, rfl, by simp [Reader.endAfter, hclose, hcomplete], ?_⟩
    intro l hl
    rw [stepOperator_item hl, hclose]
    simp only [hcomplete, Option.bind_some]
    rfl
  · cases h

/-- Whatever comes after a separator could do without it: the end of the text, or what may stand
between statements. -/
theorem step_semicolon (hsep : sep.terminal = .semicolon) (h : r.step sep = some r') :
    r.finish? = r'.finish? ∧
      ∀ l, l.terminal ∈ Place.statement.terminals → r.step l = r'.step l := by
  obtain ⟨outer, done, mode⟩ := r
  obtain ⟨outer', done', mode'⟩ := r'
  cases mode with
  | statement =>
    simp only [Reader.step, Reader.stepStatement, hsep, Option.some.injEq] at h
    rw [h]
    exact ⟨rfl, fun _ _ => rfl⟩
  | named head pending name =>
    have hname : ∀ l : Lexeme, l.terminal ≠ .openParen →
        Reader.step ⟨outer, done, .named head pending name⟩ l =
          Reader.stepOperator ⟨outer, done, .named head pending name⟩ head pending
            (.identifier (.str name)) l := by
      intro l hl
      simp only [Reader.step]
    rw [hname sep (by rw [hsep]; decide)] at h
    obtain ⟨houter, hmode, hend, hstep⟩ := stepOperator_semicolon hsep h
    simp only at houter hmode hend
    subst houter hmode
    refine ⟨by cases outer' <;> simp [Reader.finish?, hend], fun l hl => ?_⟩
    rw [hname l (by rintro heq; rw [heq] at hl; exact absurd hl (by decide)), hstep l hl]
  | operator head pending expr =>
    obtain ⟨houter, hmode, hend, hstep⟩ := stepOperator_semicolon hsep h
    simp only at houter hmode hend
    subst houter hmode
    exact ⟨by cases outer' <;> simp [Reader.finish?, hend], hstep⟩
  | operand head pending => simp [Reader.step, Reader.stepOperand, hsep, Terminal.unary?] at h
  | _ => simp [Reader.step, hsep] at h

theorem free_of_semicolon (h : Terminal.semicolon ∈ place.terminals) : place.Free := by
  cases place with
  | start => exact .start
  | statement => exact .statement
  | operator => exact .operator
  | named => exact .named
  | _ => exact absurd h (by decide)

/-- A separator in a program stands where statements may start, and so does what comes after it; it
may be left out. -/
theorem derives_without_semicolon (hsep : sep.terminal = .semicolon)
    (hs : ∀ l ∈ ls ++ sep :: ls', l.Spelt) (h : Derives .program (ls ++ sep :: ls') program) :
    (Place.start.afterAll ls).Free ∧
      (∀ l ∈ ls'.head?, l.terminal ∈ Place.statement.terminals ∧
        (Place.start.afterAll ls).accepts l.terminal = true) ∧
      Derives .program (ls ++ ls') program := by
  -- The reader before the separator takes what comes after it as the one behind it does, so the
  -- run goes on without the separator.
  obtain ⟨last, hrun, hfinish⟩ := (accepts_iff hs).2 h
  rw [run_append] at hrun
  obtain ⟨r, hbefore, hrun⟩ := Option.bind_eq_some_iff.1 hrun
  obtain ⟨r', hstep, hrun⟩ := Option.bind_eq_some_iff.1 hrun
  obtain ⟨hend, hnext⟩ := step_semicolon hsep hstep
  have hp := standsAt_run .start hbefore
  obtain ⟨hmem, hp'⟩ := place_step hp hstep
  rw [hsep] at hmem hp'
  have hfree := free_of_semicolon hmem
  rw [after_item hfree (by decide)] at hp'
  have hs' : ∀ l ∈ ls ++ ls', l.Spelt := fun l hl => hs l (by simp at hl ⊢; tauto)
  refine ⟨hfree, ?_, (accepts_iff hs').1 ?_⟩
  · intro l hl
    obtain ⟨others, rfl⟩ := List.head?_eq_some_iff.1 hl
    obtain ⟨next, hl', _⟩ := Option.bind_eq_some_iff.1 hrun
    have hitem := (place_step hp' hl').1
    have haccepts := (place_step hp ((hnext l hitem).trans hl')).1
    exact ⟨hitem, by simpa [Place.accepts] using haccepts⟩
  · rcases ls' with _ | ⟨l, others⟩
    · cases hrun
      exact ⟨r, by simpa using hbefore, hend.trans hfinish⟩
    · obtain ⟨next, hl', hothers⟩ := Option.bind_eq_some_iff.1 hrun
      have hitem := (place_step hp' hl').1
      refine ⟨last, ?_, hfinish⟩
      rw [run_append_of hbefore, run_cons_of ((hnext l hitem).trans hl'), hothers]

end separators

section blanks

variable {place : Place} {u v : List Char} {ls ls' all : List Lexeme} {program : Node}

/-- A separator that a blank replaces leaves the other lexemes. -/
theorem lexes_with_blank (h : LexemeAt ls u semicolon.1 v)
    (hl : Lexes .start (u ++ ';' :: v) all) (hderives : Derives .program all program) :
    ∃ ls', Lexes .start (u ++ ' ' :: v) (ls ++ ls') ∧ Derives .program (ls ++ ls') program := by
  obtain ⟨place, hreads, ht⟩ := h
  obtain ⟨others, rfl, hothers⟩ := hreads.lexes_iff.1 hl
  obtain ⟨ls', rfl, hv⟩ := (lexes_taken_iff ht).1 hothers
  obtain ⟨hfree, hfirst, hwithout⟩ := derives_without_semicolon rfl (spelt_of_lexes hl) hderives
  rw [← hreads.place_eq] at hfree hfirst
  refine ⟨ls', (hreads.cut rfl v).lexes_iff.2 ⟨ls', rfl, .layout rfl ?_⟩, hwithout⟩
  -- The rest was read from the place behind the separator, and is to be read from the one before.
  rw [after_item hfree (by decide)] at hv
  exact hv.exchange .statement hfree hfirst

theorem taken_semicolon (hp : place.Free) (v : List Char) :
    Taken place.accepts semicolon.1 (' ' :: v) := by
  have hlexeme : lexeme? place.accepts (';' :: ' ' :: v) = some (semicolon.1, ' ' :: v) := by
    cases hp <;> rfl
  exact (taken_of_lexeme? (by simp) hlexeme).2

/-- A separator between blanks comes in addition to the other lexemes. -/
theorem lexes_with_semicolon (h : Reads v .start u ls place)
    (hl : Lexes .start (u ++ v) (ls ++ ls'))
    (hderives : Derives .program (ls ++ semicolon.1 :: ls') program) :
    Lexes .start (u ++ (' ' :: ';' :: ' ' :: v)) (ls ++ semicolon.1 :: ls') := by
  have hs : ∀ l ∈ ls ++ semicolon.1 :: ls', l.Spelt := by
    intro l hmem
    have hspelt := spelt_of_lexes hl
    rcases List.mem_append.1 hmem with hmem | hmem
    · exact hspelt l (List.mem_append_left _ hmem)
    · rcases List.mem_cons.1 hmem with rfl | hmem
      · exact semicolon.2.2
      · exact hspelt l (List.mem_append_right _ hmem)
  obtain ⟨others, heq, hv⟩ := h.lexes_iff.1 hl
  obtain rfl := List.append_cancel_left heq
  obtain ⟨hfree, hfirst, _⟩ := derives_without_semicolon rfl hs hderives
  rw [← h.place_eq] at hfree hfirst
  refine (h.cut rfl _).lexes_iff.2 ⟨semicolon.1 :: ls', rfl, .layout rfl ?_⟩
  refine .lexeme (taken_semicolon hfree v) (.layout rfl ?_)
  rw [after_item hfree (by decide)]
  refine hv.exchange hfree .statement fun l hmem => ?_
  obtain ⟨hitem, _⟩ := hfirst l hmem
  exact ⟨hitem, by simpa [Place.accepts, Place.afterItem] using hitem⟩

end blanks

/-! ## Statements -/

namespace Tree

/-- A statement stands in a tree, be it in a block, between some lexemes of the tree. -/
inductive Holds : {n : Nonterminal} → Tree n → List Lexeme → Tree .statement → List Lexeme → Prop
  | here (s : Tree .statement) (items : Tree .items) :
      Holds (.statementItem s items) [] s items.yield
  | inside {s s' : Tree .statement} {items : Tree .items} {before after : List Lexeme}
      (h : Holds s' before s after) :
      Holds (.statementItem s' items) before s (after ++ items.yield)
  | later {s s' : Tree .statement} {items : Tree .items} {before after : List Lexeme}
      (h : Holds items before s after) :
      Holds (.statementItem s' items) (s'.yield ++ before) s after
  | separated {s : Tree .statement} {sep : Token [.semicolon]} {items : Tree .items}
      {before after : List Lexeme} (h : Holds items before s after) :
      Holds (.semicolonItem sep items) (sep.1 :: before) s after
  | body {s : Tree .statement} {whileWord : Token [.whileWord]} {test : Tree (.expr 0)}
      {body : Tree .block} {before after : List Lexeme} (h : Holds body before s after) :
      Holds (.whileStatement whileWord test body) (whileWord.1 :: (test.yield ++ before)) s after
  | block {s : Tree .statement} {openBrace : Token [.openBrace]} {items : Tree .items}
      {closeBrace : Token [.closeBrace]} {before after : List Lexeme}
      (h : Holds items before s after) :
      Holds (.block openBrace items closeBrace) (openBrace.1 :: before) s
        (after ++ [closeBrace.1])
  | program {s : Tree .statement} {items : Tree .items} {before after : List Lexeme}
      (h : Holds items before s after) : Holds (.program items) before s after

variable {n : Nonterminal} {t : Tree n} {s : Tree .statement} {before after : List Lexeme}

theorem Holds.yield_eq (h : t.Holds before s after) :
    t.yield = before ++ (s.yield ++ after) := by
  induction h with
  | here => rfl
  | inside _ ih => simp [ih]
  | later _ ih => simp [ih]
  | separated _ ih => simp [ih]
  | body _ ih => simp [ih]
  | block _ ih => simp [ih]
  | program _ ih => simpa using ih

/-- With a separator before or behind one of its statements, a tree is read as before. -/
theorem Holds.derives_separated (h : t.Holds before s after) :
    Derives n (before ++ semicolon.1 :: (s.yield ++ after)) t.read ∧
      Derives n ((before ++ s.yield) ++ semicolon.1 :: after) t.read := by
  induction h with
  | here s items =>
    exact ⟨⟨.semicolonItem semicolon (.statementItem s items), rfl, rfl⟩,
      ⟨.statementItem s (.semicolonItem semicolon items), rfl, rfl⟩⟩
  | @inside s s' items before after _ ih =>
    obtain ⟨⟨t, hyield, hread⟩, ⟨t', hyield', hread'⟩⟩ := ih
    exact ⟨⟨.statementItem t items, by simp [hyield], by simp [hread]⟩,
      ⟨.statementItem t' items, by simp [hyield'], by simp [hread']⟩⟩
  | @later s s' items before after _ ih =>
    obtain ⟨⟨t, hyield, hread⟩, ⟨t', hyield', hread'⟩⟩ := ih
    exact ⟨⟨.statementItem s' t, by simp [hyield], by simp [hread]⟩,
      ⟨.statementItem s' t', by simp [hyield'], by simp [hread']⟩⟩
  | @separated s sep items before after _ ih =>
    obtain ⟨⟨t, hyield, hread⟩, ⟨t', hyield', hread'⟩⟩ := ih
    exact ⟨⟨.semicolonItem sep t, by simp [hyield], by simp [hread]⟩,
      ⟨.semicolonItem sep t', by simp [hyield'], by simp [hread']⟩⟩
  | @body s whileWord test body before after _ ih =>
    obtain ⟨⟨t, hyield, hread⟩, ⟨t', hyield', hread'⟩⟩ := ih
    exact ⟨⟨.whileStatement whileWord test t, by simp [hyield], by simp [hread]⟩,
      ⟨.whileStatement whileWord test t', by simp [hyield'], by simp [hread']⟩⟩
  | @block s openBrace items closeBrace before after _ ih =>
    obtain ⟨⟨t, hyield, hread⟩, ⟨t', hyield', hread'⟩⟩ := ih
    exact ⟨⟨.block openBrace t closeBrace, by simp [hyield], by simp [hread]⟩,
      ⟨.block openBrace t' closeBrace, by simp [hyield'], by simp [hread']⟩⟩
  | @program s items before after _ ih =>
    obtain ⟨⟨t, hyield, hread⟩, ⟨t', hyield', hread'⟩⟩ := ih
    exact ⟨⟨.program t, by simp [hyield], by simp [hread]⟩,
      ⟨.program t', by simp [hyield'], by simp [hread']⟩⟩

end Tree

/-- Layout makes no difference. Blanks, or blanks and a comment, may be put at the ends of a text
and wherever a lexeme starts or ends; a separator may be replaced by a blank; and a separator
between blanks may be put where any statement starts or ends, be it in a block: the text is read as
the same program. Every lexeme of the text stands somewhere in it, and the statements are those of
its tree. -/
theorem layout_makes_no_difference {text : Text} {program : Node} (h : parse text = .ok program) :
    (∀ u v w : Text, text = u ++ v → Boundary u.chars v.chars → Gap w.chars →
        parse (u ++ w ++ v) = .ok program) ∧
      (∀ (before : List Lexeme) (u v : Text), text = u ++ (";" : Text) ++ v →
        LexemeAt before u.chars semicolon.1 v.chars →
        parse (u ++ (" " : Text) ++ v) = .ok program) ∧
      (∃ tree : Tree .program, Lexes .start text.chars tree.yield) ∧
      ∀ tree : Tree .program, Lexes .start text.chars tree.yield →
        tree.read = program ∧
        (∀ before l after, tree.yield = before ++ l :: after →
          ∃ u v, text.chars = u ++ (l.text ++ v) ∧ LexemeAt before u l v) ∧
        ∀ before s after, tree.Holds before s after → ∀ u v : Text, text = u ++ v →
          StartsAt before u.chars v.chars ∨ EndsAt (before ++ s.yield) u.chars v.chars →
          parse (u ++ (" ; " : Text) ++ v) = .ok program := by
  obtain ⟨ls, hlexes, hderives⟩ := parse_iff.1 h
  refine ⟨?_, ?_, ?_, ?_⟩
  · rintro u v w rfl hboundary hgap
    rw [chars_append] at hlexes
    refine parse_iff.2 ⟨ls, ?_, hderives⟩
    rw [List.append_assoc, chars_append, chars_append]
    exact lexes_with_gap hlexes hboundary hgap
  · rintro before u v rfl hat
    rw [List.append_assoc, chars_append, chars_append] at hlexes
    obtain ⟨ls', hlexes', hderives'⟩ := lexes_with_blank hat hlexes hderives
    refine parse_iff.2 ⟨before ++ ls', ?_, hderives'⟩
    rw [List.append_assoc, chars_append, chars_append]
    exact hlexes'
  · obtain ⟨tree, rfl, _⟩ := hderives
    exact ⟨tree, hlexes⟩
  · intro tree htree
    have hread : tree.read = program := by
      have hparse := parse_iff.2 ⟨_, htree, tree, rfl, rfl⟩
      exact Except.ok.inj (hparse.symm.trans h)
    refine ⟨hread, ?_, ?_⟩
    · intro before l after hyield
      rw [hyield] at htree
      exact exists_lexemeAt htree
    · rintro before s after hholds u v rfl hat
      obtain ⟨hbefore, hbehind⟩ := hholds.derives_separated
      rw [hread] at hbefore hbehind
      rw [chars_append, hholds.yield_eq] at htree
      have hseparated : ∃ ls, Lexes .start (u.chars ++ (' ' :: ';' :: ' ' :: v.chars)) ls ∧
          Derives .program ls program := by
        rcases hat with hat | hat
        · exact ⟨_, lexes_with_semicolon hat.reads htree hbefore, hbefore⟩
        · rw [← List.append_assoc] at htree
          exact ⟨_, lexes_with_semicolon hat.reads htree hbehind, hbehind⟩
      rw [List.append_assoc]
      apply parse_iff.2
      rw [chars_append, chars_append]
      exact hseparated

theorem taken_first {accepts : Terminal → Bool} {l : Lexeme} {rest : List Char} (text : String)
    (hc : ¬ ['/', '/'] <+: text.toList) (h : lexeme? accepts text.toList = some (l, rest)) :
    Taken accepts l rest :=
  (taken_of_lexeme? hc h).2

theorem exists_assignment (name : Token [.ident]) (becomes : Token [.becomes])
    (number : Token [.number]) :
    ∃ s : Tree .statement, s.yield = [name.1, becomes.1, number.1] := by
  have hnumber : Derives (.expr 9) [number.1] (Tree.numeral number).read :=
    ⟨.numeral number, rfl, rfl⟩
  obtain ⟨expr, hyield, _⟩ := hnumber.lower (Nat.zero_le 9) (Nat.le_refl 9)
  exact ⟨.assignStatement name becomes expr, by rw [Tree.yield, hyield]⟩

/-- Two assignments that touch the separator between them, with a comment that the end of the text
ends. More separators may be put behind the first one and before the second one. -/
theorem layout_makes_no_difference_around_a_separator :
    let program : Node := .program (.block [.assignment (.str "a") (.numeral 1.0),
      .assignment (.str "b") (.numeral 2.0)])
    parse "a=1;b=2//c" = .ok program ∧
      parse (("a=1" : Text) ++ ("\t//d\n" : Text) ++ (";b=2//c" : Text)) = .ok program ∧
      parse (("a=1;b=2//c" : Text) ++ ("\r \n" : Text) ++ ([] : Text)) = .ok program ∧
      parse (("a=1" : Text) ++ (" " : Text) ++ ("b=2//c" : Text)) = .ok program ∧
      parse (("a=1" : Text) ++ (" ; " : Text) ++ (";b=2//c" : Text)) = .ok program ∧
      parse (("a=1;" : Text) ++ (" ; " : Text) ++ ("b=2//c" : Text)) = .ok program := by
  intro program
  have hparse : parse "a=1;b=2//c" = .ok program := by with_unfolding_all rfl
  have ha : Taken Place.start.accepts ⟨.ident, ['a']⟩ "=1;b=2//c".toList :=
    taken_first "a=1;b=2//c" (by decide) (by with_unfolding_all rfl)
  have hbecomes : Taken Place.becomes.accepts ⟨.becomes, ['=']⟩ "1;b=2//c".toList :=
    taken_first "=1;b=2//c" (by decide) (by with_unfolding_all rfl)
  have hone : Taken Place.operand.accepts ⟨.number, ['1']⟩ ";b=2//c".toList :=
    taken_first "1;b=2//c" (by decide) (by with_unfolding_all rfl)
  have hsemicolon : Taken Place.operator.accepts semicolon.1 "b=2//c".toList :=
    taken_first ";b=2//c" (by decide) (by with_unfolding_all rfl)
  have hb : Taken Place.statement.accepts ⟨.ident, ['b']⟩ "=2//c".toList :=
    taken_first "b=2//c" (by decide) (by with_unfolding_all rfl)
  have hbecomes' : Taken Place.becomes.accepts ⟨.becomes, ['=']⟩ "2//c".toList :=
    taken_first "=2//c" (by decide) (by with_unfolding_all rfl)
  have htwo : Taken Place.operand.accepts ⟨.number, ['2']⟩ "//c".toList :=
    taken_first "2//c" (by decide) (by with_unfolding_all rfl)
  have hcomment : Lexes .operator ('/' :: '/' :: (['c'] ++ [])) [] :=
    .comment (by decide) (by simp) (.done _)
  obtain ⟨first, hfirst⟩ := exists_assignment (.of (spelt_of_taken ha) rfl)
    (.of (spelt_of_taken hbecomes) rfl) (.of (spelt_of_taken hone) rfl)
  obtain ⟨second, hsecond⟩ := exists_assignment (.of (spelt_of_taken hb) rfl)
    (.of (spelt_of_taken hbecomes') rfl) (.of (spelt_of_taken htwo) rfl)
  have htree : Lexes .start (Text.chars "a=1;b=2//c") (Tree.program (.statementItem first
      (.semicolonItem semicolon (.statementItem second .noItems)))).yield := by
    simp only [Tree.yield, hfirst, hsecond, List.append_nil]
    exact .lexeme ha (.lexeme hbecomes (.lexeme hone (.lexeme hsemicolon (.lexeme hb
      (.lexeme hbecomes' (.lexeme htwo hcomment))))))
  have hreads : Reads (Text.chars "1;b=2//c") .start ['a', '=']
      [⟨.ident, ['a']⟩, ⟨.becomes, ['=']⟩] .operand :=
    .lexeme (u := ['=']) ha (.lexeme (u := []) hbecomes (.nil .operand))
  have hat : LexemeAt [⟨.ident, ['a']⟩, ⟨.becomes, ['=']⟩, ⟨.number, ['1']⟩] (Text.chars "a=1")
      semicolon.1 (Text.chars "b=2//c") :=
    ⟨.operator, .lexeme (u := ['=', '1']) ha (.lexeme (u := ['1']) hbecomes
      (.lexeme (u := []) hone (.nil .operator))), hsemicolon⟩
  have hends : EndsAt ([] ++ first.yield) (Text.chars "a=1") (Text.chars ";b=2//c") :=
    ⟨[⟨.ident, ['a']⟩, ⟨.becomes, ['=']⟩], ⟨.number, ['1']⟩, ['a', '='], hfirst, rfl, .operand,
      hreads, hone⟩
  have hstarts : StartsAt (first.yield ++ [semicolon.1]) (Text.chars "a=1;")
      (Text.chars "b=2//c") := by
    rw [hfirst]
    exact ⟨⟨.ident, ['b']⟩, "=2//c".toList, rfl, .statement,
      .lexeme (u := ['=', '1', ';']) ha (.lexeme (u := ['1', ';']) hbecomes
        (.lexeme (u := [';']) hone (.lexeme (u := []) hsemicolon (.nil .statement)))), hb⟩
  have hgap : Gap (Text.chars "\t//d\n") := by
    change Gap (['\t'] ++ '/' :: '/' :: (['d'] ++ ['\n']))
    exact .comment (by decide) (by simp [isLayout]) (by decide)
  have hblanks : Gap (Text.chars "\r \n") := by
    have hall : (Text.chars "\r \n").all isLayout = true := rfl
    exact .blanks (by decide) (List.all_eq_true.1 hall)
  obtain ⟨hlayout, hblank, _, hstatements⟩ := layout_makes_no_difference hparse
  obtain ⟨_, _, hseparated⟩ := hstatements _ htree
  refine ⟨hparse, ?_, ?_, ?_, ?_, ?_⟩
  · exact hlayout "a=1" ";b=2//c" "\t//d\n" rfl (.start ⟨_, _, rfl, hat⟩) hgap
  · exact hlayout "a=1;b=2//c" [] "\r \n" rfl (.last rfl) hblanks
  · exact hblank _ "a=1" "b=2//c" rfl hat
  · exact hseparated _ _ _ (.program (.here first _)) "a=1" ";b=2//c" rfl (.inr hends)
  · exact hseparated _ _ _ (.program (.later (.separated (.here second .noItems)))) "a=1;" "b=2//c"
      rfl (.inl hstarts)

end BellaLang.Source
