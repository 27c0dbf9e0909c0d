-- A text is refused at its first offender. What stands before it begins a
-- program, and with the offender in it no text does; a text that is refused at its
-- end begins a program itself.
import BellaLang.Proofs.Completions
import Mathlib.Data.List.Basic
import Mathlib.Data.List.Induction

namespace BellaLang.Source

/-! ## Cutting a text short -/

/-- Layout, which ends every lexeme, and the character that stands for half of a pair: no lexeme
has them in it. -/
def strangers : List Char := [' ', '\t', '\n', '\r', '\x0c', '\ufffd']

theorem not_mem_of_spelt {l : Lexeme} (h : l.Spelt) {c : Char} (hc : c ∈ strangers) :
    c ∉ l.text := by
  have hplain : ∀ c ∈ strangers, isWordPart c = false ∧ Text.digit? c = none ∧
      c ∉ ['.', 'e', 'E', '+', '-'] := List.forall_iff_forall_mem.1 (by decide)
  have htable : ∀ c ∈ strangers, ∀ k ∈ Terminal.keywords ++ Terminal.symbols, c ∉ k.1 :=
    List.forall_iff_forall_mem.1 (by decide)
  obtain ⟨hword, hdigit, hmark⟩ := hplain c hc
  obtain ⟨t, text⟩ := l
  by_cases hi : t = .ident
  · subst hi
    obtain ⟨first, tail, rfl, hfirst, htail⟩ := h
    intro hmem
    have hpart : isWordPart c = true := by
      rcases List.mem_cons.1 hmem with rfl | hmem
      · simp [isWordPart, hfirst]
      · exact htail c hmem
    rw [hword] at hpart
    cases hpart
  by_cases hn : t = .number
  · subst hn
    obtain ⟨spelled, hspells⟩ := h
    intro hmem
    rcases digit_or_mark_of_spells hspells c hmem with hsome | hmem
    · rw [hdigit] at hsome
      cases hsome
    · exact hmark hmem
  · exact htable c hc _ (h.mem hi hn)

section cutting

variable {accepts : Terminal → Bool} {l : Lexeme} {kept rest any other : List Char} {b c : Char}

theorem prefix_of_cut (h : other <+: kept ++ b :: any) (hb : b ∉ other) : other <+: kept := by
  obtain ⟨rest', hrest'⟩ := h
  by_cases hlt : kept.length < other.length
  · exact absurd (List.mem_of_mem_drop (mem_drop_of_append hrest' hlt)) hb
  · exact List.prefix_of_prefix_length_le ⟨rest', hrest'⟩ (List.prefix_append _ _) (by omega)

theorem mem_strangers_of_layout (hb : isLayout b = true) : b ∈ strangers := by
  have hcases : (((b = ' ' ∨ b = '\t') ∨ b = '\n') ∨ b = '\r') ∨ b = '\x0c' := by
    simpa [isLayout] using hb
  rcases hcases with (((rfl | rfl) | rfl) | rfl) | rfl <;> decide

/-- A lexeme is taken as before where the text behind it is cut short by layout. -/
theorem Taken.cut (h : Taken accepts l (kept ++ rest)) (hb : isLayout b = true)
    (any : List Char) : Taken accepts l (kept ++ b :: any) := by
  have hblank : b ∈ strangers ∧ isWordPart b = false ∧ b ∉ ['/', '/'] := by
    have hstrangers : ∀ c ∈ strangers, isWordPart c = false ∧ c ∉ ['/', '/'] :=
      List.forall_iff_forall_mem.1 (by decide)
    have hmem := mem_strangers_of_layout hb
    exact ⟨hmem, hstrangers b hmem⟩
  obtain ⟨hstranger, hword, hslash⟩ := hblank
  have hend : (∀ c ∈ (kept ++ rest).head?, isWordPart c = false) →
      ∀ c ∈ (kept ++ b :: any).head?, isWordPart c = false := by
    intro hold c hc
    rcases kept with _ | ⟨d, kept⟩
    · cases hc
      exact hword
    · exact hold c hc
  -- What goes on without a blank goes on only in the part that was kept.
  have hkept : ∀ {word other : List Char}, b ∉ other → other <+: word ++ (kept ++ b :: any) →
      other <+: word ++ (kept ++ rest) := by
    intro word other hother hp
    rw [← List.append_assoc] at hp ⊢
    exact (prefix_of_cut hp hother).trans (List.prefix_append _ _)
  generalize hfollow : kept ++ rest = follow at h
  cases h with
  | keyword hw hold hk ha =>
    rw [← hfollow] at hold
    exact .keyword hw (hend hold) hk ha
  | name hw hold hk ha =>
    rw [← hfollow] at hold
    exact .name hw (hend hold) hk ha
  | number hs hlong ha =>
    refine .number hs ?_ ha
    intro other rest' spelled' hother heq
    have hno : b ∉ other := not_mem_of_spelt (l := ⟨.number, other⟩) ⟨spelled', hother⟩ hstranger
    obtain ⟨rest'', hrest''⟩ := hkept hno ⟨rest', heq⟩
    exact hlong other rest'' spelled' hother (by rw [hrest'', hfollow])
  | symbol hs hlong hc ha =>
    refine .symbol hs ?_ ?_ ha
    · intro s hmem hacc hp
      have hno : b ∉ s.1 :=
        not_mem_of_spelt (spelt_of_mem (List.mem_append_right _ hmem)) hstranger
      have hlonger := hkept hno hp
      rw [hfollow] at hlonger
      exact hlong s hmem hacc hlonger
    · intro hp
      have hcomment := hkept hslash hp
      rw [hfollow] at hcomment
      exact hc hcomment

/-- A context that looks for a keyword looks for names. -/
theorem accepts_wordTerminal (context : Context) (word : List Char) :
    context.accepts (wordTerminal context.accepts word) = context.accepts .ident := by
  have hnames : ∀ k ∈ Terminal.keywords, context.accepts k.2 = true →
      context.accepts .ident = true := by
    cases context <;> decide
  unfold wordTerminal
  split
  · rename_i k hfind
    have hsome := List.find?_some hfind
    simp only [Bool.and_eq_true] at hsome
    rw [hsome.2, hnames k (List.mem_of_find?_eq_some hfind) hsome.2]
  · rfl

/-- Where no lexeme of a context stands, none stands when the text is cut short. -/
theorem lexeme?_none_of_cut {context : Context} {word tail : List Char}
    (h : lexeme? context.accepts (c :: tail) = none) (hw : c :: word <+: c :: tail)
    (any : List Char) : lexeme? context.accepts (c :: word ++ ' ' :: any) = none := by
  rw [List.cons_append]
  unfold lexeme? at h ⊢
  simp only at h ⊢
  by_cases hword : isWordStart c = true
  · simp only [hword, if_true, accepts_wordTerminal, ite_eq_right_iff, reduceCtorEq,
      imp_false] at h ⊢
    exact h
  · rw [if_neg hword] at h ⊢
    by_cases hdigit : (Text.digit? c).isSome = true
    · rw [if_pos hdigit] at h ⊢
      obtain ⟨d, hd⟩ := Option.isSome_iff_exists.1 hdigit
      have hspell : Spell [c] [d] := by simp [Spell, hd]
      have hspells : Spells [c] ⟨[d], [], none⟩ := .parts hspell (by simp) .absent .absent
      obtain ⟨s, rest, hscan⟩ := scan?_isSome hspells tail
      obtain ⟨s', rest', hscan'⟩ := scan?_isSome hspells (word ++ ' ' :: any)
      rw [List.singleton_append] at hscan hscan'
      simp only [hscan, ite_eq_right_iff, reduceCtorEq, imp_false] at h
      simp only [hscan', ite_eq_right_iff, reduceCtorEq, imp_false]
      exact h
    · rw [if_neg hdigit] at h ⊢
      simp only [Option.map_eq_none_iff, List.find?_eq_none, Bool.and_eq_true,
        List.isPrefixOf_iff_prefix, not_and] at h ⊢
      intro s hs ha hp
      have hno : ' ' ∉ s.1 :=
        not_mem_of_spelt (spelt_of_mem (List.mem_append_right _ hs)) (by decide)
      exact h s hs ha ((prefix_of_cut hp hno).trans hw)

end cutting

/-! ## Layout before a lexeme -/

theorem exists_layout (flag : Bool) (cs : List Char) :
    ∃ layout, cs = layout ++ skipLayout flag cs := by
  fun_induction skipLayout flag cs with
  | case1 => exact ⟨[], rfl⟩
  | case2 c cs ih | case3 c cs _ ih | case4 c cs _ _ ih =>
    obtain ⟨layout, hlayout⟩ := ih
    exact ⟨c :: layout, by rw [List.cons_append, ← hlayout]⟩
  | case5 c cs => exact ⟨[], rfl⟩

theorem skipLayout_ne (flag : Bool) (c : Char) (cs : List Char) : skipLayout flag cs ≠ c :: cs := by
  intro heq
  have hlength := skipLayout_length flag cs
  rw [heq, List.length_cons] at hlength
  omega

/-- What is skipped before a lexeme is skipped before any other text. What is skipped to the end
may be a comment, which the other text has to end. -/
theorem skipLayout_append {flag : Bool} {layout solid other : List Char}
    (h : skipLayout flag (layout ++ solid) = solid)
    (ho : solid = [] → skipLayout true other = skipLayout false other) :
    skipLayout flag (layout ++ other) = skipLayout false other := by
  have hfirst : skipLayout true solid = solid → solid = [] := by
    intro heq
    rcases solid with _ | ⟨c, solid⟩
    · rfl
    · exact absurd heq (skipLayout_ne (c != '\n') c solid)
  induction layout generalizing flag with
  | nil =>
    cases flag with
    | false => rfl
    | true => exact ho (hfirst h)
  | cons c layout ih =>
    cases flag with
    | true => exact ih h
    | false =>
      by_cases hlayout : isLayout c = true
      · rw [List.cons_append, skipLayout_layout hlayout] at h ⊢
        exact ih h
      · by_cases hslash : ['/', '/'] <+: c :: (layout ++ solid)
        · obtain ⟨tail, htail⟩ := hslash
          obtain ⟨rfl, hrest⟩ := List.cons.inj htail
          rcases layout with _ | ⟨d, layout⟩
          · -- Both slashes would have to be skipped, and the second one is not.
            have hsolid : solid = '/' :: tail := hrest.symm
            rw [hsolid] at h
            exact absurd h (skipLayout_ne true '/' tail)
          · obtain ⟨rfl, _⟩ := List.cons.inj hrest
            exact ih h
        · rw [List.cons_append, skipLayout_self (by simpa using hlayout) hslash] at h
          exact absurd (congrArg List.length h) (by simp; omega)

/-- A newline ends whatever is skipped. -/
theorem skipLayout_newline {layout solid : List Char}
    (h : skipLayout false (layout ++ solid) = solid) (more : List Char) :
    skipLayout false (layout ++ '\n' :: more) = skipLayout false more :=
  skipLayout_append h fun _ => rfl

/-! ## How far a text is read -/

/-- The reader has taken some lexemes of the text, and stands before what is left of it. -/
inductive Reaches (text : List Char) : List Lexeme → Reader → List Char → Prop
  | start : Reaches text [] .start text
  | step {ls : List Lexeme} {r next : Reader} {cs rest : List Char} {l : Lexeme}
      (h : Reaches text ls r cs)
      (hl : lexeme? r.context.accepts (skipLayout false cs) = some (l, rest))
      (hstep : r.step l = some next) : Reaches text (ls ++ [l]) next rest

section reaching

variable {text cs : List Char} {ls : List Lexeme} {r : Reader}

theorem Reaches.read_eq (h : Reaches text ls r cs) : ∃ last, read text = readFrom r last cs := by
  induction h with
  | start => exact ⟨text.length, rfl⟩
  | step _ hl hstep ih =>
    obtain ⟨last, hread⟩ := ih
    obtain ⟨place, hnext⟩ := readFrom_cons hl hstep
    exact ⟨place, hread.trans hnext⟩

/-- The lexemes that were taken are lexemes of the text, whatever those are that follow. -/
theorem Reaches.lexes (h : Reaches text ls r cs) :
    ∃ place, StandsAt place r ∧ ∀ ls', Lexes place cs ls' → Lexes .start text (ls ++ ls') := by
  induction h with
  | start => exact ⟨.start, .start, fun ls' h => h⟩
  | @step ls r next cs rest l _ hl hstep ih =>
    obtain ⟨place, hplace, hlexes⟩ := ih
    obtain ⟨hmem, hnext⟩ := place_step hplace hstep
    refine ⟨_, hnext, fun ls' h => ?_⟩
    rw [List.append_assoc, List.singleton_append]
    exact hlexes _ (lexes_cons_iff.2 ⟨rest, lexeme?_atPlace hplace hmem hl, h⟩)

/-- The reader comes as far in every text that goes on just so up to a blank. -/
theorem Reaches.cut (h : Reaches text ls r cs) : ∃ before, text = before ++ cs ∧
    ∀ kept rest any b, cs = kept ++ rest → b = ' ' ∨ b = '\n' →
      Reaches (before ++ (kept ++ b :: any)) ls r (kept ++ b :: any) := by
  induction h with
  | start => exact ⟨[], rfl, fun kept rest any b _ _ => .start⟩
  | @step ls r next cs rest l _ hl hstep ih =>
    obtain ⟨before, htext, hcut⟩ := ih
    obtain ⟨layout, hlayout⟩ := exists_layout false cs
    obtain ⟨hsolid, htaken⟩ := taken_of_lexeme? (skipLayout_solid cs) hl
    refine ⟨before ++ (layout ++ l.text), ?_, ?_⟩
    · rw [htext, hlayout, hsolid]
      simp
    · rintro kept after any b rfl hb
      have hreach := hcut (layout ++ (l.text ++ kept)) after any b
        (by rw [hlayout, hsolid]; simp) hb
      have hlayout' : isLayout b = true := by rcases hb with rfl | rfl <;> rfl
      have htaken' := htaken.cut hlayout' any
      have hold : skipLayout false (layout ++ (l.text ++ (kept ++ after))) =
          l.text ++ (kept ++ after) := by
        rw [← hsolid, ← hlayout]
      have hskip : skipLayout false (layout ++ (l.text ++ (kept ++ b :: any))) =
          skipLayout false (l.text ++ (kept ++ b :: any)) := by
        apply skipLayout_append hold
        intro hnil
        obtain ⟨c, cs', heq, _⟩ := htaken.solid
        rw [hnil] at heq
        cases heq
      simp only [List.append_assoc] at hreach ⊢
      refine hreach.step ?_ hstep
      rw [hskip, skipLayout_taken htaken']
      exact lexeme?_of_taken htaken'

end reaching

/-! ## Offenders -/

/-- The text of an offender; the end of a text has none. -/
def Offender.text : Offender → Text
  | .lexeme l => .ofChars l.text
  | .endOfText => []
  | .codePoint p => [p]

/-- The offender stands first in what is left of a text, and it is refused there whatever
follows it. -/
structure Offends (r : Reader) (solid : List Char) (o : Offender) : Prop where
  first : o.text.chars <+: solid
  ne_nil : o.text.chars ≠ []
  spelt : ∀ l, o = .lexeme l → l.Spelt
  refused : ∀ last any cs, skipLayout false cs = skipLayout false (o.text.chars ++ ' ' :: any) →
    ∃ e, readFrom r last cs = .error e

section offending

variable {text cs tail rest : List Char} {ls : List Lexeme} {r : Reader} {l : Lexeme} {c : Char}
  {last : Nat}

theorem isLayout_first (hs : skipLayout false cs = c :: tail) : isLayout c = false := by
  obtain ⟨layout, hlayout⟩ := exists_layout false cs
  have hold : skipLayout false (layout ++ c :: tail) = c :: tail := by
    rw [← hs, ← hlayout]
  have hsame := (skipLayout_append hold (by simp)).symm.trans hold
  rw [Bool.eq_false_iff]
  intro hc
  rw [skipLayout_layout hc] at hsame
  exact skipLayout_ne false c tail hsame

/-- A text is refused where its first lexeme is, and where it has none. -/
theorem readFrom_refused (hne : skipLayout false cs ≠ [])
    (h : ∀ l rest, lexeme? r.context.accepts (skipLayout false cs) = some (l, rest) →
      r.step l = none) : ∃ e, readFrom r last cs = .error e := by
  rw [readFrom]
  split
  · contradiction
  · rename_i c tail hs
    simp only
    split
    · rename_i l rest hl
      rw [hs] at h
      rw [h l rest hl]
      exact ⟨_, rfl⟩
    · split <;> exact ⟨_, rfl⟩

theorem text_of_lexeme? {accepts : Terminal → Bool} (hs : ¬ ['/', '/'] <+: c :: tail)
    (hl : lexeme? accepts (c :: tail) = some (l, rest)) :
    ∃ word, l.text = c :: word ∧ c :: word <+: c :: tail := by
  obtain ⟨heq, _⟩ := taken_of_lexeme? hs hl
  rcases htext : l.text with _ | ⟨d, word⟩
  · have hlength := lexeme?_length hl
    rw [heq, htext] at hlength
    exact absurd hlength (Nat.lt_irrefl _)
  · rw [htext] at heq
    obtain ⟨rfl, _⟩ := List.cons.inj heq
    exact ⟨word, rfl, rest, heq.symm⟩

/-- A lexeme of the text offends if it is refused before every other text. -/
theorem offends_lexeme {accepts : Terminal → Bool} (hs : ¬ ['/', '/'] <+: c :: tail)
    (hl : lexeme? accepts (c :: tail) = some (l, rest))
    (hrefused : ∀ last any cs, skipLayout false cs = skipLayout false (l.text ++ ' ' :: any) →
      ∃ e, readFrom r last cs = .error e) : Offends r (c :: tail) (.lexeme l) := by
  obtain ⟨_, htaken⟩ := taken_of_lexeme? hs hl
  obtain ⟨word, hword, hfirst⟩ := text_of_lexeme? hs hl
  have htext : (Offender.lexeme l).text.chars = l.text := Text.chars_ofChars l.text
  refine ⟨?_, ?_, ?_, ?_⟩
  · rw [htext, hword]
    exact hfirst
  · rw [htext, hword]
    exact List.cons_ne_nil _ _
  · rintro _ ⟨⟩
    exact spelt_of_taken htaken
  · rw [htext]
    exact hrefused

theorem refused_of_step (hs : ¬ ['/', '/'] <+: c :: tail)
    (hl : lexeme? r.context.accepts (c :: tail) = some (l, rest)) (hstep : r.step l = none)
    (last : Nat) (any cs : List Char)
    (hcs : skipLayout false cs = skipLayout false (l.text ++ ' ' :: any)) :
    ∃ e, readFrom r last cs = .error e := by
  obtain ⟨_, htaken⟩ := taken_of_lexeme? hs hl
  rw [← List.nil_append rest] at htaken
  have htaken' : Taken r.context.accepts l (' ' :: any) := htaken.cut rfl any
  rw [skipLayout_taken htaken'] at hcs
  apply readFrom_refused
  · rw [hcs]
    simp
  · intro l' rest' hl'
    rw [hcs, lexeme?_of_taken htaken'] at hl'
    cases hl'
    exact hstep

theorem refused_of_none {word : List Char} (hs : skipLayout false cs = c :: tail)
    (hl : lexeme? r.context.accepts (c :: tail) = none) (hw : c :: word <+: c :: tail)
    (last : Nat) (any cs' : List Char)
    (hcs : skipLayout false cs' = skipLayout false (c :: word ++ ' ' :: any)) :
    ∃ e, readFrom r last cs' = .error e := by
  have hsolid : ¬ ['/', '/'] <+: c :: (word ++ ' ' :: any) := by
    intro hp
    have hold := skipLayout_solid cs
    rw [hs] at hold
    rw [← List.cons_append] at hp
    exact hold ((prefix_of_cut hp (by decide)).trans hw)
  rw [List.cons_append, skipLayout_self (isLayout_first hs) hsolid, ← List.cons_append] at hcs
  apply readFrom_refused
  · rw [hcs]
    simp
  · intro l rest hsome
    rw [hcs, lexeme?_none_of_cut hl hw any] at hsome
    cases hsome

/-- The reader comes to the end of the text, or to an offender. -/
theorem exists_offender {e : Refusal} (h : Reaches text ls r cs)
    (hlast : ∀ init l, ls = init ++ [l] → last = (l.text ++ cs).length)
    (he : readFrom r last cs = .error e) :
    ∃ ls' r' cs', Reaches text ls' r' cs' ∧
      ((e.offender = .endOfText ∧ skipLayout false cs' = [] ∧ r'.finish? = none ∧
          ∀ init l, ls' = init ++ [l] → e.remaining = (l.text ++ cs').length) ∨
        (Offends r' (skipLayout false cs') e.offender ∧
          e.remaining = (skipLayout false cs').length)) := by
  fun_induction readFrom r last cs generalizing ls with
  | case1 => cases he
  | case2 r last cs hlayout hfinish =>
    cases he
    exact ⟨ls, r, cs, h, Or.inl ⟨rfl, hlayout, hfinish, hlast⟩⟩
  | case3 r last cs c tail hs _ l rest hl _ next hstep =>
    rename_i ih
    have hsolid := skipLayout_solid cs
    rw [hs] at hsolid
    obtain ⟨heq, _⟩ := taken_of_lexeme? hsolid hl
    rw [← hs] at hl
    refine ih (h.step hl hstep) ?_ he
    intro init l' hls
    obtain ⟨_, hlexeme⟩ := List.append_inj' hls rfl
    cases hlexeme
    rw [← heq]
    rfl
  | case4 r last cs c tail hs _ l rest hl =>
    rename_i hstep
    have hsolid := skipLayout_solid cs
    rw [hs] at hsolid
    cases he
    refine ⟨ls, r, cs, h, Or.inr ?_⟩
    rw [hs]
    exact ⟨offends_lexeme hsolid hl (refused_of_step hsolid hl hstep), rfl⟩
  | case5 r last cs c tail hs _ hnone l rest =>
    rename_i hl
    have hsolid := skipLayout_solid cs
    rw [hs] at hsolid
    cases he
    refine ⟨ls, r, cs, h, Or.inr ?_⟩
    rw [hs]
    refine ⟨offends_lexeme hsolid hl ?_, rfl⟩
    obtain ⟨word, hword, hfirst⟩ := text_of_lexeme? hsolid hl
    rw [hword]
    exact refused_of_none hs hnone hfirst
  | case6 r last cs c tail hs _ hnone =>
    cases he
    refine ⟨ls, r, cs, h, Or.inr ?_⟩
    rw [hs]
    refine ⟨⟨?_, by simp [Offender.text, Text.chars], by simp, ?_⟩, rfl⟩
    · exact List.cons_prefix_cons.2 ⟨rfl, List.nil_prefix⟩
    · exact refused_of_none hs hnone (List.cons_prefix_cons.2 ⟨rfl, List.nil_prefix⟩)

/-- What the reader has come past begins a program, once a newline ends it; with the offender
in it, it begins none. -/
theorem Reaches.viable (h : Reaches text ls r cs) : ∃ before, text = before ++ skipLayout false cs ∧
    (∃ more program, read (before ++ more) = .ok program) ∧
    ∀ o, Offends r (skipLayout false cs) o → ∀ any, ∃ e,
      read (before ++ (o.text.chars ++ ' ' :: any)) = .error e := by
  obtain ⟨past, hpast, hcut⟩ := h.cut
  obtain ⟨layout, hlayout⟩ := exists_layout false cs
  have hskip : skipLayout false (layout ++ skipLayout false cs) = skipLayout false cs := by
    rw [← hlayout]
  refine ⟨past ++ layout, ?_, ?_, ?_⟩
  · rw [List.append_assoc, ← hlayout, hpast]
  · obtain ⟨more, program, hmore⟩ := exists_completion r
    obtain ⟨last, hread⟩ := (hcut layout _ more '\n' hlayout (Or.inr rfl)).read_eq
    refine ⟨'\n' :: more, program, ?_⟩
    rw [List.append_assoc, hread]
    exact hmore last _ (skipLayout_newline hskip more)
  · intro o ho any
    obtain ⟨rest, hrest⟩ := ho.first
    have hcs : cs = (layout ++ o.text.chars) ++ rest := by
      rw [List.append_assoc, hrest, ← hlayout]
    have hreach := hcut (layout ++ o.text.chars) rest any ' ' hcs (Or.inl rfl)
    rw [List.append_assoc] at hreach
    obtain ⟨last, hread⟩ := hreach.read_eq
    rw [List.append_assoc, hread]
    apply ho.refused last any
    apply skipLayout_append hskip
    intro hnil
    rw [hnil, List.append_eq_nil_iff] at hrest
    exact absurd hrest.1 ho.ne_nil

theorem Reaches.split_last (h : Reaches text (ls ++ [l]) r cs) :
    ∃ before, text = before ++ (l.text ++ cs) := by
  generalize hls : ls ++ [l] = ls' at h
  cases h with
  | start => simp at hls
  | @step _ _ _ cs' _ _ h hl _ =>
    obtain ⟨_, hlexeme⟩ := List.append_inj' hls rfl
    cases hlexeme
    obtain ⟨past, hpast, _⟩ := h.cut
    obtain ⟨layout, hlayout⟩ := exists_layout false cs'
    obtain ⟨hsolid, _⟩ := taken_of_lexeme? (skipLayout_solid cs') hl
    refine ⟨past ++ layout, ?_⟩
    rw [List.append_assoc, ← hsolid, ← hlayout, hpast]

theorem Reaches.eq_start (h : Reaches text [] r cs) : r = .start := by
  generalize hls : ([] : List Lexeme) = ls at h
  cases h with
  | start => rfl
  | step => simp at hls

end offending

/-! ## Texts -/

theorem chars_append (a b : Text) : Text.chars (a ++ b) = a.chars ++ b.chars :=
  List.map_append

/-- The position is that of a place in a text: its line is one more than the newlines before it,
its column one more than the characters since the last of them. -/
structure Marks (p : Text.Position) (before : Text) : Prop where
  line : p.line = 1 + before.count (.char '\n')
  column : p.column = 1 + (before.reverse.takeWhile (· ≠ .char '\n')).length

theorem marks_after (before : Text) : Marks (Text.Position.after ⟨1, 1⟩ before.chars) before := by
  induction before using List.reverseRecOn with
  | nil => exact ⟨rfl, rfl⟩
  | append_singleton before p ih =>
    have hnewline : p.toChar = '\n' ↔ p = .char '\n' := by
      cases p with
      | char c => simp [CodePoint.toChar]
      | half index => simp [CodePoint.toChar]
    have hlast : Text.chars [p] = [p.toChar] := rfl
    rw [chars_append, hlast, Text.Position.after_append]
    by_cases hp : p = .char '\n'
    · subst hp
      refine ⟨?_, ?_⟩
      · simp [Text.Position.after, CodePoint.toChar, ih.line, Nat.add_assoc]
      · simp [Text.Position.after, CodePoint.toChar]
    · have hc : ¬ p.toChar = '\n' := fun h => hp (hnewline.1 h)
      refine ⟨?_, ?_⟩
      · simp [Text.Position.after, hc, ih.line, hp]
      · simp [Text.Position.after, hc, ih.column, hp, Nat.add_assoc]

theorem marks_ofOffset (text : Text) (k : Nat) :
    Marks (Text.Position.ofOffset text.chars k) (text.take k) := by
  have htake : text.chars.take k = Text.chars (text.take k) := List.map_take.symm
  rw [Text.Position.ofOffset, htake]
  exact marks_after _

/-- Where the characters of a text are split, the text is. -/
theorem chars_split {text : Text} {before rest : List Char} {n : Nat}
    (h : text.chars = before ++ rest) (hn : n = rest.length) :
    Text.chars (text.take (text.length - n)) = before ∧
      Text.chars (text.drop (text.length - n)) = rest := by
  have hlength : text.length = before.length + rest.length := by
    rw [← List.length_append, ← h, Text.chars, List.length_map]
  have hbefore : text.length - n = before.length := by omega
  have htake : ∀ k, Text.chars (text.take k) = text.chars.take k := fun k => List.map_take
  have hdrop : ∀ k, Text.chars (text.drop k) = text.chars.drop k := fun k => List.map_drop
  rw [htake, hdrop, h, hbefore]
  exact ⟨List.take_left, List.drop_left⟩

theorem starts_of_chars {cs : List Char} {text : Text} (h : cs <+: text.chars)
    (hc : '\ufffd' ∉ cs) : Text.ofChars cs <+: text := by
  induction cs generalizing text with
  | nil => exact List.nil_prefix
  | cons c cs ih =>
    rcases text with _ | ⟨p, text⟩
    · simp [Text.chars] at h
    · obtain ⟨hfirst, hrest⟩ := List.cons_prefix_cons.1 h
      have hp : p = .char c := by
        cases p with
        | char d => rw [hfirst]; rfl
        | half index =>
          rw [hfirst] at hc
          exact absurd List.mem_cons_self hc
      rw [hp]
      exact List.cons_prefix_cons.2 ⟨rfl, ih hrest fun hmem => hc (List.mem_cons_of_mem _ hmem)⟩

/-- Half of a pair is seen in the text where the character that replaces it was read; nothing
else differs. -/
theorem seenIn_prefix {r : Reader} {o : Offender} {text : Text} (h : Offends r text.chars o) :
    (o.seenIn text).text <+: text ∧ (o.seenIn text).text.chars = o.text.chars := by
  cases o with
  | lexeme l =>
    refine ⟨starts_of_chars ?_ (not_mem_of_spelt (h.spelt l rfl) (by decide)), rfl⟩
    rw [← Text.chars_ofChars l.text]
    exact h.first
  | endOfText => exact absurd rfl h.ne_nil
  | codePoint p =>
    rcases text with _ | ⟨q, text⟩
    · exact absurd (List.prefix_nil.1 h.first) h.ne_nil
    · have hq : p.toChar = q.toChar := (List.cons_prefix_cons.1 h.first).1
      refine ⟨List.cons_prefix_cons.2 ⟨rfl, List.nil_prefix⟩, ?_⟩
      change [q.toChar] = [p.toChar]
      rw [hq]

theorem parse_error_of_read {text : Text} (h : ∃ e, read text.chars = .error e) :
    ∃ e, parse text = .error e := by
  obtain ⟨e, he⟩ := h
  unfold parse
  rw [he]
  exact ⟨_, rfl⟩

/-- The last lexeme of a text stands at an offset. -/
def LastAt (text : Text) (k : Nat) : Prop :=
  ∃ ls l after, Lexes .start text.chars (ls ++ [l]) ∧ Text.chars (text.drop k) = l.text ++ after ∧
    skipLayout false after = []

section refusing

variable {text : Text} {ls : List Lexeme} {r : Reader} {cs : List Char} {n : Nat}

/-- At the end of a text the last lexeme is behind the reader, for a text without lexemes is the
empty program. -/
theorem refused_at_end (h : Reaches text.chars ls r cs) (hlayout : skipLayout false cs = [])
    (hfinish : r.finish? = none)
    (hlast : ∀ init l, ls = init ++ [l] → n = (l.text ++ cs).length) :
    (∃ more program, parse (text ++ more) = .ok program) ∧ LastAt text (text.length - n) := by
  obtain ⟨before, htext, ⟨more, program, hmore⟩, _⟩ := h.viable
  rw [hlayout, List.append_nil] at htext
  refine ⟨⟨.ofChars more, program, ?_⟩, ?_⟩
  · rw [parse_eq_ok_iff, chars_append, Text.chars_ofChars, htext, hmore]
  · rcases List.eq_nil_or_concat ls with rfl | ⟨init, l, rfl⟩
    · rw [h.eq_start] at hfinish
      cases hfinish
    · rw [List.concat_eq_append] at h hlast
      obtain ⟨place, _, hlexes⟩ := h.lexes
      obtain ⟨past, hpast⟩ := h.split_last
      obtain ⟨_, hdrop⟩ := chars_split hpast (hlast init l rfl)
      refine ⟨init, l, cs, ?_, hdrop, hlayout⟩
      have hall := hlexes [] (lexes_nil_iff.2 hlayout)
      rwa [List.append_nil] at hall

theorem refused_inside {o : Offender} (h : Reaches text.chars ls r cs)
    (ho : Offends r (skipLayout false cs) o) (hn : n = (skipLayout false cs).length) :
    let k := text.length - n
    let seen := o.seenIn (text.drop k)
    seen.text ≠ [] ∧ seen.text <+: text.drop k ∧
      (∃ more program, parse (text.take k ++ more) = .ok program) ∧
      ∀ any : Text, ∃ e, parse (text.take k ++ (seen.text ++ (" " : Text) ++ any)) = .error e := by
  intro k seen
  obtain ⟨before, htext, ⟨more, program, hmore⟩, hrefused⟩ := h.viable
  obtain ⟨htake, hdrop⟩ := chars_split htext hn
  have hseen : Offends r (Text.chars (text.drop k)) o := by rwa [hdrop]
  obtain ⟨hfirst, hchars⟩ := seenIn_prefix hseen
  refine ⟨?_, hfirst, ⟨.ofChars more, program, ?_⟩, ?_⟩
  · intro hnil
    rw [hnil] at hchars
    exact ho.ne_nil hchars.symm
  · rw [parse_eq_ok_iff, chars_append, Text.chars_ofChars, htake, hmore]
  · intro any
    apply parse_error_of_read
    have hspace : Text.chars (" " : Text) = [' '] := rfl
    rw [chars_append, chars_append, chars_append, htake, hchars, hspace, List.append_assoc]
    exact hrefused o ho any.chars

end refusing

/-- A text that is no program is refused at its end or at an offender in it. At the end, its last
lexeme is reported, and some text can be put behind it to make a program. An offender is reported
where it stands; what stands before it is the beginning of a program, and with the offender and a
space behind that no text makes one. -/
theorem a_text_is_refused_at_its_first_offender {text : Text} {e : SyntaxError}
    (h : parse text = .error e) :
    (e.offender = .endOfText ∧ (∃ more program, parse (text ++ more) = .ok program) ∧
      ∃ k, Marks e.position (text.take k) ∧ LastAt text k) ∨
    ∃ k, Marks e.position (text.take k) ∧ e.offender.text ≠ [] ∧
      e.offender.text <+: text.drop k ∧
      (∃ more program, parse (text.take k ++ more) = .ok program) ∧
      ∀ any : Text, ∃ e', parse (text.take k ++ (e.offender.text ++ (" " : Text) ++ any)) =
        .error e' := by
  unfold parse at h
  rcases hread : read text.chars with refusal | program
  · rw [hread] at h
    cases h
    have hmarks := marks_ofOffset text (text.length - refusal.remaining)
    obtain ⟨ls, r, cs, hreach, hcase⟩ := exists_offender .start (by simp) hread
    rcases hcase with ⟨hoffender, hlayout, hfinish, hlast⟩ | ⟨hoffends, hremaining⟩
    · obtain ⟨hviable, hat⟩ := refused_at_end hreach hlayout hfinish hlast
      exact Or.inl ⟨by rw [hoffender]; rfl, hviable, _, hmarks, hat⟩
    · exact Or.inr ⟨_, hmarks, refused_inside hreach hoffends hremaining⟩
  · rw [hread] at h
    cases h

/-- A bracket that closes nothing, after a comment and on a second line. -/
theorem a_text_is_refused_at_its_first_offender_in_line_two :
    let text : Text := "let x = // one\n  (2 + ] 3)"
    ∃ e, parse text = .error e ∧ e.offender = .lexeme ⟨.closeBracket, [']']⟩ ∧
      e.position = ⟨2, 8⟩ ∧
      ∃ k, Marks e.position (text.take k) ∧ e.offender.text ≠ [] ∧
        e.offender.text <+: text.drop k ∧
        (∃ more program, parse (text.take k ++ more) = .ok program) ∧
        ∀ any : Text, ∃ e', parse (text.take k ++ (e.offender.text ++ (" " : Text) ++ any)) =
          .error e' := by
  intro text
  have hparse : parse text = .error ⟨.lexeme ⟨.closeBracket, [']']⟩, ⟨2, 8⟩⟩ := by
    with_unfolding_all rfl
  refine ⟨_, hparse, rfl, rfl, ?_⟩
  rcases a_text_is_refused_at_its_first_offender hparse with ⟨hend, _⟩ | hinside
  · cases hend
  · exact hinside

end BellaLang.Source
