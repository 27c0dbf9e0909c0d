-- Texts that are written lexeme by lexeme. Spaces stand between the lexemes, or
-- signs that no lexeme goes on with, so such a text has just these lexemes, as
-- long as each name in it is one at its place.
import BellaLang.Proofs.Parsing

namespace BellaLang.Source

/-! ## Layouts -/

/-- The characters that no word, number or sign goes on with. -/
def separators : List Char := [' ', ',', ']']

/-- The signs that no longer sign starts with. -/
def loneSigns : List (List Char) := [['['], ['-'], [',']]

/-- A lexeme ends where a text follows it. -/
def Apart (word rest : List Char) : Prop :=
  (∀ c ∈ rest.head?, c ∈ separators) ∨ word ∈ loneSigns

/-- A text is laid out from the texts of its lexemes. -/
inductive Laid : List Char → List (List Char) → Prop
  | nil : Laid [] []
  | space {cs : List Char} {words : List (List Char)} (h : Laid cs words) : Laid (' ' :: cs) words
  | word {word rest : List Char} {words : List (List Char)} (ha : Apart word rest)
      (h : Laid rest words) : Laid (word ++ rest) (word :: words)

/-- Texts with single spaces between them are laid out. -/
theorem laid_join (words : List Text) :
    Laid (Text.join " " words).chars (words.map Text.chars) := by
  induction words with
  | nil => exact .nil
  | cons word words ih =>
    rcases words with _ | ⟨next, words⟩
    · have hlast : Laid (word.chars ++ []) [word.chars] := .word (Or.inl (by simp)) .nil
      simpa [Text.join] using hlast
    · have heq : (Text.join " " (word :: next :: words)).chars =
          word.chars ++ ' ' :: (Text.join " " (next :: words)).chars := by
        simp [Text.join, Text.chars, List.intercalate_cons_cons, Text.ofString, Text.ofChars,
          CodePoint.toChar]
      rw [heq]
      exact .word (Or.inl (by simp [separators])) (.space ih)

/-! ## Where a lexeme ends -/

section ends

variable {cs word rest : List Char} {c : Char}

theorem separator_cases (h : c ∈ separators) : c = ' ' ∨ c = ',' ∨ c = ']' := by
  simpa [separators] using h

theorem isWordPart_separator (h : c ∈ separators) : isWordPart c = false := by
  rcases separator_cases h with rfl | rfl | rfl <;> decide

theorem digit?_separator (h : c ∈ separators) : Text.digit? c = none := by
  rcases separator_cases h with rfl | rfl | rfl <;> decide

/-- A number has no separator in it. -/
theorem not_mem_of_spells {s : Number.Spelled} (h : Spells cs s) (hc : c ∈ separators) :
    c ∉ cs := by
  intro hmem
  rcases digit_or_mark_of_spells h c hmem with hdigit | hmark
  · rw [digit?_separator hc] at hdigit
    cases hdigit
  · rcases separator_cases hc with rfl | rfl | rfl <;> exact absurd hmark (by decide)

/-- A text that goes past a word holds the character after the word. -/
theorem mem_drop_of_append {other rest' : List Char} (h : other ++ rest' = word ++ c :: rest)
    (hlt : word.length < other.length) : c ∈ other.drop word.length := by
  have hshort : word <+: other :=
    List.prefix_of_prefix_length_le ⟨c :: rest, h.symm⟩ (List.prefix_append other rest')
      (Nat.le_of_lt hlt)
  obtain ⟨more, rfl⟩ := hshort
  rw [List.append_assoc, List.append_cancel_left_eq] at h
  rw [List.drop_left]
  rcases more with _ | ⟨d, more⟩
  · simp at hlt
  · cases h
    exact List.mem_cons_self

/-- What is found where a word ends is no longer than the word. -/
theorem length_le_of_apart {other rest' : List Char} (h : other ++ rest' = word ++ rest)
    (hrest : ∀ c ∈ rest.head?, c ∈ separators)
    (hother : ∀ c ∈ separators, c ∉ other.drop word.length) : other.length ≤ word.length := by
  rcases rest with _ | ⟨c, rest⟩
  · have hlength := congrArg List.length h
    simp only [List.length_append, List.length_nil] at hlength
    omega
  · by_cases hlt : word.length < other.length
    · exact absurd (mem_drop_of_append h hlt) (hother c (hrest c rfl))
    · omega

theorem symbols_apart (hc : c ∈ separators) : ∀ s ∈ Terminal.symbols, c ∉ s.1.drop 1 := by
  rcases separator_cases hc with rfl | rfl | rfl <;> decide

theorem symbols_alone : ∀ s ∈ Terminal.symbols, ∀ sign ∈ loneSigns,
    s.1.head? = sign.head? → s.1.length = 1 := by decide

theorem loneSigns_plain {tail : List Char} (h : c :: tail ∈ loneSigns) :
    isWordStart c = false ∧ Text.digit? c = none := by
  have hcases : (c = '[' ∧ tail = []) ∨ (c = '-' ∧ tail = []) ∨ c = ',' ∧ tail = [] := by
    simpa [loneSigns] using h
  rcases hcases with ⟨rfl, _⟩ | ⟨rfl, _⟩ | ⟨rfl, _⟩ <;> decide

theorem Apart.of_word (h : Apart word rest) (hw : IsWord word) :
    ∀ c ∈ rest.head?, isWordPart c = false := by
  rcases h with hrest | hlone
  · exact fun c hc => isWordPart_separator (hrest c hc)
  · obtain ⟨c, tail, rfl, hc, _⟩ := hw
    have hplain := (loneSigns_plain hlone).1
    rw [hc] at hplain
    cases hplain

theorem Apart.of_spells {s : Number.Spelled} (h : Apart word rest) (hw : Spells word s) :
    ∀ c ∈ rest.head?, c ∈ separators := by
  rcases h with hrest | hlone
  · exact hrest
  · obtain ⟨c, tail, rfl, hc⟩ := hw.head
    have hplain := (loneSigns_plain hlone).2
    rw [hplain] at hc
    cases hc

/-- No longer sign stands where a sign ends. -/
theorem Apart.of_symbol {s s' : List Char × Terminal} (h : Apart s.1 rest)
    (hs : s ∈ Terminal.symbols) (hs' : s' ∈ Terminal.symbols) (hp : s'.1 <+: s.1 ++ rest) :
    s'.1.length ≤ s.1.length := by
  obtain ⟨rest', hrest'⟩ := hp
  have hpos := List.length_pos_iff.2 (symbols_nonempty s hs)
  rcases h with hrest | hlone
  · refine length_le_of_apart hrest' hrest ?_
    intro c hc hmem
    exact symbols_apart hc s' hs' (List.drop_subset_drop_left _ hpos hmem)
  · obtain ⟨c, tail, hc⟩ := List.exists_cons_of_ne_nil (symbols_nonempty s hs)
    obtain ⟨c', tail', hc'⟩ := List.exists_cons_of_ne_nil (symbols_nonempty s' hs')
    rw [hc, hc', List.cons_append, List.cons_append, List.cons.injEq] at hrest'
    rw [symbols_alone s' hs' _ hlone (by rw [hc, hc', hrest'.1]; rfl)]
    exact hpos

/-- No comment stands where a sign ends. -/
theorem Apart.not_comment {s : List Char × Terminal} (h : Apart s.1 rest)
    (hs : s ∈ Terminal.symbols) : ¬ ['/', '/'] <+: s.1 ++ rest := by
  have hslash : ∀ s ∈ Terminal.symbols, s.1.head? = some '/' → s.1 = ['/'] := by decide
  obtain ⟨c, tail, hc⟩ := List.exists_cons_of_ne_nil (symbols_nonempty s hs)
  intro hp
  have hhead : c = '/' := by
    rw [hc] at hp
    exact (List.cons_prefix_cons.1 hp).1.symm
  have hsign := hslash s hs (by rw [hc, hhead]; rfl)
  rcases h with hrest | hlone
  · rw [hsign] at hp
    rcases rest with _ | ⟨d, rest⟩
    · simp at hp
    · have hd : d = '/' := by simpa [eq_comm] using hp
      have hmem := hrest d rfl
      rw [hd] at hmem
      exact absurd hmem (by decide)
  · rw [hsign] at hlone
    exact absurd hlone (by decide)

end ends

/-! ## Names at their places -/

/-- A name is none of the keywords that are looked for at a place. -/
def Place.Names (place : Place) (l : Lexeme) : Prop :=
  l.terminal = .ident → ∀ k ∈ Terminal.keywords, k.1 = l.text → place.accepts k.2 = false

theorem isWord_keyword {word : List Char} {t : Terminal} (h : (word, t) ∈ Terminal.keywords) :
    IsWord word := by
  have hletters : ∀ k ∈ Terminal.keywords, k.1 ≠ [] ∧ k.1.all isWordStart = true := by decide
  obtain ⟨hne, hall⟩ := hletters _ h
  obtain ⟨c, tail, rfl⟩ := List.exists_cons_of_ne_nil hne
  rw [List.all_eq_true, List.forall_mem_cons] at hall
  exact ⟨c, tail, rfl, hall.1, fun d hd => by simp [isWordPart, hall.2 d hd]⟩

/-- A lexeme is taken where it ends, if it is acceptable. -/
theorem taken_of_apart {place : Place} {l : Lexeme} {rest : List Char} (hs : l.Spelt)
    (hl : l.terminal ∈ place.terminals) (hn : place.Names l) (ha : Apart l.text rest) :
    Taken place.accepts l rest := by
  have haccepts : place.accepts l.terminal = true := by simpa [Place.accepts] using hl
  obtain ⟨t, text⟩ := l
  by_cases hi : t = .ident
  · subst hi
    exact .name hs (ha.of_word hs) (hn rfl) haccepts
  by_cases hnum : t = .number
  · subst hnum
    obtain ⟨spelled, hspells⟩ := hs
    refine .number hspells ?_ haccepts
    intro other rest' spelled' hother heq
    refine length_le_of_apart heq (ha.of_spells hspells) ?_
    exact fun c hc hmem => not_mem_of_spells hother hc (List.mem_of_mem_drop hmem)
  rcases List.mem_append.1 (hs.mem hi hnum) with hk | hsymbol
  · have hword : IsWord text := isWord_keyword hk
    exact .keyword hword (ha.of_word hword) hk haccepts
  · exact .symbol hsymbol (fun s hmem _ hp => ha.of_symbol hsymbol hmem hp)
      (ha.not_comment hsymbol) haccepts

/-- From a place on, each name is one at its place, and the lexemes lead to another place. -/
inductive Leads : Place → List Lexeme → Place → Prop
  | nil (place : Place) : Leads place [] place
  | cons {place final : Place} {l : Lexeme} {ls : List Lexeme} (hn : place.Names l)
      (h : Leads (place.after l.terminal) ls final) : Leads place (l :: ls) final

theorem Leads.append {place next final : Place} {ls ls' : List Lexeme} (h : Leads place ls next)
    (h' : Leads next ls' final) : Leads place (ls ++ ls') final := by
  induction h with
  | nil => exact h'
  | cons hn _ ih => exact .cons hn (ih h')

/-! ## Reading what is laid out -/

theorem Token.spelt {terminals : List Terminal} (token : Token terminals) : token.1.Spelt :=
  token.2.2

/-- The lexemes of a tree are spelled as their terminals demand. -/
theorem Tree.spelt {n : Nonterminal} (t : Tree n) : ∀ l ∈ t.yield, l.Spelt := by
  induction t <;> simp_all [Token.spelt, or_imp]

section laid

variable {place final : Place} {r r' : Reader} {cs : List Char} {words : List (List Char)}
  {ls : List Lexeme}

/-- A text that is laid out has the lexemes that it is laid out from, where the reader takes
them. -/
theorem lexes_of_laid (h : Laid cs words) (hwords : ls.map Lexeme.text = words)
    (hs : ∀ l ∈ ls, l.Spelt) (hp : StandsAt place r) (hrun : r.run ls = some r')
    (hl : Leads place ls final) : Lexes place cs ls := by
  induction h generalizing place r ls with
  | nil =>
    rw [List.map_eq_nil_iff.1 hwords]
    exact .done place
  | space _ ih => exact .layout rfl (ih hwords hs hp hrun hl)
  | word ha _ ih =>
    obtain ⟨l, ls, rfl, rfl, hrest⟩ := List.map_eq_cons_iff.1 hwords
    obtain ⟨next, hstep, hrun'⟩ := Option.bind_eq_some_iff.1 hrun
    -- The step tells that the lexeme is acceptable; that a name is one is known beforehand.
    obtain ⟨hmem, hnext⟩ := place_step hp hstep
    cases hl with
    | cons hn hl =>
      have htaken := taken_of_apart (hs l List.mem_cons_self) hmem hn ha
      exact .lexeme htaken (ih hrest (fun l h => hs l (List.mem_cons_of_mem _ h)) hnext hrun' hl)

/-- A text that is laid out from the lexemes of a tree is read as the tree is. -/
theorem parse_of_laid {text : Text} {program : Node}
    (h : Laid text.chars (ls.map Lexeme.text)) (hl : Leads .start ls final)
    (hd : Derives .program ls program) : parse text = .ok program := by
  have hs : ∀ l ∈ ls, l.Spelt := by
    obtain ⟨t, rfl, _⟩ := hd
    exact t.spelt
  obtain ⟨r, hrun, _⟩ := (accepts_iff hs).2 hd
  exact parse_iff.2 ⟨ls, lexes_of_laid h rfl hs .start hrun hl, hd⟩

end laid

end BellaLang.Source
