-- The lexemes of a text. What is looked for at a place depends on the lexeme
-- before it; blanks and comments are skipped, words and numbers are taken as long
-- as they go, and of two signs the longer one is taken.
import BellaLang.Proofs.Derivations

namespace BellaLang.Source

/-! ## Places -/

/-- Where a lexeme stands, as far as the lexeme before it tells. -/
inductive Place where
  | start
  /-- Between statements, after a separator or a brace. -/
  | statement
  | variableName
  | functionName
  | becomes
  /-- After the name of a function or a parameter. -/
  | parameter
  | operand
  /-- After the parenthesis of a call. -/
  | argument
  /-- After the bracket of an array. -/
  | element
  | operator
  /-- After a name in an expression. -/
  | named

namespace Place

/-- The terminals that an item starts with. -/
def items : List Terminal :=
  [.ident, .letWord, .funcWord, .printWord, .whileWord, .semicolon]

def operands : List Terminal :=
  [.ident, .number, .trueWord, .falseWord, .bang, .minus, .plus, .openParen, .openBracket]

/-- What may follow a complete operand. -/
def operatorsAndEnds : List Terminal :=
  items ++ [.closeBrace, .openBrace, .closeParen, .closeBracket, .openBracket, .comma, .colon,
    .question, .or, .and, .equal, .notEqual, .atMost, .atLeast, .less, .greater, .plus, .minus,
    .star, .slash, .percent]

/-- The terminals that are acceptable at a place. -/
def terminals : Place → List Terminal
  | start => items
  | statement => .closeBrace :: items
  | variableName => [.ident]
  | functionName => [.ident]
  | becomes => [.becomes]
  | parameter => [.ident, .becomes]
  | operand => operands
  | argument => .closeParen :: operands
  | element => .closeBracket :: operands
  | operator => operatorsAndEnds
  | named => .openParen :: operatorsAndEnds

def accepts (place : Place) (t : Terminal) : Bool := place.terminals.contains t

/-- The place after an item's first terminal, or after a brace. -/
def afterItem : Terminal → Place
  | .letWord => variableName
  | .funcWord => functionName
  | .printWord | .whileWord => operand
  | .ident => becomes
  | _ => statement

/-- The place after a terminal that was taken where an operand is due. -/
def afterOperand : Terminal → Place
  | .ident => named
  | .openBracket => element
  | .bang | .minus | .plus | .openParen => operand
  | _ => operator

/-- The place after a terminal that was taken at a place. -/
def after (place : Place) (t : Terminal) : Place :=
  match place with
  | start | statement => afterItem t
  | variableName => becomes
  | functionName => parameter
  | becomes => operand
  | parameter => if t = .ident then parameter else operand
  | operand | argument | element => afterOperand t
  | operator | named =>
    if t = .closeParen ∨ t = .closeBracket then operator
    else if t = .openParen then argument
    else if t = .openBrace ∨ items.contains t ∨ t = .closeBrace then afterItem t
    else operand

end Place

/-! ## Lexemes at a place -/

/-- A lexeme is taken where some terminals are looked for, and a text follows it. -/
inductive Taken (accepts : Terminal → Bool) : Lexeme → List Char → Prop
  /-- A word is taken to its end; it is a keyword where the keyword is looked for. -/
  | keyword {word rest : List Char} {t : Terminal} (hw : IsWord word)
      (hend : ∀ c ∈ rest.head?, isWordPart c = false) (hk : (word, t) ∈ Terminal.keywords)
      (ha : accepts t = true) : Taken accepts ⟨t, word⟩ rest
  | name {word rest : List Char} (hw : IsWord word)
      (hend : ∀ c ∈ rest.head?, isWordPart c = false)
      (hk : ∀ k ∈ Terminal.keywords, k.1 = word → accepts k.2 = false)
      (ha : accepts .ident = true) : Taken accepts ⟨.ident, word⟩ rest
  /-- No longer number stands there. -/
  | number {text rest : List Char} {spelled : Number.Spelled} (hs : Spells text spelled)
      (hlong : ∀ other rest' spelled', Spells other spelled' → other ++ rest' = text ++ rest →
        other.length ≤ text.length)
      (ha : accepts .number = true) : Taken accepts ⟨.number, text⟩ rest
  /-- No longer sign that is looked for stands there, and no comment. -/
  | symbol {sign rest : List Char} {t : Terminal} (hs : (sign, t) ∈ Terminal.symbols)
      (hlong : ∀ s ∈ Terminal.symbols, accepts s.2 = true → s.1 <+: sign ++ rest →
        s.1.length ≤ sign.length)
      (hc : ¬ ['/', '/'] <+: sign ++ rest) (ha : accepts t = true) : Taken accepts ⟨t, sign⟩ rest

/-- The lexemes of a text, from a place on. -/
inductive Lexes : Place → List Char → List Lexeme → Prop
  | done (place : Place) : Lexes place [] []
  | layout {place : Place} {c : Char} {cs : List Char} {ls : List Lexeme}
      (hc : isLayout c = true) (h : Lexes place cs ls) : Lexes place (c :: cs) ls
  | comment {place : Place} {body cs : List Char} {ls : List Lexeme} (hb : '\n' ∉ body)
      (hend : ∀ c ∈ cs.head?, c = '\n') (h : Lexes place cs ls) :
      Lexes place ('/' :: '/' :: (body ++ cs)) ls
  | lexeme {place : Place} {l : Lexeme} {rest : List Char} {ls : List Lexeme}
      (ht : Taken place.accepts l rest) (h : Lexes (place.after l.terminal) rest ls) :
      Lexes place (l.text ++ rest) (l :: ls)

/-! ## Numbers are taken as long as they go -/

open Number

section longest

variable {cs rest f e : List Char} {ds : List Nat} {x : Option Int}

theorem digitRun_rest (h : Spell cs ds) (rest : List Char) :
    (digitRun Text.digit? (cs ++ rest)).2.length ≤ rest.length := by
  induction cs generalizing ds with
  | nil =>
    have hlength := digitRun_length Text.digit? rest
    rw [List.nil_append]
    omega
  | cons c cs ih =>
    rcases ds with _ | ⟨d, ds⟩
    · simp [Spell] at h
    · simp only [Spell, List.map_cons, List.cons.injEq] at h
      simp only [List.cons_append, digitRun, h.1]
      exact ih h.2

theorem digitRun_ne_nil (h : Spell cs ds) (hne : ds ≠ []) (rest : List Char) :
    (digitRun Text.digit? (cs ++ rest)).1 ≠ [] := by
  rcases cs with _ | ⟨c, cs⟩
  · exact absurd rfl (ne_nil_of_spell h hne)
  · obtain ⟨d, hd⟩ := Option.isSome_iff_exists.1 (h.isSome List.mem_cons_self)
    simp [digitRun, hd]

theorem exponentPart_rest (h : SpellExponent e x) (rest : List Char) :
    (exponentPart Text.digit? (e ++ rest)).2.length ≤ rest.length := by
  cases h with
  | absent => exact exponentPart_length Text.digit? rest
  | mark hm hs h hne =>
    simp only [List.cons_append, List.append_assoc, exponentPart, hm, if_true,
      signOf_append hs h hne]
    split
    · rename_i heq
      exact absurd (congrArg Prod.fst heq) (digitRun_ne_nil h hne rest)
    · rename_i heq
      have hrest := digitRun_rest h rest
      rwa [heq] at hrest

/-- Digits are followed by no digit, or nothing but digits was meant. -/
theorem exponent_stops (h : SpellExponent e x) (rest : List Char) :
    Stops (e ++ rest) ∨ e = [] := by
  cases h with
  | absent => exact Or.inr rfl
  | mark hm _ _ _ =>
    have he : Text.digit? 'e' = none := by decide
    have hE : Text.digit? 'E' = none := by decide
    rcases hm with rfl | rfl <;> exact Or.inl (by simp [Stops, he, hE])

theorem fractionPart_rest (hf : SpellFraction f ds) (he : SpellExponent e x) (rest : List Char) :
    (exponentPart Text.digit? (fractionPart Text.digit? (f ++ (e ++ rest))).2).2.length ≤
      rest.length := by
  cases hf with
  | absent =>
    cases he with
    | absent =>
      exact Nat.le_trans (exponentPart_length _ _) (fractionPart_length Text.digit? rest)
    | @mark m sign cs negative ds hm hs h hne =>
      have hexponent := exponentPart_rest (.mark hm hs h hne) rest
      rcases hm with rfl | rfl <;> exact hexponent
  | @point cs ds h hne =>
    have hsome := digitRun_ne_nil h hne (e ++ rest)
    have hpart : fractionPart Text.digit? ('.' :: cs ++ (e ++ rest)) =
        digitRun Text.digit? (cs ++ (e ++ rest)) := by
      simp only [List.cons_append, fractionPart]
      split
      · rename_i heq
        rw [heq] at hsome
        exact absurd rfl hsome
      · rfl
    rw [hpart]
    rcases exponent_stops he rest with hstops | rfl
    · rw [digitRun_spell h hstops]
      exact exponentPart_rest he rest
    · exact Nat.le_trans (exponentPart_length _ _) (digitRun_rest h rest)

/-- Scanning leaves no more than any number at the start of the text leaves. -/
theorem scan?_rest {text rest rest' : List Char} {s spelled : Spelled} (h : Spells text spelled)
    (hscan : scan? Text.digit? (text ++ rest') = some (s, rest)) :
    rest.length ≤ rest'.length := by
  obtain ⟨hw, hne, hf, he⟩ := h
  rename_i w f e whole fraction exponent
  have hrest : rest = (exponentPart Text.digit? (fractionPart Text.digit?
      (digitRun Text.digit? (w ++ (f ++ (e ++ rest')))).2).2).2 := by
    simp only [List.append_assoc] at hscan
    unfold scan? at hscan
    split at hscan
    · cases hscan
    · rename_i heq
      simp only [Option.some.injEq, Prod.mk.injEq] at hscan
      rw [heq]
      exact hscan.2.symm
  rw [hrest]
  by_cases hstops : Stops (f ++ (e ++ rest'))
  · rw [digitRun_spell hw hstops]
    exact fractionPart_rest hf he rest'
  · -- What follows the digits is a digit, so there is neither a fraction nor an exponent.
    have hempty : f ++ (e ++ rest') = rest' := by
      cases hf with
      | absent =>
        rcases exponent_stops he rest' with h | rfl
        · exact absurd h hstops
        · rfl
      | point =>
        have hpoint : Text.digit? '.' = none := by decide
        exact absurd (by simp [Stops, hpoint]) hstops
    rw [hempty]
    exact Nat.le_trans (exponentPart_length _ _) (Nat.le_trans (fractionPart_length _ _)
      (digitRun_rest hw rest'))

theorem scan?_isSome {text spelled} (h : Spells text spelled) (rest : List Char) :
    ∃ s rest', scan? Text.digit? (text ++ rest) = some (s, rest') := by
  obtain ⟨hw, hne, hf, he⟩ := h
  rename_i w f e whole fraction exponent
  have hsome := digitRun_ne_nil hw hne (f ++ e ++ rest)
  rw [List.append_assoc]
  unfold scan?
  split
  · rename_i heq
    rw [heq] at hsome
    exact absurd rfl hsome
  · exact ⟨_, _, rfl⟩

end longest

/-! ## Taking lexemes -/

section taking

variable {accepts : Terminal → Bool} {cs rest : List Char} {l : Lexeme}

theorem takeWhile_word {word : List Char} (hw : IsWord word)
    (hend : ∀ c ∈ rest.head?, isWordPart c = false) :
    (word ++ rest).takeWhile isWordPart = word ∧ (word ++ rest).dropWhile isWordPart = rest := by
  obtain ⟨c, tail, rfl, hc, htail⟩ := hw
  have hall : ∀ d ∈ c :: tail, isWordPart d = true := by
    intro d hd
    rcases List.mem_cons.1 hd with rfl | hd
    · simp [isWordPart, hc]
    · exact htail d hd
  rw [List.takeWhile_append_of_pos hall, List.dropWhile_append_of_pos hall]
  rcases rest with _ | ⟨d, rest⟩
  · simp
  · have hd := hend d rfl
    simp [hd]

theorem wordTerminal_keyword {word : List Char} {t : Terminal}
    (hk : (word, t) ∈ Terminal.keywords) (ha : accepts t = true) :
    wordTerminal accepts word = t := by
  have hunique : ∀ k ∈ Terminal.keywords, ∀ k' ∈ Terminal.keywords, k.1 = k'.1 → k = k' := by
    decide
  unfold wordTerminal
  split
  · rename_i k hfind
    have hmem := List.mem_of_find?_eq_some hfind
    have hsome := List.find?_some hfind
    simp only [Bool.and_eq_true, decide_eq_true_eq] at hsome
    rw [hunique k hmem _ hk hsome.1]
  · rename_i hnone
    have hmiss := List.find?_eq_none.1 hnone _ hk
    simp [ha] at hmiss

theorem wordTerminal_name {word : List Char}
    (hk : ∀ k ∈ Terminal.keywords, k.1 = word → accepts k.2 = false) :
    wordTerminal accepts word = .ident := by
  unfold wordTerminal
  split
  · rename_i k hfind
    have hsome := List.find?_some hfind
    simp only [Bool.and_eq_true, decide_eq_true_eq] at hsome
    have hno := hk k (List.mem_of_find?_eq_some hfind) hsome.1
    rw [hno] at hsome
    cases hsome.2
  · rfl

theorem lexeme?_word {word : List Char} (hw : IsWord word)
    (hend : ∀ c ∈ rest.head?, isWordPart c = false)
    (ha : accepts (wordTerminal accepts word) = true) :
    lexeme? accepts (word ++ rest) = some (⟨wordTerminal accepts word, word⟩, rest) := by
  obtain ⟨htake, hdrop⟩ := takeWhile_word hw hend
  obtain ⟨c, tail, rfl, hc, _⟩ := hw
  unfold lexeme?
  simp only [List.cons_append] at htake hdrop ⊢
  simp only [hc, if_true, htake, hdrop, ha]

theorem not_isWordStart_of_digit {c : Char} (h : (Text.digit? c).isSome = true) :
    isWordStart c = false := by
  have hcode := digit_code h
  have hne : c ≠ '_' := by
    rintro rfl
    exact absurd h (by decide)
  rw [Bool.eq_false_iff]
  simp only [isWordStart, ne_eq, Bool.or_eq_true, Bool.and_eq_true, decide_eq_true_eq, beq_iff_eq,
    hne, or_false]
  have ha : 'a'.toNat = 97 := rfl
  have hz : 'z'.toNat = 122 := rfl
  have hA : 'A'.toNat = 65 := rfl
  have hZ : 'Z'.toNat = 90 := rfl
  omega

theorem lexeme?_number {text : List Char} {spelled : Spelled} (hs : Spells text spelled)
    (hlong : ∀ other rest' spelled', Spells other spelled' → other ++ rest' = text ++ rest →
      other.length ≤ text.length) (ha : accepts .number = true) :
    lexeme? accepts (text ++ rest) = some (⟨.number, text⟩, rest) := by
  obtain ⟨s, rest', hscan⟩ := scan?_isSome hs rest
  obtain ⟨other, hother, hspells⟩ := spells_of_scan? hscan
  have hle := hlong other rest' s hspells hother.symm
  have hge := scan?_rest hs hscan
  have hlengths := congrArg List.length hother
  simp only [List.length_append] at hlengths
  obtain ⟨rfl, rfl⟩ := List.append_inj hother (by omega)
  obtain ⟨c, tail, rfl, hc⟩ := hs.head
  unfold lexeme?
  simp only [List.cons_append] at hscan ⊢
  have htake : tail.length + rest.length + 1 - rest.length = tail.length + 1 := by omega
  simp [not_isWordStart_of_digit hc, hc, hscan, ha, htake]

theorem symbols_plain : ∀ s ∈ Terminal.symbols, ∀ c ∈ s.1.head?,
    isWordStart c = false ∧ Text.digit? c = none ∧ isLayout c = false := by
  have htable : ∀ s ∈ Terminal.symbols, s.1.head?.all (fun c =>
      !isWordStart c && (Text.digit? c).isNone && !isLayout c) = true := by decide
  intro s hs c hc
  have hplain := htable s hs
  rw [Option.mem_def.1 hc] at hplain
  simpa [and_assoc] using hplain

theorem symbols_descending :
    Terminal.symbols.Pairwise fun s s' => s'.1.length ≤ s.1.length := by
  decide

theorem symbols_unique : ∀ s ∈ Terminal.symbols, ∀ s' ∈ Terminal.symbols, s.1 = s'.1 → s = s' := by
  decide

/-- The first sign that is found is one of the longest. -/
theorem length_le_of_find? {s s' : List Char × Terminal} {p : List Char × Terminal → Bool}
    (hfind : Terminal.symbols.find? p = some s) (hs' : s' ∈ Terminal.symbols) (hp : p s' = true) :
    s'.1.length ≤ s.1.length := by
  obtain ⟨_, before, after, heq, hbefore⟩ := List.find?_eq_some_iff_append.1 hfind
  have hdescending := symbols_descending
  rw [heq] at hs' hdescending
  rcases List.mem_append.1 hs' with hmem | hmem
  · have hno := hbefore s' hmem
    simp [hp] at hno
  · rcases List.mem_cons.1 hmem with rfl | hmem
    · exact Nat.le_refl _
    · exact (List.pairwise_cons.1 (List.pairwise_append.1 hdescending).2.1).1 s' hmem

theorem lexeme?_symbol {sign : List Char} {t : Terminal} (hs : (sign, t) ∈ Terminal.symbols)
    (hlong : ∀ s ∈ Terminal.symbols, accepts s.2 = true → s.1 <+: sign ++ rest →
      s.1.length ≤ sign.length) (ha : accepts t = true) :
    lexeme? accepts (sign ++ rest) = some (⟨t, sign⟩, rest) := by
  have hqualifies : (fun s : List Char × Terminal =>
      accepts s.2 && s.1.isPrefixOf (sign ++ rest)) (sign, t) = true := by
    simp [ha]
  have hfind : Terminal.symbols.find? (fun s => accepts s.2 && s.1.isPrefixOf (sign ++ rest)) =
      some (sign, t) := by
    rcases hfound : Terminal.symbols.find? _ with _ | s
    · have hmiss := List.find?_eq_none.1 hfound _ hs
      exact absurd hqualifies hmiss
    · have hmem := List.mem_of_find?_eq_some hfound
      have hsome := List.find?_some hfound
      simp only [Bool.and_eq_true, List.isPrefixOf_iff_prefix] at hsome
      have hle := hlong s hmem hsome.1 hsome.2
      have hge : sign.length ≤ s.1.length := length_le_of_find? hfound hs hqualifies
      have htext : s.1 = sign :=
        (List.prefix_of_prefix_length_le hsome.2 (List.prefix_append sign rest) hle).eq_of_length
          (by omega)
      rw [symbols_unique s hmem _ hs htext]
  rcases sign with _ | ⟨c, sign⟩
  · exact absurd rfl (symbols_nonempty _ hs)
  · obtain ⟨hword, hdigit, _⟩ := symbols_plain _ hs c rfl
    unfold lexeme?
    simp only [List.cons_append] at hfind ⊢
    simp only [hword, hdigit, hfind, Option.isSome_none, Bool.false_eq_true, if_false,
      Option.map_some]
    simp

theorem lexeme?_of_taken (h : Taken accepts l rest) :
    lexeme? accepts (l.text ++ rest) = some (l, rest) := by
  cases h with
  | keyword hw hend hk ha =>
    have ht := wordTerminal_keyword hk ha
    have hlexeme := lexeme?_word hw hend (by rw [ht, ha])
    rwa [ht] at hlexeme
  | name hw hend hk ha =>
    have ht := wordTerminal_name hk
    have hlexeme := lexeme?_word hw hend (by rw [ht, ha])
    rwa [ht] at hlexeme
  | number hs hlong ha => exact lexeme?_number hs hlong ha
  | symbol hs hlong _ ha => exact lexeme?_symbol hs hlong ha

/-- Where no comment starts, what is taken is the lexeme of the place. -/
theorem taken_of_lexeme? (hc : ¬ ['/', '/'] <+: cs) (h : lexeme? accepts cs = some (l, rest)) :
    cs = l.text ++ rest ∧ Taken accepts l rest := by
  unfold lexeme? at h
  split at h
  · cases h
  · rename_i c tail
    split at h
    · rename_i hstart
      simp only [Option.ite_none_right_eq_some, Option.some.injEq, Prod.mk.injEq] at h
      obtain ⟨ha, rfl, rfl⟩ := h
      refine ⟨(List.takeWhile_append_dropWhile).symm, ?_⟩
      have hend : ∀ d ∈ ((c :: tail).dropWhile isWordPart).head?, isWordPart d = false := by
        intro d hd
        have hnot := List.head?_dropWhile_not isWordPart (c :: tail)
        rw [Option.mem_def.1 hd] at hnot
        exact hnot
      have hword := isWord_takeWhile hstart tail
      by_cases hident : wordTerminal accepts ((c :: tail).takeWhile isWordPart) = .ident
      · rw [hident] at ha ⊢
        refine .name hword hend ?_ ha
        intro k hk heq
        rw [Bool.eq_false_iff]
        exact fun hacc => keyword_ne_of_ident hident k hk hacc heq
      · refine .keyword hword hend ?_ ha
        unfold wordTerminal at hident ⊢
        split at hident
        · rename_i k hfind
          have hsome := List.find?_some hfind
          simp only [Bool.and_eq_true, decide_eq_true_eq] at hsome
          rw [← hsome.1]
          exact List.mem_of_find?_eq_some hfind
        · exact absurd rfl hident
    · split at h
      · split at h
        · rename_i spelled after hscan
          split at h
          · rename_i ha
            simp only [Option.some.injEq, Prod.mk.injEq] at h
            obtain ⟨rfl, rfl⟩ := h
            obtain ⟨text, htext, hspells⟩ := spells_of_scan? hscan
            have htake : (c :: tail).take ((c :: tail).length - after.length) = text := by
              rw [htext]
              simp
            rw [htake]
            refine ⟨htext, .number hspells ?_ ha⟩
            intro other rest' spelled' hother heq
            rw [htext, ← heq] at hscan
            have hle := scan?_rest hother hscan
            have hlengths := congrArg List.length heq
            simp only [List.length_append] at hlengths
            omega
          · cases h
        · cases h
      · obtain ⟨s, hfind, heq⟩ := Option.map_eq_some_iff.1 h
        have hmem := List.mem_of_find?_eq_some hfind
        have hsome := List.find?_some hfind
        simp only [Bool.and_eq_true, List.isPrefixOf_iff_prefix] at hsome
        simp only [Prod.mk.injEq] at heq
        obtain ⟨rfl, rfl⟩ := heq
        have hsplit : c :: tail = s.1 ++ (c :: tail).drop s.1.length :=
          List.prefix_iff_eq_append.1 hsome.2 |>.symm
        refine ⟨hsplit, .symbol hmem ?_ ?_ hsome.1⟩
        · intro s' hs' ha hprefix
          rw [← hsplit] at hprefix
          exact length_le_of_find? hfind hs' (by simp [ha, hprefix])
        · rwa [← hsplit]

end taking

/-! ## Skipping layout -/

theorem layout_of_wordStart {c : Char} (h : isWordStart c = true) : isLayout c = false := by
  rw [Bool.eq_false_iff]
  intro hl
  simp only [isLayout, Bool.or_eq_true, beq_iff_eq] at hl
  rcases hl with (((rfl | rfl) | rfl) | rfl) | rfl <;> cases h

theorem layout_of_digit {c : Char} (h : (Text.digit? c).isSome = true) : isLayout c = false := by
  rw [Bool.eq_false_iff]
  intro hl
  simp only [isLayout, Bool.or_eq_true, beq_iff_eq] at hl
  rcases hl with (((rfl | rfl) | rfl) | rfl) | rfl <;> exact absurd h (by decide)

/-- A comment goes on to the end of its line. -/
theorem skipLayout_comment (cs : List Char) :
    skipLayout true cs = skipLayout false (cs.dropWhile (· != '\n')) := by
  induction cs with
  | nil => rfl
  | cons c cs ih =>
    by_cases hc : c = '\n'
    · subst hc
      rfl
    · have hne : (c != '\n') = true := by simpa using hc
      rw [skipLayout, hne, ih]
      simp only [List.dropWhile_cons, hne, if_true]

theorem skipLayout_slashes (cs : List Char) :
    skipLayout false ('/' :: '/' :: cs) = skipLayout false (cs.dropWhile (· != '\n')) := by
  rw [← skipLayout_comment]
  rfl

theorem skipLayout_open {body : List Char} (hb : '\n' ∉ body) (cs : List Char) :
    skipLayout true (body ++ cs) = skipLayout true cs := by
  induction body with
  | nil => rfl
  | cons c body ih =>
    obtain ⟨hc, hb⟩ := not_or.1 (mt List.mem_cons.2 hb)
    have hne : (c != '\n') = true := by simpa using Ne.symm hc
    rw [List.cons_append, skipLayout, hne, ih hb]

theorem skipLayout_body {body cs : List Char} (hb : '\n' ∉ body) (hend : ∀ c ∈ cs.head?, c = '\n') :
    skipLayout false ('/' :: '/' :: (body ++ cs)) = skipLayout false cs := by
  have hopen : skipLayout false ('/' :: '/' :: (body ++ cs)) = skipLayout true cs :=
    skipLayout_open hb cs
  rw [hopen]
  rcases cs with _ | ⟨c, cs⟩
  · rfl
  · rw [hend c rfl]
    rfl

theorem skipLayout_layout {c : Char} (hc : isLayout c = true) (cs : List Char) :
    skipLayout false (c :: cs) = skipLayout false cs := by
  rw [skipLayout, if_pos hc]

theorem skipLayout_self {c : Char} {cs : List Char} (hc : isLayout c = false)
    (hs : ¬ ['/', '/'] <+: c :: cs) : skipLayout false (c :: cs) = c :: cs := by
  have hslash : (c == '/' && cs.head? == some '/') = false := by
    rw [Bool.eq_false_iff]
    intro h
    simp only [Bool.and_eq_true, beq_iff_eq] at h
    obtain ⟨rfl, hhead⟩ := h
    obtain ⟨tail, rfl⟩ := List.head?_eq_some_iff.1 hhead
    exact hs ⟨tail, rfl⟩
  rw [skipLayout, if_neg (by simp [hc]), hslash]
  rfl

/-- The first character of a lexeme is no layout, and starts no comment. -/
theorem Taken.solid {accepts : Terminal → Bool} {l : Lexeme} {rest : List Char}
    (h : Taken accepts l rest) : ∃ c cs, l.text ++ rest = c :: cs ∧ isLayout c = false ∧
      ¬ ['/', '/'] <+: l.text ++ rest := by
  have hslash : ∀ {c : Char} {cs : List Char}, c ≠ '/' → ¬ ['/', '/'] <+: c :: cs := by
    intro c cs hc hprefix
    exact hc (List.cons_prefix_cons.1 hprefix).1.symm
  cases h with
  | keyword hw _ _ _ =>
    obtain ⟨c, tail, rfl, hc, _⟩ := hw
    exact ⟨c, _, rfl, layout_of_wordStart hc, hslash (by rintro rfl; cases hc)⟩
  | name hw _ _ _ =>
    obtain ⟨c, tail, rfl, hc, _⟩ := hw
    exact ⟨c, _, rfl, layout_of_wordStart hc, hslash (by rintro rfl; cases hc)⟩
  | number hs _ _ =>
    obtain ⟨c, tail, rfl, hc⟩ := hs.head
    exact ⟨c, _, rfl, layout_of_digit hc, hslash (by rintro rfl; exact absurd hc (by decide))⟩
  | @symbol sign rest t hs _ hc _ =>
    rcases sign with _ | ⟨c, sign⟩
    · exact absurd rfl (symbols_nonempty _ hs)
    · exact ⟨c, _, rfl, (symbols_plain _ hs c rfl).2.2, hc⟩

theorem skipLayout_taken {accepts : Terminal → Bool} {l : Lexeme} {rest : List Char}
    (h : Taken accepts l rest) : skipLayout false (l.text ++ rest) = l.text ++ rest := by
  obtain ⟨c, cs, heq, hc, hs⟩ := h.solid
  rw [heq] at hs ⊢
  exact skipLayout_self hc hs

theorem lexes_skipLayout {place : Place} {cs : List Char} {ls : List Lexeme}
    (h : Lexes place (skipLayout false cs) ls) : Lexes place cs ls := by
  induction hn : cs.length using Nat.strongRecOn generalizing cs with
  | _ n ih =>
    subst hn
    rcases cs with _ | ⟨c, cs⟩
    · exact h
    · by_cases hc : isLayout c = true
      · rw [skipLayout_layout hc] at h
        exact .layout hc (ih cs.length (by simp) h rfl)
      · by_cases hs : ['/', '/'] <+: c :: cs
        · obtain ⟨tail, rfl, rfl⟩ : ∃ tail, c = '/' ∧ cs = '/' :: tail := by
            obtain ⟨tail, htail⟩ := hs
            exact ⟨tail, (List.cons.inj htail).1.symm, (List.cons.inj htail).2.symm⟩
          rw [skipLayout_slashes] at h
          have hshort := (List.dropWhile_sublist (· != '\n') (l := tail)).length_le
          have hrest := ih (tail.dropWhile (· != '\n')).length (by simp; omega) h rfl
          have hbody : '\n' ∉ tail.takeWhile (· != '\n') := by
            intro hmem
            have hall := List.all_takeWhile (p := (· != '\n')) (l := tail)
            simpa using List.all_eq_true.1 hall _ hmem
          have hend : ∀ d ∈ (tail.dropWhile (· != '\n')).head?, d = '\n' := by
            intro d hd
            have hnot := List.head?_dropWhile_not (· != '\n') tail
            rw [Option.mem_def.1 hd] at hnot
            simpa using hnot
          have hcomment := Lexes.comment hbody hend hrest
          rwa [List.takeWhile_append_dropWhile] at hcomment
        · rwa [skipLayout_self (by simpa using hc) hs] at h

theorem skipLayout_lexes {place : Place} {cs : List Char} {ls : List Lexeme}
    (h : Lexes place cs ls) : (skipLayout false cs = [] ∧ ls = []) ∨
      ∃ l rest ls', skipLayout false cs = l.text ++ rest ∧ ls = l :: ls' ∧
        Taken place.accepts l rest ∧ Lexes (place.after l.terminal) rest ls' := by
  induction h with
  | done => exact Or.inl ⟨rfl, rfl⟩
  | layout hc _ ih => rwa [skipLayout_layout hc]
  | comment hb hend _ ih => rwa [skipLayout_body hb hend]
  | lexeme ht h _ => exact Or.inr ⟨_, _, _, skipLayout_taken ht, rfl, ht, h⟩

theorem lexes_nil_iff {place : Place} {cs : List Char} :
    Lexes place cs [] ↔ skipLayout false cs = [] := by
  constructor
  · intro h
    rcases skipLayout_lexes h with ⟨hcs, _⟩ | ⟨l, rest, ls', _, hls, _⟩
    · exact hcs
    · cases hls
  · intro h
    apply lexes_skipLayout
    rw [h]
    exact .done place

/-- Where no layout stands, no comment starts. -/
theorem skipLayout_solid (cs : List Char) : ¬ ['/', '/'] <+: skipLayout false cs := by
  suffices h : ∀ flag, ¬ ['/', '/'] <+: skipLayout flag cs from h false
  intro flag
  fun_induction skipLayout flag cs with
  | case1 => simp
  | case2 c cs ih => exact ih
  | case3 c cs hc ih => exact ih
  | case4 c cs hc hs ih => exact ih
  | case5 c cs hc hs =>
    rintro ⟨tail, htail⟩
    apply hs
    rw [← (List.cons.inj htail).1, ← (List.cons.inj htail).2]
    rfl

theorem lexes_cons_iff {place : Place} {cs : List Char} {l : Lexeme} {ls : List Lexeme} :
    Lexes place cs (l :: ls) ↔
      ∃ rest, lexeme? place.accepts (skipLayout false cs) = some (l, rest) ∧
        Lexes (place.after l.terminal) rest ls := by
  constructor
  · intro h
    rcases skipLayout_lexes h with ⟨_, hls⟩ | ⟨l', rest, ls', hcs, hls, ht, hrest⟩
    · cases hls
    · cases hls
      exact ⟨rest, by rw [hcs, lexeme?_of_taken ht], hrest⟩
  · rintro ⟨rest, hl, hrest⟩
    obtain ⟨hcs, ht⟩ := taken_of_lexeme? (skipLayout_solid cs) hl
    apply lexes_skipLayout
    rw [hcs]
    exact .lexeme ht hrest

/-- A text has one sequence of lexemes at most. -/
theorem lexes_unique {place : Place} {cs : List Char} {ls ls' : List Lexeme}
    (h : Lexes place cs ls) (h' : Lexes place cs ls') : ls = ls' := by
  induction ls generalizing place cs ls' with
  | nil =>
    rcases ls' with _ | ⟨l', ls'⟩
    · rfl
    · obtain ⟨rest, hl, _⟩ := lexes_cons_iff.1 h'
      rw [lexes_nil_iff.1 h] at hl
      cases hl
  | cons l ls ih =>
    obtain ⟨rest, hl, hrest⟩ := lexes_cons_iff.1 h
    rcases ls' with _ | ⟨l', ls'⟩
    · rw [lexes_nil_iff.1 h'] at hl
      cases hl
    · obtain ⟨rest', hl', hrest'⟩ := lexes_cons_iff.1 h'
      cases hl.symm.trans hl'
      rw [ih hrest hrest']

end BellaLang.Source
