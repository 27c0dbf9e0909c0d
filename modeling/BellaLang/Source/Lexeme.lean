-- Lexemes: what stands between the layout of a source text. A lexeme is taken
-- from the start of the text, among the terminals that are looked for there.
import BellaLang.Number.Read
import BellaLang.Source.Terminal

namespace BellaLang.Source

/-! ## Layout -/

/-- Whether a character separates lexemes and means nothing else. -/
def isLayout (c : Char) : Bool :=
  c == ' ' || c == '\t' || c == '\n' || c == '\r' || c == '\x0c'

/-- The text from its first lexeme on. Layout is skipped, and so is a comment, which runs from
two slashes to the end of its line; the flag tells whether the text starts inside a comment. -/
def skipLayout : Bool → List Char → List Char
  | _, [] => []
  | true, c :: cs => skipLayout (c != '\n') cs
  | false, c :: cs =>
    if isLayout c then skipLayout false cs
    else if c == '/' && cs.head? == some '/' then skipLayout true cs
    else c :: cs

/-! ## Words -/

def isWordStart (c : Char) : Bool :=
  ('a'.toNat ≤ c.toNat && c.toNat ≤ 'z'.toNat) || ('A'.toNat ≤ c.toNat && c.toNat ≤ 'Z'.toNat)
    || c == '_'

def isWordPart (c : Char) : Bool :=
  isWordStart c || ('0'.toNat ≤ c.toNat && c.toNat ≤ '9'.toNat)

/-- The terminal that a word is where the given terminals are looked for. -/
def wordTerminal (accepts : Terminal → Bool) (word : List Char) : Terminal :=
  match Terminal.keywords.find? fun k => k.1 = word && accepts k.2 with
  | some k => k.2
  | none => .ident

/-! ## Lexemes -/

/-- A terminal as it is spelled in the text. -/
structure Lexeme where
  terminal : Terminal
  text : List Char
  deriving DecidableEq, Repr

def Lexeme.number (lexeme : Lexeme) : Number :=
  match Number.scan? Text.digit? lexeme.text with
  | some (spelled, _) => spelled.toNumber
  | none => 0

/-- The lexeme at the start of a text that does not start with layout, if one of the given
terminals stands there, and the text that follows it. -/
def lexeme? (accepts : Terminal → Bool) (cs : List Char) : Option (Lexeme × List Char) :=
  match cs with
  | [] => none
  | c :: _ =>
    if isWordStart c then
      let word := cs.takeWhile isWordPart
      let terminal := wordTerminal accepts word
      if accepts terminal then some (⟨terminal, word⟩, cs.dropWhile isWordPart) else none
    else if (Text.digit? c).isSome then
      match Number.scan? Text.digit? cs with
      | some (_, rest) =>
        if accepts .number then some (⟨.number, cs.take (cs.length - rest.length)⟩, rest)
        else none
      | none => none
    else
      (Terminal.symbols.find? fun s => accepts s.2 && s.1.isPrefixOf cs).map fun s =>
        (⟨s.2, s.1⟩, cs.drop s.1.length)

/-! ## Progress -/

theorem skipLayout_length (comment : Bool) (cs : List Char) :
    (skipLayout comment cs).length ≤ cs.length := by
  fun_induction skipLayout comment cs <;> simp_all <;> omega

theorem symbols_nonempty : ∀ s ∈ Terminal.symbols, s.1 ≠ [] := by decide

/-- A lexeme takes a character at least. -/
theorem lexeme?_length {accepts : Terminal → Bool} {cs rest : List Char} {l : Lexeme}
    (h : lexeme? accepts cs = some (l, rest)) : rest.length < cs.length := by
  unfold lexeme? at h
  split at h
  · simp at h
  · rename_i c tail
    split at h
    · rename_i hc
      have hpart : isWordPart c = true := by simp [isWordPart, hc]
      have := (List.dropWhile_sublist isWordPart (l := tail)).length_le
      simp only [Option.ite_none_right_eq_some, Option.some.injEq, Prod.mk.injEq] at h
      rw [← h.2.2, List.dropWhile_cons_of_pos hpart]
      simp
      omega
    · split at h
      · split at h
        · rename_i hscan
          have := Number.scan?_length hscan
          split at h <;> simp at h
          rw [← h.2]
          exact this
        · simp at h
      · obtain ⟨s, hs, heq⟩ := Option.map_eq_some_iff.1 h
        have hne := symbols_nonempty s (List.mem_of_find?_eq_some hs)
        have := List.length_pos_iff.2 hne
        simp only [Prod.mk.injEq] at heq
        rw [← heq.2]
        simp
        omega

/-- A lexeme after some layout leaves less than the whole text. -/
theorem lexeme?_after_layout {accepts : Terminal → Bool} {cs tail rest : List Char} {c : Char}
    {l : Lexeme} (hs : skipLayout false cs = c :: tail)
    (hl : lexeme? accepts (c :: tail) = some (l, rest)) : rest.length < cs.length := by
  have hlayout := skipLayout_length false cs
  rw [hs] at hlayout
  exact Nat.lt_of_lt_of_le (lexeme?_length hl) hlayout

end BellaLang.Source
