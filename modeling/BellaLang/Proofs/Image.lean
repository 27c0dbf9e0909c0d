-- The image of the reader. What a source text may hold is said without its
-- terminals, and every well-sorted program of such parts is the program of some
-- text: its expressions are written in parentheses throughout.
import BellaLang.Proofs.Literals
import BellaLang.Proofs.Printing

namespace BellaLang

open Float.Model Number

/-! ## Numbers without a sign -/

theorem nonneg_of_unpack {x : Number} {m : ℕ} {k : ℤ} {hm : 0 < m}
    (h : x.toModel.unpack = .finite .positive m k hm) : 0.0 ≤ x := by
  have hzero : (0.0 : Number).toModel.unpack = .zero .positive := rfl
  have hle : UnpackedFloat.le (0.0 : Number).toModel.unpack x.toModel.unpack = true := by
    rw [h, hzero]
    rfl
  exact decide_eq_true hle

/-- The numbers without a sign are the doubles from zero up, with infinity and without negative
zero. -/
theorem unsigned_iff {x : Number} : x.Unsigned ↔ 0.0 ≤ x ∧ x ≠ -0.0 := by
  constructor
  · intro h
    cases h with
    | zero => decide
    | infinity => decide
    | finite h =>
      refine ⟨nonneg_of_unpack h, ?_⟩
      rintro rfl
      cases h
  · rintro ⟨hle, hne⟩
    have hunpacked : UnpackedFloat.le (.zero .positive) x.toModel.unpack = true :=
      of_decide_eq_true hle
    apply unsigned_of_signed
    rcases hunpack : x.toModel.unpack with s | _ | s | ⟨s, m, k, hm⟩ <;> rw [hunpack] at hunpacked
    · cases s with
      | positive => exact .infinity
      | negative => cases hunpacked
    · cases hunpacked
    · cases s with
      | positive => exact .zero
      | negative =>
        have hx : x = .ofModel (.pack (.zero .negative)) := by rw [← hunpack, pack_unpack]
        exact absurd (hx.trans (by decide)) hne
    · cases s with
      | positive => exact .finite _ _ _
      | negative => exact absurd hle (not_nonneg_of_unpack hunpack)

/-- A numeral spells any number without a sign, infinity too. -/
theorem exists_spells_iff {x : Number} :
    (∃ text s, Spells text s ∧ x = s.toNumber) ↔ x.Unsigned := by
  constructor
  · rintro ⟨text, s, _, rfl⟩
    exact unsigned_toNumber s
  · intro h
    rcases literal_of_unsigned h .printed with ⟨rfl, _⟩ | ⟨s, hs, _, hx⟩
    · -- No literal form is read as infinity, but a number that is too great is.
      obtain ⟨text, _, hs⟩ := spells_of_scan?
        (show Number.scan? Text.digit? "1e309".toList = some (⟨[1], [], some 309⟩, []) by decide)
      exact ⟨text, _, hs, by decide +kernel⟩
    · exact ⟨_, s, hs, hx.symm⟩

end BellaLang

namespace BellaLang.Source

/-! ## The vocabulary of source texts -/

/-- A name matches `[A-Za-z_][A-Za-z0-9_]*`. -/
def IsIdentifier (name : Text) : Prop :=
  ∃ c tail, name = .ofChars (c :: tail) ∧ (c.isAlpha ∨ c = '_') ∧
    ∀ d ∈ tail, d.isAlphanum ∨ d = '_'

/-- What the tree of a source text may hold. -/
def image : Vocabulary where
  declared x := IsIdentifier x
  assigned x := IsIdentifier x ∧ x ∉ (["let", "func", "print", "while"] : List Text)
  used x := IsIdentifier x ∧ x ∉ (["true", "false"] : List Text)
  unary op := op ∈ (["-", "+", "!"] : List Text)
  binary op := op ∈ (["||", "&&", "==", "!=", "<", ">", "<=", ">=", "+", "-", "*", "/", "%"] :
    List Text)
  numeral x := 0.0 ≤ x ∧ x ≠ -0.0

theorem isWordStart_iff (c : Char) : isWordStart c = true ↔ c.isAlpha ∨ c = '_' := by
  simp only [isWordStart, Char.isAlpha, Char.isUpper, Char.isLower, UInt32.le_iff_toNat_le]
  simp
  tauto

theorem isWordPart_iff (c : Char) : isWordPart c = true ↔ c.isAlphanum ∨ c = '_' := by
  simp [isWordPart, isWordStart_iff, Char.isAlphanum, Char.isDigit, UInt32.le_iff_toNat_le]
  tauto

theorem ofChars_injective : Function.Injective Text.ofChars :=
  List.map_injective_iff.2 fun _ _ h => CodePoint.char.inj h

/-- A word is a name unless it spells a keyword that is reserved. -/
theorem isName_iff {reserved : List Terminal} {words : List Text}
    (hwords : (Terminal.keywords.filter fun k => k.2 ∈ reserved).map (fun k => .ofChars k.1) =
      words) {name : Text} : IsName reserved name ↔ IsIdentifier name ∧ name ∉ words := by
  have hword : ∀ word, IsWord word ↔ ∃ c tail, word = c :: tail ∧ (c.isAlpha ∨ c = '_') ∧
      ∀ d ∈ tail, d.isAlphanum ∨ d = '_' := by
    simp [IsWord, isWordStart_iff, isWordPart_iff]
  have hmem : ∀ word, Text.ofChars word ∈ words ↔ ∃ k ∈ Terminal.keywords, k.2 ∈ reserved ∧
      k.1 = word := by
    intro word
    simp [← hwords, ofChars_injective.eq_iff, and_assoc]
  constructor
  · rintro ⟨word, rfl, h, hk⟩
    obtain ⟨c, tail, rfl, hc, htail⟩ := (hword word).1 h
    refine ⟨⟨c, tail, rfl, hc, htail⟩, ?_⟩
    rw [hmem]
    rintro ⟨k, hkey, hr, heq⟩
    exact hk k hkey hr heq
  · rintro ⟨⟨c, tail, rfl, hc, htail⟩, hnot⟩
    rw [hmem] at hnot
    exact ⟨c :: tail, rfl, (hword _).2 ⟨c, tail, rfl, hc, htail⟩,
      fun k hkey hr heq => hnot ⟨k, hkey, hr, heq⟩⟩

theorem isName_declared {name : Text} : IsName [] name ↔ image.declared name := by
  rw [isName_iff rfl]
  exact and_iff_left (List.not_mem_nil)

theorem isName_assigned {name : Text} : IsName statementWords name ↔ image.assigned name :=
  isName_iff rfl

theorem isName_used {name : Text} : IsName operandWords name ↔ image.used name :=
  isName_iff rfl

theorem unary_iff {op : Text} : vocabulary.unary op ↔ image.unary op := by
  have hall : ∀ u, u ∈ UnaryOp.all := by intro u; cases u <;> decide
  have hlist : image.unary op ↔ op ∈ UnaryOp.all.map fun u => (u.symbol : Text) := Iff.rfl
  simp [hlist, vocabulary, hall, eq_comm]

theorem binary_iff {op : Text} : vocabulary.binary op ↔ image.binary op := by
  have hall : ∀ b, b ∈ BinaryOp.all := by intro b; cases b <;> decide
  have hlist : image.binary op ↔ op ∈ BinaryOp.all.map fun b => (b.symbol : Text) := Iff.rfl
  simp [hlist, vocabulary, hall, eq_comm]

theorem vocabulary_within_image : vocabulary.Within image where
  declared _ := isName_declared.1
  assigned _ := isName_assigned.1
  used _ := isName_used.1
  unary _ := unary_iff.1
  binary _ := binary_iff.1
  numeral _ h := unsigned_iff.1 (exists_spells_iff.1 h)

theorem image_within_vocabulary : image.Within vocabulary where
  declared _ := isName_declared.2
  assigned _ := isName_assigned.2
  used _ := isName_used.2
  unary _ := unary_iff.2
  binary _ := binary_iff.2
  numeral _ h := exists_spells_iff.2 (unsigned_iff.2 h)

/-! ## A text for every program -/

section writing

variable {e statement : Node} {nodes : List Node}

/-- An expression that stands in parentheses is one of any level. -/
theorem exists_writes_group (h : ∃ words, Writes (.expr 0) words e) :
    ∃ words, Writes (.expr 9) words e := by
  obtain ⟨words, hw⟩ := h
  exact ⟨_, writes_group hw⟩

theorem exists_writes_moreArgs (h : ∀ a ∈ nodes, ∃ words, Writes (.expr 9) words a) :
    ∃ words, Writes .moreArgs words nodes := by
  induction nodes with
  | nil => exact ⟨_, writes_lastArg⟩
  | cons arg args ih =>
    rw [List.forall_mem_cons] at h
    obtain ⟨⟨words, hw⟩, hargs⟩ := h
    obtain ⟨more, hmore⟩ := ih hargs
    exact ⟨_, writes_nextArg (hw.lower (Nat.zero_le 9) (Nat.le_refl 9)) hmore⟩

theorem exists_writes_args (h : ∀ a ∈ nodes, ∃ words, Writes (.expr 9) words a) :
    ∃ words, Writes .args words nodes := by
  rcases nodes with _ | ⟨arg, args⟩
  · exact ⟨_, writes_noArgs⟩
  · rw [List.forall_mem_cons] at h
    obtain ⟨⟨words, hw⟩, hargs⟩ := h
    obtain ⟨more, hmore⟩ := exists_writes_moreArgs hargs
    exact ⟨_, writes_someArgs (hw.lower (Nat.zero_le 9) (Nat.le_refl 9)) hmore⟩

/-- Whatever an expression is made of, it has words: all its compound parts are put in
parentheses. -/
theorem exists_writes_expr (h : e.IsExpr vocabulary) : ∃ words, Writes (.expr 9) words e := by
  have hlower : ∀ {level : ℕ} {words : List Text} {e : Node}, level ≤ 9 →
      Writes (.expr 9) words e → Writes (.expr level) words e :=
    fun hlevel hw => hw.lower hlevel (Nat.le_refl 9)
  induction h with
  | numeral hx =>
    obtain ⟨text, s, hs, rfl⟩ := hx
    exact ⟨_, writes_numeral hs⟩
  | booleanLiteral b => exact ⟨_, writes_booleanLiteral b⟩
  | identifier hx => exact ⟨_, writes_identifier hx⟩
  | unary hop _ ih =>
    obtain ⟨op, rfl⟩ := hop
    obtain ⟨words, hw⟩ := ih
    exact exists_writes_group
      ⟨_, (writes_unary op (hlower (by decide) hw)).lower (by decide) (by decide)⟩
  | binary hop _ _ ihl ihr =>
    obtain ⟨op, rfl⟩ := hop
    obtain ⟨left, hl⟩ := ihl
    obtain ⟨right, hr⟩ := ihr
    have hbounds := level_bounds op
    exact exists_writes_group ⟨_, (writes_binary op (hlower (by omega) hl)
      (hlower (by omega) hr)).lower (Nat.zero_le _) (by omega)⟩
  | call hc _ ih =>
    obtain ⟨words, hw⟩ := exists_writes_args ih
    exact ⟨_, writes_call hc hw⟩
  | conditional _ _ _ iht ihc iha =>
    obtain ⟨test, ht⟩ := iht
    obtain ⟨consequent, hc⟩ := ihc
    obtain ⟨alternate, ha⟩ := iha
    exact exists_writes_group ⟨_, writes_conditional (hlower (by decide) ht)
      (hlower (by decide) hc) (hlower (by decide) ha)⟩
  | arrayLiteral _ ih =>
    obtain ⟨words, hw⟩ := exists_writes_args ih
    exact ⟨_, writes_arrayLiteral hw⟩
  | subscript _ _ iha ihi =>
    obtain ⟨array, ha⟩ := iha
    obtain ⟨index, hi⟩ := ihi
    exact exists_writes_group ⟨_, (writes_subscript (hlower (by decide) ha)
      (hlower (by decide) hi)).lower (by decide) (by decide)⟩

theorem exists_writes_items (h : ∀ s ∈ nodes, ∃ words, Writes .statement words s) :
    ∃ words, Writes .items words nodes := by
  induction nodes with
  | nil => exact ⟨_, writes_noItems⟩
  | cons statement statements ih =>
    rw [List.forall_mem_cons] at h
    obtain ⟨⟨words, hw⟩, hstatements⟩ := h
    obtain ⟨items, hitems⟩ := ih hstatements
    exact ⟨_, writes_statementItem hw hitems⟩

theorem exists_writes_statement (h : statement.IsStatement vocabulary) :
    ∃ words, Writes .statement words statement := by
  have hexpr : ∀ {e : Node}, e.IsExpr vocabulary → ∃ words, Writes (.expr 0) words e := by
    intro e he
    obtain ⟨words, hw⟩ := exists_writes_expr he
    exact ⟨words, hw.lower (Nat.zero_le 9) (Nat.le_refl 9)⟩
  induction h with
  | variableDeclaration hx he =>
    obtain ⟨words, hw⟩ := hexpr he
    exact ⟨_, writes_variableDeclaration hx hw⟩
  | functionDeclaration hx hp he =>
    obtain ⟨words, hw⟩ := hexpr he
    exact ⟨_, writes_functionDeclaration hx (writes_params hp) hw⟩
  | assignment hx he =>
    obtain ⟨words, hw⟩ := hexpr he
    exact ⟨_, writes_assignment hx hw⟩
  | printStatement he =>
    obtain ⟨words, hw⟩ := hexpr he
    exact ⟨_, writes_printStatement hw⟩
  | whileStatement ht _ ih =>
    obtain ⟨test, htest⟩ := hexpr ht
    obtain ⟨items, hitems⟩ := exists_writes_items ih
    exact ⟨_, writes_whileStatement htest (writes_block hitems)⟩

end writing

/-- A program is read from some text if and only if its names, its operators and its numbers are
those that may stand where they stand. -/
theorem the_parsed_programs_are_the_image (program : Node) :
    (∃ text, parse text = .ok program) ↔ program.IsProgram image := by
  constructor
  · rintro ⟨text, h⟩
    exact (parse_isProgram h).mono vocabulary_within_image
  · intro h
    obtain ⟨hstatements⟩ := h.mono image_within_vocabulary
    obtain ⟨words, hw⟩ := exists_writes_items fun s hs => exists_writes_statement (hstatements s hs)
    exact ⟨_, parse_of_writes (writes_program hw) (laid_join words)⟩

end BellaLang.Source
