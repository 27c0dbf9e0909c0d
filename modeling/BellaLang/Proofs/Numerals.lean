-- Every number that a source text may hold is one that reading a number from a
-- text accepts, with the same value: the source has no signs, blanks or
-- underscores of its own to allow for.
import BellaLang.Source.Lexeme

namespace BellaLang

open Number

/-! ## Digits -/

section digits

variable {c : Char}

/-- A digit stands in one of the runs of ten. -/
theorem digit?_isSome_iff :
    (Text.digit? c).isSome = true ↔ ∃ z ∈ Text.digitZeros, z ≤ c.toNat ∧ c.toNat < z + 10 := by
  simp [Text.digit?]

theorem digit_code (h : (Text.digit? c).isSome = true) :
    (48 ≤ c.toNat ∧ c.toNat ≤ 57) ∨ 0x660 ≤ c.toNat := by
  have hzeros : ∀ z ∈ Text.digitZeros, z = 48 ∨ 0x660 ≤ z := by decide
  obtain ⟨z, hz, hlow, hhigh⟩ := digit?_isSome_iff.1 h
  rcases hzeros z hz with rfl | hz
  · exact Or.inl ⟨hlow, by omega⟩
  · exact Or.inr (by omega)

theorem isBlank_of_digit (h : (Text.digit? c).isSome = true) : Text.isBlank c = false := by
  have hzeros : ∀ z ∈ Text.digitZeros, ∀ b ∈ Text.wideBlanks, ¬ (z ≤ b ∧ b < z + 10) := by decide
  obtain ⟨z, hz, hrange⟩ := digit?_isSome_iff.1 h
  have hwide : Text.wideBlanks.contains c.toNat = false := by
    rw [Bool.eq_false_iff, Ne, List.contains_iff_mem]
    exact fun hmem => hzeros z hz _ hmem hrange
  have hcode := digit_code h
  have hspace : (c == ' ') = false := by
    rw [Bool.eq_false_iff, Ne, beq_iff_eq]
    rintro rfl
    simp at hcode
  simp only [Text.isBlank, hwide, hspace, Bool.false_or, Bool.or_false, Bool.and_eq_false_iff,
    decide_eq_false_iff_not]
  omega

theorem toLower_of_digit (h : (Text.digit? c).isSome = true) : c.toLower = c := by
  have hcode := digit_code h
  unfold Char.toLower
  rw [dif_neg]
  rintro ⟨hlow, hhigh⟩
  have hlow : 65 ≤ c.toNat := hlow
  have hhigh : c.toNat ≤ 90 := hhigh
  omega

end digits

/-! ## Runs of digits -/

/-- The characters are digits with the given values. -/
def Spell (cs : List Char) (ds : List Nat) : Prop := cs.map Text.digit? = ds.map some

/-- The text does not go on with a digit. -/
def Stops (cs : List Char) : Prop := ∀ c ∈ cs.head?, Text.digit? c = none

section runs

variable {cs rest : List Char} {ds : List Nat}

theorem Spell.isSome (h : Spell cs ds) {c : Char} (hc : c ∈ cs) :
    (Text.digit? c).isSome = true := by
  have hmem : Text.digit? c ∈ ds.map some := h ▸ List.mem_map_of_mem hc
  obtain ⟨d, _, hd⟩ := List.mem_map.1 hmem
  rw [← hd]
  rfl

theorem Spell.length_eq (h : Spell cs ds) : cs.length = ds.length := by
  have hl := congrArg List.length h
  simpa using hl

/-- A run ends where the digits do, whatever counts as a digit. -/
theorem digitRun_append {digit? : Char → Option Nat} (h : cs.map digit? = ds.map some)
    (hr : ∀ c ∈ rest.head?, digit? c = none) : digitRun digit? (cs ++ rest) = (ds, rest) := by
  induction cs generalizing ds with
  | nil =>
    rcases ds with _ | ⟨d, ds⟩
    · rcases rest with _ | ⟨c, rest⟩
      · rfl
      · simp [digitRun, hr c (by simp)]
    · simp at h
  | cons c cs ih =>
    rcases ds with _ | ⟨d, ds⟩
    · simp at h
    · simp only [List.map_cons, List.cons.injEq] at h
      simp only [List.cons_append, digitRun, h.1, ih h.2]

theorem digitRun_spell (h : Spell cs ds) (hr : Stops rest) :
    digitRun Text.digit? (cs ++ rest) = (ds, rest) :=
  digitRun_append h hr

/-- A run is a prefix of the text, and it stops where the digits do. -/
theorem digitRun_eq (text : List Char) :
    ∃ run, text = run ++ (digitRun Text.digit? text).2 ∧
      Spell run (digitRun Text.digit? text).1 ∧ Stops (digitRun Text.digit? text).2 := by
  induction text with
  | nil => exact ⟨[], rfl, rfl, by simp [Stops, digitRun]⟩
  | cons c text ih =>
    obtain ⟨run, heq, hspell, hstops⟩ := ih
    rcases hd : Text.digit? c with _ | d
    · refine ⟨[], by simp [digitRun, hd], by simp [digitRun, hd, Spell], ?_⟩
      simp [Stops, digitRun, hd]
    · refine ⟨c :: run, ?_, ?_, ?_⟩
      · simp only [digitRun, hd, List.cons_append]
        rw [← heq]
      · simp only [Spell, digitRun, hd, List.map_cons]
        rw [hspell]
      · simp only [digitRun, hd]
        exact hstops

/-- Without underscores a grouped run is a plain one. -/
theorem groupedRun_spell (h : Spell cs ds) (hr : Stops rest) (hu : rest.head? ≠ some '_') :
    groupedRun (cs ++ rest) = (ds, rest) := by
  induction cs generalizing ds with
  | nil =>
    rcases ds with _ | ⟨d, ds⟩
    · rcases rest with _ | ⟨c, _ | ⟨next, rest⟩⟩
      · rfl
      · simp [groupedRun, hr c (by simp)]
      · simp [groupedRun, hr c (by simp)]
    · simp [Spell] at h
  | cons c cs ih =>
    rcases ds with _ | ⟨d, ds⟩
    · simp [Spell] at h
    · simp only [Spell, List.map_cons, List.cons.injEq] at h
      have hrest := ih h.2
      rcases hnext : cs ++ rest with _ | ⟨next, tail⟩
      · rw [hnext] at hrest
        simp only [List.cons_append, hnext, groupedRun, h.1]
        simp only [groupedRun] at hrest
        cases hrest
        rfl
      · have hne : next ≠ '_' := by
          rcases cs with _ | ⟨c', cs⟩
          · rintro rfl
            simp only [List.nil_append] at hnext
            rw [hnext] at hu
            exact hu rfl
          · rintro rfl
            cases hnext
            have hsome := Spell.isSome h.2 List.mem_cons_self
            exact absurd hsome (by decide)
        rw [hnext] at hrest
        simp only [List.cons_append, hnext, groupedRun, h.1, hne, if_false, hrest]

end runs

/-! ## How numbers are spelled -/

inductive SpellFraction : List Char → List Nat → Prop
  | absent : SpellFraction [] []
  | point {cs : List Char} {ds : List Nat} (h : Spell cs ds) (hne : ds ≠ []) :
      SpellFraction ('.' :: cs) ds

inductive SpellSign : List Char → Bool → Prop
  | absent : SpellSign [] false
  | minus : SpellSign ['-'] true
  | plus : SpellSign ['+'] false

inductive SpellExponent : List Char → Option Int → Prop
  | absent : SpellExponent [] none
  | mark {mark : Char} {sign cs : List Char} {negative : Bool} {ds : List Nat}
      (hm : mark = 'e' ∨ mark = 'E') (hs : SpellSign sign negative) (h : Spell cs ds)
      (hne : ds ≠ []) : SpellExponent (mark :: (sign ++ cs)) (some (signed negative ds))

/-- Digits, perhaps a point and digits, and perhaps a mark, a sign and digits. -/
inductive Spells : List Char → Spelled → Prop
  | parts {w f e : List Char} {whole fraction : List Nat} {exponent : Option Int}
      (hw : Spell w whole) (hne : whole ≠ []) (hf : SpellFraction f fraction)
      (he : SpellExponent e exponent) : Spells (w ++ (f ++ e)) ⟨whole, fraction, exponent⟩

/-- A number is made of digits, and of a point, marks and signs between them. -/
theorem digit_or_mark_of_spells {cs : List Char} {s : Spelled} (h : Spells cs s) :
    ∀ c ∈ cs, (Text.digit? c).isSome = true ∨ c ∈ ['.', 'e', 'E', '+', '-'] := by
  have hrun : ∀ {cs : List Char} {ds : List Nat}, Spell cs ds →
      ∀ c ∈ cs, (Text.digit? c).isSome = true ∨ c ∈ ['.', 'e', 'E', '+', '-'] :=
    fun hs c hc => Or.inl (hs.isSome hc)
  obtain ⟨hw, _, hf, he⟩ := h
  rw [List.forall_mem_append, List.forall_mem_append]
  refine ⟨hrun hw, ?_, ?_⟩
  · cases hf with
    | absent => simp
    | point h _ => exact List.forall_mem_cons.2 ⟨Or.inr (by simp), hrun h⟩
  · cases he with
    | absent => simp
    | mark hm hs h _ =>
      rw [List.forall_mem_cons, List.forall_mem_append]
      refine ⟨Or.inr (by rcases hm with rfl | rfl <;> simp), ?_, hrun h⟩
      cases hs <;> simp

section scanned

theorem fractionPart_eq (cs : List Char) :
    ∃ f, cs = f ++ (fractionPart Text.digit? cs).2 ∧
      SpellFraction f (fractionPart Text.digit? cs).1 := by
  unfold fractionPart
  split
  · rename_i rest
    obtain ⟨run, heq, hspell, _⟩ := digitRun_eq rest
    split
    · exact ⟨[], rfl, .absent⟩
    · rename_i digits hne
      exact ⟨'.' :: run, by rw [List.cons_append, ← heq], .point hspell fun h => hne _ (by
        rw [← h])⟩
  · exact ⟨[], rfl, .absent⟩

theorem signOf_eq (cs : List Char) :
    ∃ sign, cs = sign ++ (signOf cs).2 ∧ SpellSign sign (signOf cs).1 := by
  unfold signOf
  split
  · exact ⟨['-'], rfl, .minus⟩
  · exact ⟨['+'], rfl, .plus⟩
  · exact ⟨[], rfl, .absent⟩

theorem exponentPart_eq (cs : List Char) :
    ∃ e, cs = e ++ (exponentPart Text.digit? cs).2 ∧
      SpellExponent e (exponentPart Text.digit? cs).1 := by
  unfold exponentPart
  split
  · rename_i mark rest
    split
    · rename_i hmark
      obtain ⟨sign, hsign, hs⟩ := signOf_eq rest
      obtain ⟨run, hrun, hspell, _⟩ := digitRun_eq (signOf rest).2
      simp only
      split
      · exact ⟨[], rfl, .absent⟩
      · rename_i digits after hne heq
        rw [heq] at hrun hspell
        refine ⟨mark :: (sign ++ run), ?_, .mark hmark hs hspell fun h => hne (by rw [h])⟩
        rw [List.cons_append, List.append_assoc, ← hrun, ← hsign]
    · exact ⟨[], rfl, .absent⟩
  · exact ⟨[], rfl, .absent⟩

/-- What is scanned is spelled by the characters that were taken. -/
theorem spells_of_scan? {cs rest : List Char} {s : Spelled}
    (h : scan? Text.digit? cs = some (s, rest)) : ∃ text, cs = text ++ rest ∧ Spells text s := by
  obtain ⟨w, hw, hwhole, _⟩ := digitRun_eq cs
  unfold scan? at h
  split at h
  · cases h
  · rename_i whole after hne heq
    rw [heq] at hw hwhole
    obtain ⟨f, hf, hfraction⟩ := fractionPart_eq after
    obtain ⟨e, he, hexponent⟩ := exponentPart_eq (fractionPart Text.digit? after).2
    simp only [Option.some.injEq, Prod.mk.injEq] at h
    obtain ⟨rfl, rfl⟩ := h
    refine ⟨w ++ (f ++ e), ?_, .parts hwhole (fun h => hne (by rw [h])) hfraction hexponent⟩
    rw [List.append_assoc, List.append_assoc, ← he, ← hf, ← hw]

end scanned

/-! ## Scanning what is spelled -/

section reading

variable {cs rest : List Char} {ds : List Nat}

theorem ne_nil_of_spell (h : Spell cs ds) (hne : ds ≠ []) : cs ≠ [] := by
  rintro rfl
  exact hne (List.length_eq_zero_iff.1 h.length_eq.symm)

theorem stops_nil : Stops [] := by simp [Stops]

theorem SpellExponent.stops {e : List Char} {x : Option Int} (h : SpellExponent e x) :
    Stops e ∧ e.head? ≠ some '_' ∧ e.head? ≠ some '.' := by
  cases h with
  | absent => exact ⟨stops_nil, by simp, by simp⟩
  | mark hm _ _ _ =>
    have he : Text.digit? 'e' = none := by decide
    have hE : Text.digit? 'E' = none := by decide
    rcases hm with rfl | rfl
    · exact ⟨by simp [Stops, he], by simp, by simp⟩
    · exact ⟨by simp [Stops, hE], by simp, by simp⟩

theorem SpellFraction.stops {f e : List Char} {x : Option Int} (hf : SpellFraction f ds)
    (he : SpellExponent e x) : Stops (f ++ e) ∧ (f ++ e).head? ≠ some '_' := by
  cases hf with
  | absent => exact ⟨he.stops.1, he.stops.2.1⟩
  | point _ _ =>
    have hpoint : Text.digit? '.' = none := by decide
    exact ⟨by simp [Stops, hpoint], by simp⟩

theorem fractionPart_spell {f e : List Char} {x : Option Int} (hf : SpellFraction f ds)
    (he : SpellExponent e x) : fractionPart Text.digit? (f ++ e) = (ds, e) := by
  cases hf with
  | absent =>
    have hhead := he.stops.2.2
    rcases e with _ | ⟨c, e⟩
    · rfl
    · unfold fractionPart
      split
      · rename_i rest heq
        rw [List.nil_append] at heq
        rw [heq] at hhead
        exact absurd rfl hhead
      · rfl
  | point h hne =>
    simp only [List.cons_append, fractionPart, digitRun_spell h he.stops.1]
    split
    · rename_i heq
      cases heq
      exact absurd rfl hne
    · rfl

theorem signOf_digit {c : Char} (hc : (Text.digit? c).isSome = true) (tail : List Char) :
    signOf (c :: tail) = (false, c :: tail) := by
  unfold signOf
  split
  · rename_i heq
    cases heq
    exact absurd hc (by decide)
  · rename_i heq
    cases heq
    exact absurd hc (by decide)
  · rfl

theorem signOf_append {sign : List Char} {negative : Bool} (hs : SpellSign sign negative)
    (h : Spell cs ds) (hne : ds ≠ []) (rest : List Char) :
    signOf (sign ++ (cs ++ rest)) = (negative, cs ++ rest) := by
  cases hs with
  | absent =>
    rcases cs with _ | ⟨c, cs⟩
    · exact absurd rfl (ne_nil_of_spell h hne)
    · exact signOf_digit (h.isSome List.mem_cons_self) (cs ++ rest)
  | minus => rfl
  | plus => rfl

theorem signOf_spell {sign : List Char} {negative : Bool} (hs : SpellSign sign negative)
    (h : Spell cs ds) (hne : ds ≠ []) : signOf (sign ++ cs) = (negative, cs) := by
  simpa using signOf_append hs h hne []

theorem exponentPart_spell {e : List Char} {x : Option Int} (he : SpellExponent e x) :
    exponentPart Text.digit? e = (x, []) := by
  cases he with
  | absent => rfl
  | @mark m sign cs negative ds hm hs h hne =>
    have hrun := digitRun_spell h stops_nil
    rw [List.append_nil] at hrun
    simp only [exponentPart, hm, if_true, signOf_spell hs h hne, hrun]

theorem scan?_spells {text : List Char} {s : Spelled} (h : Spells text s) :
    scan? Text.digit? text = some (s, []) := by
  obtain ⟨hw, hne, hf, he⟩ := h
  unfold scan?
  rw [digitRun_spell hw (hf.stops he).1]
  split
  · rename_i heq
    cases heq
    exact absurd rfl hne
  · rename_i heq
    cases heq
    simp only [fractionPart_spell hf he, exponentPart_spell he]

/-! ## Reading what is spelled -/

theorem Spells.head {text : List Char} {s : Spelled} (h : Spells text s) :
    ∃ c tail, text = c :: tail ∧ (Text.digit? c).isSome = true := by
  obtain ⟨hw, hne, hf, he⟩ := h
  rename_i w f e whole fraction exponent
  rcases w with _ | ⟨c, w⟩
  · exact absurd rfl (ne_nil_of_spell hw hne)
  · exact ⟨c, w ++ (f ++ e), rfl, hw.isSome List.mem_cons_self⟩

theorem spell_last (h : Spell cs ds) (hne : ds ≠ []) :
    ∃ init c, cs = init ++ [c] ∧ (Text.digit? c).isSome = true := by
  have hcs := ne_nil_of_spell h hne
  exact ⟨cs.dropLast, cs.getLast hcs, (List.dropLast_concat_getLast hcs).symm,
    h.isSome (List.getLast_mem hcs)⟩

/-- Whichever part is the last one, it ends with a digit. -/
theorem Spells.last {text : List Char} {s : Spelled} (h : Spells text s) :
    ∃ init c, text = init ++ [c] ∧ (Text.digit? c).isSome = true := by
  obtain ⟨hw, hne, hf, he⟩ := h
  rename_i w f e whole fraction exponent
  cases he with
  | @mark m sign cs negative ds hm hs hcs hds =>
    obtain ⟨init, c, rfl, hc⟩ := spell_last hcs hds
    exact ⟨w ++ (f ++ m :: (sign ++ init)), c, by simp, hc⟩
  | absent =>
    cases hf with
    | @point cs _ hcs hds =>
      obtain ⟨init, c, rfl, hc⟩ := spell_last hcs hds
      exact ⟨w ++ '.' :: init, c, by simp, hc⟩
    | absent =>
      obtain ⟨init, c, rfl, hc⟩ := spell_last hw hne
      exact ⟨init, c, by simp, hc⟩

theorem trim_spells {text : List Char} {s : Spelled} (h : Spells text s) :
    Text.trim text = text := by
  obtain ⟨c, tail, htext, hc⟩ := h.head
  obtain ⟨init, d, hlast, hd⟩ := h.last
  have hfirst : text.dropWhile Text.isBlank = text := by
    rw [htext, List.dropWhile_cons_of_neg (by simp [isBlank_of_digit hc])]
  have hback : text.reverse.dropWhile Text.isBlank = text.reverse := by
    rw [hlast, List.reverse_append, List.reverse_singleton, List.singleton_append,
      List.dropWhile_cons_of_neg (by simp [isBlank_of_digit hd])]
  rw [Text.trim, hfirst, hback, List.reverse_reverse]

/-- A text that starts with a digit is none of the words that stand for a number. -/
theorem lower_ne {c : Char} (hc : (Text.digit? c).isSome = true) (tail : List Char)
    (word : String) {x : Char} {rest : List Char} (hword : word.toList = x :: rest)
    (hx : Text.digit? x = none) : String.ofList ((c :: tail).map Char.toLower) ≠ word := by
  intro heq
  have hlist := congrArg String.toList heq
  rw [String.toList_ofList, hword, List.map_cons, toLower_of_digit hc] at hlist
  cases hlist
  rw [hx] at hc
  cases hc

theorem unsignedText?_spells {text : List Char} {s : Spelled} (h : Spells text s) :
    unsignedText? text = some s.toNumber := by
  obtain ⟨c, tail, htext, hc⟩ := h.head
  have hinf := lower_ne hc tail "inf" rfl (by decide)
  have hinfinity := lower_ne hc tail "infinity" rfl (by decide)
  have hnan := lower_ne hc tail "nan" rfl (by decide)
  rw [← htext] at hinf hinfinity hnan
  obtain ⟨hw, hne, hf, he⟩ := h
  rename_i w f e whole fraction exponent
  simp only [unsignedText?, hinf, hinfinity, hnan, or_self, if_false]
  have hwhole : whole.isEmpty = false := by simpa using hne
  simp only [groupedRun_spell hw (hf.stops he).1 (hf.stops he).2, hwhole, Bool.false_and,
    Bool.false_eq_true, if_false]
  cases hf with
  | absent =>
    cases he with
    | absent => rfl
    | mark hm hs hcs hds =>
      have hrun := groupedRun_spell hcs stops_nil (by simp)
      rw [List.append_nil] at hrun
      rcases hm with rfl | rfl <;>
        simp [signOf_spell hs hcs hds, hrun, Spelled.toNumber]
  | point hcs hds =>
    simp only [List.cons_append, groupedRun_spell hcs he.stops.1 he.stops.2.1]
    cases he with
    | absent => rfl
    | mark hm hs hcs hds =>
      have hrun := groupedRun_spell hcs stops_nil (by simp)
      rw [List.append_nil] at hrun
      rcases hm with rfl | rfl <;>
        simp [signOf_spell hs hcs hds, hrun, Spelled.toNumber]

/-- A number of a source text is read from its text, and read as the same number. -/
theorem ofText?_spells {text : List Char} {s : Spelled} (h : Spells text s) :
    ofText? text = some s.toNumber := by
  obtain ⟨c, tail, htext, hc⟩ := h.head
  have hsign : signOf text = (false, text) := by
    rw [htext]
    exact signOf_digit hc tail
  simp only [ofText?, trim_spells h, hsign, unsignedText?_spells h]
  rfl

end reading

end BellaLang
