-- Numbers in documents. A number that is spelled without a sign is zero, positive
-- or infinite; the literal form of a finite one is read back as the same number,
-- to the last bit, and infinity is written as a word of its own.
import BellaLang.Json.Reader
import BellaLang.Proofs.Decimals

namespace BellaLang

open Float.Model UnpackedFloat Number

/-! ## Numbers without a sign -/

/-- Zero, a positive finite number, or infinity. -/
inductive Number.Unsigned : Number → Prop
  | zero : Unsigned 0.0
  | finite {x : Number} {m : ℕ} {e : ℤ} {hm : 0 < m}
      (h : x.toModel.unpack = .finite .positive m e hm) : Unsigned x
  | infinity : Unsigned .infinity

/-- What an unpacked number of the given sign can be, unless it is no number. -/
inductive Signed (s : Sign) : UnpackedFloat → Prop
  | zero : Signed s (.zero s)
  | finite (m : ℕ) (e : ℤ) (hm : 0 < m) : Signed s (.finite s m e hm)
  | infinity : Signed s (.infinity s)

theorem signed_unpack {s : Sign} {e : BitVec 11} {m : BitVec 52} (h : e = -1#11 → m = 0#52) :
    Signed s (UnpackedFloat.unpack .binary64 (packComponents .binary64 s e m)) := by
  unfold UnpackedFloat.unpack
  simp only [unpackExponent_packComponents, unpackMantissa_packComponents,
    unpackSign_packComponents, Sign.ofBitVec_toBitVec]
  split
  · rename_i he
    rw [if_pos (h he)]
    exact .infinity
  · split
    · split
      · exact .zero
      · exact .finite _ _ _
    · exact .finite _ _ _

/-- Packing keeps the sign and never makes a NaN of a number. -/
theorem signed_pack {s : Sign} {u : UnpackedFloat} (h : Signed s u) :
    Signed s (UnpackedFloat.unpack .binary64 (UnpackedFloat.pack .binary64 u)) := by
  cases h with
  | zero => exact signed_unpack (by simp)
  | infinity => exact signed_unpack fun _ => rfl
  | finite m e hm =>
    rw [UnpackedFloat.pack]
    simp only
    split
    · exact signed_unpack fun _ => rfl
    · rename_i hsmall
      split
      · refine signed_unpack fun heq => ?_
        have hexp := congrArg BitVec.toNat heq
        have hones : (-1#11).toNat = 2047 := rfl
        rw [hones, BitVec.toNat_ofNat] at hexp
        omega
      · exact signed_unpack fun heq => absurd heq (by decide)

theorem signed_nearest (s : Sign) (q : ℚ) : Signed s (nearest s q) := by
  unfold nearest settle
  simp only
  split
  · exact .zero
  · exact .finite _ _ _

theorem unsigned_of_signed {x : Number} (h : Signed .positive x.toModel.unpack) : x.Unsigned := by
  rcases hunpack : x.toModel.unpack with s | _ | s | ⟨s, m, k, hm⟩ <;> rw [hunpack] at h <;> cases h
  · have hx : x = .ofModel (.pack (.infinity .positive)) := by rw [← hunpack, pack_unpack]
    rw [hx]
    exact .infinity
  · have hx : x = .ofModel (.pack (.zero .positive)) := by rw [← hunpack, pack_unpack]
    rw [hx]
    exact .zero
  · exact .finite hunpack

/-- What is spelled with digits has no sign and is no NaN. -/
theorem unsigned_toNumber (s : Spelled) : s.toNumber.Unsigned := by
  rw [Spelled.toNumber]
  generalize Decimal.ofParts s.whole s.fraction (s.exponent.getD 0) = d
  by_cases hd : d.coefficient = 0
  · rw [toNumber_of_coefficient_zero hd]
    exact .zero
  · rw [toNumber_eq_near hd]
    exact unsigned_of_signed (signed_pack (signed_nearest .positive d.value))

/-! ## Literal texts -/

/-- A text of the common characters, which has no needless zero before its digits and is more
than digits. -/
structure IsLiteral (text : List Char) : Prop where
  common : ∀ c ∈ text, c.toNat < 0x80
  lead : text.head? = some '0' → Stops (text.drop 1)
  marked : ∃ c ∈ text, Text.digit? c = none

theorem common_digitChar {d : ℕ} (h : d < 10) : (Text.digitChar d).toNat < 0x80 := by
  decide +revert

theorem digitChar_ne_zero {d : ℕ} (h : d < 10) (hd : d ≠ 0) : Text.digitChar d ≠ '0' := by
  decide +revert

theorem digitsOf_head {n : ℕ} (h : n ≠ 0) : (Text.digitsOf n).head? ≠ some 0 := by
  fun_induction Text.digitsOf n with
  | case1 n hn => simpa using h
  | case2 n hn ih =>
    have hhead := ih (by omega)
    rwa [List.head?_append_of_ne_nil _ (Text.digitsOf_ne_nil _)]

theorem common_exponentPart (power : ℤ) : ∀ c ∈ Decimal.exponentPart power, c.toNat < 0x80 := by
  intro c hc
  simp only [Decimal.exponentPart, List.mem_cons, List.mem_append, List.mem_replicate,
    Text.decimal, List.mem_map] at hc
  rcases hc with rfl | hsign | ⟨_, rfl⟩ | ⟨d, hd, rfl⟩
  · decide
  · split at hsign <;> subst hsign <;> decide
  · decide
  · exact common_digitChar (Text.lt_ten_of_mem_digitsOf _ d hd)

section literal

variable {digits : List ℕ} {power : ℤ}

theorem common_map_digitChar (hten : ∀ n ∈ digits, n < 10) :
    ∀ c ∈ digits.map Text.digitChar, c.toNat < 0x80 := by
  intro c hc
  obtain ⟨d, hd, rfl⟩ := List.mem_map.1 hc
  exact common_digitChar (hten d hd)

theorem isLiteral_scientific (hne : digits ≠ []) (hten : ∀ n ∈ digits, n < 10) :
    IsLiteral ((digits.map Text.digitChar).take 1 ++
      (if ((digits.map Text.digitChar).drop 1).isEmpty then []
        else '.' :: (digits.map Text.digitChar).drop 1) ++ Decimal.exponentPart power) := by
  rcases digits with _ | ⟨first, rest⟩
  · exact absurd rfl hne
  · have hcommon := common_map_digitChar hten
    simp only [List.map_cons, List.mem_cons, forall_eq_or_imp] at hcommon
    have hpower := common_exponentPart power
    have he : Text.digit? 'e' = none := by decide
    have hpoint : Text.digit? '.' = none := by decide
    have hmark : 'e' ∈ Decimal.exponentPart power := List.mem_cons_self
    simp only [List.map_cons, List.take_succ_cons, List.take_zero, List.drop_succ_cons,
      List.drop_zero]
    refine ⟨?_, fun _ => ?_, 'e', by simp [hmark], he⟩
    · split
      · intro c hc
        simp only [List.append_nil, List.mem_append, List.mem_singleton] at hc
        rcases hc with rfl | hc
        · exact hcommon.1
        · exact hpower c hc
      · intro c hc
        simp only [List.cons_append, List.nil_append, List.mem_cons, List.mem_append] at hc
        rcases hc with rfl | rfl | hc | hc
        · exact hcommon.1
        · decide
        · exact hcommon.2 c hc
        · exact hpower c hc
    · split
      · simp [Stops, Decimal.exponentPart, he]
      · simp [Stops, hpoint]

theorem isLiteral_small (hten : ∀ n ∈ digits, n < 10) (zeros : ℕ) :
    IsLiteral ('0' :: '.' :: (List.replicate zeros '0' ++ digits.map Text.digitChar)) := by
  have hpoint : Text.digit? '.' = none := by decide
  refine ⟨?_, fun _ => by simp [Stops, hpoint], '.', by simp, hpoint⟩
  intro c hc
  simp only [List.mem_cons, List.mem_append, List.mem_replicate] at hc
  rcases hc with rfl | rfl | ⟨_, rfl⟩ | hc
  · decide
  · decide
  · decide
  · exact common_map_digitChar hten c hc

theorem isLiteral_positional (hne : digits ≠ []) (hten : ∀ n ∈ digits, n < 10)
    (hlead : digits.head? ≠ some 0) (before zeros : ℕ) {padded : List Char}
    (hpadded : padded = digits.map Text.digitChar ++ List.replicate zeros '0') :
    IsLiteral (padded.take (before + 1) ++
      '.' :: (if (padded.drop (before + 1)).isEmpty then ['0'] else padded.drop (before + 1))) := by
  have hpoint : Text.digit? '.' = none := by decide
  have hcommon : ∀ c ∈ padded, c.toNat < 0x80 := by
    intro c hc
    rw [hpadded, List.mem_append, List.mem_replicate] at hc
    rcases hc with hc | ⟨_, rfl⟩
    · exact common_map_digitChar hten c hc
    · decide
  refine ⟨?_, fun hzero => ?_, '.', by simp, hpoint⟩
  · intro c hc
    rw [List.mem_append, List.mem_cons] at hc
    rcases hc with hc | rfl | hc
    · exact hcommon c (List.mem_of_mem_take hc)
    · decide
    · split at hc
      · rw [List.mem_singleton.1 hc]
        decide
      · exact hcommon c (List.mem_of_mem_drop hc)
  · rcases digits with _ | ⟨first, rest⟩
    · exact absurd rfl hne
    · have hfirst := digitChar_ne_zero (hten first (by simp)) (by simpa using hlead)
      simp [hpadded] at hzero
      exact absurd hzero hfirst

end literal

theorem isLiteral_literal {d : Decimal} (h : d.coefficient ≠ 0) : IsLiteral d.literal := by
  obtain ⟨k, hk, hne⟩ := digitsOf_significant h
  have hten := lt_ten_of_mem_significant h
  have hlead : d.significant.1.head? ≠ some 0 := by
    have hhead := digitsOf_head h
    rwa [hk, List.head?_append_of_ne_nil _ hne] at hhead
  unfold Decimal.literal
  rcases hsig : d.significant with ⟨digits, power⟩
  simp only [hsig] at hne hten hlead ⊢
  split
  · exact isLiteral_scientific hne hten
  · split
    · exact isLiteral_small hten _
    · exact isLiteral_positional hne hten hlead _ _ rfl

/-- A number without a sign is infinite, or its literal form spells it. -/
theorem literal_of_unsigned {x : Number} (h : x.Unsigned) (spelling : Spelling) :
    (x = .infinity ∧ x.literal spelling = spelling.infinity) ∨
      ∃ s, Spells (x.literal spelling).toList s ∧ IsLiteral (x.literal spelling).toList ∧
        s.toNumber = x := by
  cases h with
  | zero =>
    have hliteral : Number.literal spelling 0.0 = "0.0" := rfl
    have hten : ∀ n ∈ [0], n < 10 := by simp
    refine Or.inr ⟨_, spells_literal_zero spelling, ?_, by decide⟩
    rw [hliteral]
    exact isLiteral_small hten 0
  | @finite x m k hm h =>
    have hc := canonical_of_unpack h
    obtain ⟨s, hspells, hs⟩ := spells_shortest (e := ⟨false, m, k⟩) hc
    have hliteral : (x.literal spelling).toList = (Decimal.shortest ⟨false, m, k⟩).literal := by
      rw [Number.literal, exact?_of_unpack h]
      simp [hm.ne', isMinus]
    rw [hliteral]
    exact Or.inr ⟨s, hspells, isLiteral_literal (coefficient_shortest hc), by rw [hs, ← eq_near h]⟩
  | infinity => exact Or.inl ⟨rfl, rfl⟩

/-! ## Reading a literal -/

namespace Json

/-- What may follow a value in a document: a blank, a comma or a closing bracket. -/
def Closes (rest : List Char) : Prop :=
  ∀ c ∈ rest.head?, isSpace c = true ∨ c ∈ [',', ']', '\x7d']

theorem asciiDigit?_eq {c : Char} (h : c.toNat < 0x80) : Text.asciiDigit? c = Text.digit? c := by
  have hall : ∀ n < 0x80, Text.asciiDigit? (Char.ofNat n) = Text.digit? (Char.ofNat n) := by decide
  have hc := hall c.toNat h
  rwa [Char.ofNat_toNat] at hc

section reading

variable {cs f e rest : List Char} {ds : List ℕ} {x : Option ℤ}

theorem Closes.head {c : Char} (h : Closes (c :: rest)) :
    Text.asciiDigit? c = none ∧ ¬ (c = 'e' ∨ c = 'E') := by
  have hhead : isSpace c = true ∨ c ∈ [',', ']', '\x7d'] := h c (by simp)
  simp only [isSpace, Bool.or_eq_true, beq_iff_eq, List.mem_cons, List.not_mem_nil,
    or_false] at hhead
  rcases hhead with (((rfl | rfl) | rfl) | rfl) | rfl | rfl | rfl <;> decide

theorem Closes.stops (h : Closes rest) : ∀ c ∈ rest.head?, Text.asciiDigit? c = none := by
  rcases rest with _ | ⟨c, rest⟩
  · simp
  · simpa using h.head.1

theorem digitRun_common (h : Spell cs ds) (hcommon : ∀ c ∈ cs, c.toNat < 0x80)
    (hr : ∀ c ∈ rest.head?, Text.asciiDigit? c = none) :
    digitRun Text.asciiDigit? (cs ++ rest) = (ds, rest) := by
  apply digitRun_append _ hr
  rw [List.map_congr_left fun c hc => asciiDigit?_eq (hcommon c hc)]
  exact h

theorem exponentPart_common (h : SpellExponent e x) (hcommon : ∀ c ∈ e, c.toNat < 0x80)
    (hr : Closes rest) : exponentPart Text.asciiDigit? (e ++ rest) = (x, rest) := by
  cases h with
  | absent =>
    rcases rest with _ | ⟨c, rest⟩
    · rfl
    · simp only [List.nil_append, exponentPart, hr.head.2, if_false]
  | @mark m sign cs negative ds hm hs h hne =>
    have hrun := digitRun_common h (fun c hc => hcommon c (by simp [hc])) hr.stops
    simp only [List.cons_append, List.append_assoc, exponentPart, hm, if_true,
      signOf_append hs h hne, hrun]

/-- An exponent part stops the digits before it, as what follows a value does. -/
theorem stops_exponent (h : SpellExponent e x) (hr : Closes rest) :
    ∀ c ∈ (e ++ rest).head?, Text.asciiDigit? c = none := by
  cases h with
  | absent => exact hr.stops
  | mark hm _ _ _ => rcases hm with rfl | rfl <;> simp <;> decide

theorem fractionPart_common (hf : SpellFraction f ds) (hcommon : ∀ c ∈ f, c.toNat < 0x80)
    (he : SpellExponent e x) (hr : Closes rest) (hsome : f ≠ [] ∨ e ≠ []) :
    fractionPart Text.asciiDigit? (f ++ (e ++ rest)) = (ds, e ++ rest) := by
  cases hf with
  | absent =>
    cases he with
    | absent => simp at hsome
    | mark hm _ _ _ => rcases hm with rfl | rfl <;> rfl
  | point h hne =>
    have hrun := digitRun_common h (fun c hc => hcommon c (by simp [hc])) (stops_exponent he hr)
    simp only [List.cons_append, fractionPart, hrun]
    split
    · rename_i heq
      cases heq
      exact absurd rfl hne
    · rfl

/-- What stands after the digits makes the number one with a fraction or an exponent. -/
theorem part_of_ne_nil {fraction : List ℕ} (hf : SpellFraction f fraction)
    (he : SpellExponent e x) (hsome : f ≠ [] ∨ e ≠ []) : ¬ (fraction = [] ∧ x = none) := by
  rintro ⟨rfl, rfl⟩
  cases hf with
  | absent =>
    cases he
    simp at hsome
  | point _ hne => exact hne rfl

theorem readNumber_parts {c : Char} {tail : List Char} {whole fraction : List ℕ}
    (hw : Spell (c :: tail) whole) (hf : SpellFraction f fraction) (he : SpellExponent e x)
    (hsome : f ≠ [] ∨ e ≠ []) (hlead : c = '0' → tail = [])
    (hcommon : ∀ d ∈ c :: tail ++ (f ++ e), d.toNat < 0x80) (hr : Closes rest) :
    readNumber (c :: tail ++ (f ++ (e ++ rest))) =
      .ok (float (Spelled.mk whole fraction x).toNumber, rest) := by
  have hstops : ∀ d ∈ (f ++ (e ++ rest)).head?, Text.asciiDigit? d = none := by
    cases hf with
    | absent => exact stops_exponent (e := e) he hr
    | point _ _ => simp; decide
  have hrun := digitRun_common hw (fun d hd => hcommon d (by simp at hd ⊢; tauto)) hstops
  have hfraction := fractionPart_common hf (fun d hd => hcommon d (by simp [hd])) he hr hsome
  have hexponent := exponentPart_common he (fun d hd => hcommon d (by simp [hd])) hr
  have hpart := part_of_ne_nil hf he hsome
  have hminus : c ≠ '-' := by
    rintro rfl
    exact absurd (hw.isSome List.mem_cons_self) (by decide)
  unfold readNumber
  by_cases hzero : c = '0'
  · -- A zero is taken by itself, and it is all there is before the point.
    obtain rfl := hlead hzero
    subst hzero
    have hwhole : whole = [0] := by
      have hdigit : ['0'].map Text.digit? = [0].map some := by decide
      exact (List.map_inj_right fun _ _ h => Option.some.inj h).1 (hw.symm.trans hdigit)
    simp [hwhole, hfraction, hexponent, hpart]
  · have hne : whole ≠ [] := by
      rintro rfl
      simp [Spell] at hw
    rw [List.cons_append] at hrun ⊢
    simp [hminus, hzero, hrun, hfraction, hexponent, hne, hpart]

/-- A literal is read as the number that it spells. -/
theorem readNumber_literal {text : List Char} {s : Spelled} (hs : Spells text s)
    (hl : IsLiteral text) (hr : Closes rest) :
    readNumber (text ++ rest) = .ok (float s.toNumber, rest) := by
  obtain ⟨hcommon, hlead, mark, hmark, hnone⟩ := hl
  obtain ⟨hw, hne, hf, he⟩ := hs
  rename_i w f e whole fraction exponent
  rcases w with _ | ⟨c, tail⟩
  · exact absurd rfl (ne_nil_of_spell hw hne)
  · rw [List.append_assoc, List.append_assoc]
    refine readNumber_parts hw hf he ?_ ?_ hcommon hr
    · by_contra hempty
      simp only [not_or, not_not] at hempty
      rw [hempty.1, hempty.2, List.append_nil] at hmark
      have hdigit := hw.isSome (by simpa using hmark)
      rw [hnone] at hdigit
      cases hdigit
    · rintro rfl
      rcases tail with _ | ⟨d, tail⟩
      · rfl
      · have hdigit := hw.isSome (c := d) (by simp)
        rw [hlead rfl d rfl] at hdigit
        cases hdigit

end reading

end Json

end BellaLang
