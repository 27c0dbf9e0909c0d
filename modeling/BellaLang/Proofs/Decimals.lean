-- Decimals and the texts of numbers. The digits that are written for a finite
-- number spell a decimal for which it is the nearest double, so reading them
-- gives the number back.
import BellaLang.Proofs.Numerals
import BellaLang.Proofs.Rounding
import BellaLang.Number.Text

namespace BellaLang

open Number Float.Model UnpackedFloat

/-! ## Digits -/

theorem ofDigits_append (ds es : List ℕ) :
    Text.ofDigits (ds ++ es) = Text.ofDigits ds * 10 ^ es.length + Text.ofDigits es := by
  induction es using List.reverseRecOn with
  | nil => simp [Text.ofDigits]
  | append_singleton es e ih =>
    rw [← List.append_assoc, Text.ofDigits_append_singleton, Text.ofDigits_append_singleton, ih,
      List.length_append, List.length_singleton, pow_succ]
    ring

theorem ofDigits_replicate_zero (k : ℕ) : Text.ofDigits (List.replicate k 0) = 0 := by
  induction k with
  | zero => rfl
  | succ k ih => rw [List.replicate_succ', Text.ofDigits_append_singleton, ih]

theorem digit?_digitChar {d : ℕ} (h : d < 10) : Text.digit? (Text.digitChar d) = some d := by
  interval_cases d <;> decide

theorem spell_map_digitChar {ds : List ℕ} (h : ∀ d ∈ ds, d < 10) :
    Spell (ds.map Text.digitChar) ds := by
  rw [Spell, List.map_map]
  exact List.map_congr_left fun d hd => digit?_digitChar (h d hd)

theorem spell_zeros (k : ℕ) : Spell (List.replicate k '0') (List.replicate k 0) := by
  rw [Spell, List.map_replicate, List.map_replicate]
  rfl

theorem Spell.append {cs cs' : List Char} {ds ds' : List ℕ} (h : Spell cs ds) (h' : Spell cs' ds') :
    Spell (cs ++ cs') (ds ++ ds') := by
  rw [Spell, List.map_append, List.map_append, h, h']

/-! ## Values of spelled numbers -/

def Number.Spelled.value (s : Spelled) : ℚ :=
  (Decimal.ofParts s.whole s.fraction (s.exponent.getD 0)).value

theorem value_spelled (whole fraction : List ℕ) (exponent : Option ℤ) :
    Spelled.value ⟨whole, fraction, exponent⟩ =
      Text.ofDigits (whole ++ fraction) * 10 ^ (exponent.getD 0 - fraction.length) := rfl

theorem toNumber_spelled {s : Spelled} (h : s.value ≠ 0) : s.toNumber = .near s.value := by
  apply toNumber_eq_near
  intro hzero
  apply h
  rw [Spelled.value, Decimal.value, hzero, Nat.cast_zero, zero_mul]

theorem spells_decimal (n : ℕ) : Spells (Text.decimal n) ⟨Text.digitsOf n, [], none⟩ := by
  have h := Spells.parts (spell_map_digitChar (Text.lt_ten_of_mem_digitsOf n))
    (Text.digitsOf_ne_nil n) .absent .absent
  simpa [Text.decimal] using h

/-- The digits of a decimal are its significant ones and then zeros. -/
theorem digitsOf_significant {d : Decimal} (h : d.coefficient ≠ 0) :
    ∃ k, Text.digitsOf d.coefficient = d.significant.1 ++ List.replicate k 0 ∧
      d.significant.1 ≠ [] := by
  have hsplit := List.takeWhile_append_dropWhile (p := (· = 0))
    (l := (Text.digitsOf d.coefficient).reverse)
  have hzeros : (Text.digitsOf d.coefficient).reverse.takeWhile (· = 0) =
      List.replicate ((Text.digitsOf d.coefficient).reverse.takeWhile (· = 0)).length 0 := by
    rw [List.eq_replicate_iff]
    refine ⟨rfl, fun n hn => ?_⟩
    have hall := List.all_takeWhile (p := (· = 0)) (l := (Text.digitsOf d.coefficient).reverse)
    simpa using List.all_eq_true.1 hall n hn
  generalize ((Text.digitsOf d.coefficient).reverse.takeWhile (· = 0)).length = k at hzeros
  rw [hzeros, ← List.reverse_inj, List.reverse_append, List.reverse_reverse,
    List.reverse_replicate] at hsplit
  have hkept : ((Text.digitsOf d.coefficient).reverse.dropWhile (· = 0)).reverse ≠ [] := by
    intro hnil
    rw [hnil, List.nil_append] at hsplit
    apply h
    rw [← Text.ofDigits_digitsOf d.coefficient, ← hsplit, ofDigits_replicate_zero]
  have hsig : d.significant.1 =
      ((Text.digitsOf d.coefficient).reverse.dropWhile (· = 0)).reverse := by
    rw [Decimal.significant]
    exact if_neg (by simpa using hkept)
  exact ⟨k, by rw [hsig, hsplit], by rwa [hsig]⟩

theorem value_significant {d : Decimal} (h : d.coefficient ≠ 0) :
    d.value = Text.ofDigits d.significant.1 *
      10 ^ (d.significant.2 - (d.significant.1.length - 1 : ℤ)) := by
  obtain ⟨k, hk, _⟩ := digitsOf_significant h
  have hc : d.coefficient = Text.ofDigits d.significant.1 * 10 ^ k := by
    rw [← Text.ofDigits_digitsOf d.coefficient, hk, ofDigits_append, ofDigits_replicate_zero,
      List.length_replicate, add_zero]
  have hlen : (Text.digitsOf d.coefficient).length = d.significant.1.length + k := by
    rw [hk, List.length_append, List.length_replicate]
  have hp : d.significant.2 = d.exponent + (Text.digitsOf d.coefficient).length - 1 := rfl
  rw [hp, hlen, Decimal.value, hc, Nat.cast_mul, Nat.cast_pow, Nat.cast_ofNat, mul_assoc,
    ← zpow_natCast, ← zpow_add₀ (by norm_num)]
  congr 2
  push_cast
  ring

theorem lt_ten_of_mem_significant {d : Decimal} (h : d.coefficient ≠ 0) :
    ∀ n ∈ d.significant.1, n < 10 := by
  obtain ⟨k, hk, _⟩ := digitsOf_significant h
  intro n hn
  exact Text.lt_ten_of_mem_digitsOf d.coefficient n (by simp [hk, hn])

theorem spellExponent_exponentPart (power : ℤ) :
    SpellExponent (Decimal.exponentPart power) (some power) := by
  have hdigits := (spell_zeros (2 - (Text.decimal power.natAbs).length)).append
    (spell_map_digitChar (Text.lt_ten_of_mem_digitsOf power.natAbs))
  have hvalue : Text.ofDigits (List.replicate (2 - (Text.decimal power.natAbs).length) 0 ++
      Text.digitsOf power.natAbs) = power.natAbs := by
    rw [ofDigits_append, ofDigits_replicate_zero, zero_mul, zero_add, Text.ofDigits_digitsOf]
  have hne : List.replicate (2 - (Text.decimal power.natAbs).length) 0 ++
      Text.digitsOf power.natAbs ≠ [] := by
    simp [Text.digitsOf_ne_nil]
  unfold Decimal.exponentPart
  simp only
  split
  · rename_i hneg
    have hsigned : signed true (List.replicate (2 - (Text.decimal power.natAbs).length) 0 ++
        Text.digitsOf power.natAbs) = power := by
      rw [signed, if_pos rfl, hvalue]
      omega
    have hspell := SpellExponent.mark (Or.inl rfl) .minus hdigits hne
    rwa [hsigned] at hspell
  · rename_i hneg
    have hsigned : signed false (List.replicate (2 - (Text.decimal power.natAbs).length) 0 ++
        Text.digitsOf power.natAbs) = power := by
      rw [signed, if_neg (by simp), hvalue]
      omega
    have hspell := SpellExponent.mark (Or.inl rfl) .plus hdigits hne
    rwa [hsigned] at hspell

theorem spellFraction_digits {ds : List ℕ} (h : ∀ d ∈ ds, d < 10) :
    SpellFraction (if (ds.map Text.digitChar).isEmpty then [] else '.' :: ds.map Text.digitChar)
      ds := by
  rcases ds with _ | ⟨d, ds⟩
  · exact .absent
  · exact .point (spell_map_digitChar h) (by simp)

section literal

variable {digits : List ℕ} {power : ℤ}

/-- One digit before the point, the others after it, and the power. -/
theorem spells_scientific (hne : digits ≠ []) (hten : ∀ n ∈ digits, n < 10) :
    ∃ s, Spells ((digits.map Text.digitChar).take 1 ++
        (if ((digits.map Text.digitChar).drop 1).isEmpty then []
          else '.' :: (digits.map Text.digitChar).drop 1) ++ Decimal.exponentPart power) s ∧
      s.value = Text.ofDigits digits * 10 ^ (power - (digits.length - 1 : ℤ)) := by
  rcases digits with _ | ⟨first, rest⟩
  · exact absurd rfl hne
  · have hwhole : Spell ([first].map Text.digitChar) [first] :=
      spell_map_digitChar (by simpa using hten first (by simp))
    have hrest := spellFraction_digits fun n hn => hten n (List.mem_cons_of_mem first hn)
    refine ⟨⟨[first], rest, some power⟩, ?_, ?_⟩
    · have hspells := Spells.parts hwhole (by simp) hrest (spellExponent_exponentPart power)
      simpa using hspells
    · rw [value_spelled]
      simp

/-- Nothing before the point, and zeros after it. -/
theorem spells_small (hne : digits ≠ []) (hten : ∀ n ∈ digits, n < 10) (hneg : power < 0) :
    ∃ s, Spells ('0' :: '.' :: (List.replicate ((-power).toNat - 1) '0' ++
        digits.map Text.digitChar)) s ∧
      s.value = Text.ofDigits digits * 10 ^ (power - (digits.length - 1 : ℤ)) := by
  have hfraction := (spell_zeros ((-power).toNat - 1)).append (spell_map_digitChar hten)
  refine ⟨⟨[0], List.replicate ((-power).toNat - 1) 0 ++ digits, none⟩, ?_, ?_⟩
  · have hspells :=
      Spells.parts (spell_zeros 1) (by simp) (.point hfraction (by simp [hne])) .absent
    simpa using hspells
  · have hzero : Text.ofDigits [0] = 0 := rfl
    rw [value_spelled, ofDigits_append, ofDigits_append, ofDigits_replicate_zero, hzero,
      List.length_append, List.length_replicate]
    simp only [zero_mul, zero_add, Option.getD_none]
    congr 2
    push_cast
    omega

/-- Digits before the point, filled up with zeros, and the others after it; a point is never
the last character. -/
theorem spells_positional (hne : digits ≠ []) (hten : ∀ n ∈ digits, n < 10) (hnonneg : 0 ≤ power)
    {whole : ℕ} (hwhole : whole = power.toNat + 1) {padded : List Char}
    (hpadded : padded = digits.map Text.digitChar ++
      List.replicate (whole - (digits.map Text.digitChar).length) '0') :
    ∃ s, Spells (padded.take whole ++
        '.' :: (if (padded.drop whole).isEmpty then ['0'] else padded.drop whole)) s ∧
      s.value = Text.ofDigits digits * 10 ^ (power - (digits.length - 1 : ℤ)) := by
  have hpos := List.length_pos_iff.2 hne
  have hspell := spell_map_digitChar hten
  rw [List.length_map] at hpadded
  by_cases hlong : whole < digits.length
  · rw [show whole - digits.length = 0 by omega, List.replicate_zero, List.append_nil] at hpadded
    have htake : Spell (padded.take whole) (digits.take whole) := by
      rw [Spell, List.map_take, List.map_take, hpadded, hspell]
    have hdrop : Spell (padded.drop whole) (digits.drop whole) := by
      rw [Spell, List.map_drop, List.map_drop, hpadded, hspell]
    have hsome : digits.drop whole ≠ [] := by
      rw [Ne, List.drop_eq_nil_iff]
      omega
    have hfraction : (padded.drop whole).isEmpty = false := by
      simpa using ne_nil_of_spell hdrop hsome
    refine ⟨⟨digits.take whole, digits.drop whole, none⟩, ?_, ?_⟩
    · have hfirst : digits.take whole ≠ [] := by
        rw [Ne, List.take_eq_nil_iff]
        rintro (hzero | hnil)
        · omega
        · exact hne hnil
      have hspells := Spells.parts htake hfirst (.point hdrop hsome) .absent
      simpa [hfraction] using hspells
    · rw [value_spelled, List.take_append_drop, List.length_drop, Option.getD_none]
      congr 2
      omega
  · have hall := hspell.append (spell_zeros (whole - digits.length))
    rw [← hpadded] at hall
    have hlength : padded.length = whole := by
      rw [hpadded, List.length_append, List.length_map, List.length_replicate]
      omega
    rw [List.take_of_length_le hlength.le, List.drop_of_length_le hlength.le]
    refine ⟨⟨digits ++ List.replicate (whole - digits.length) 0, [0], none⟩, ?_, ?_⟩
    · have hspells := Spells.parts hall (by simp [hne]) (.point (spell_zeros 1) (by simp)) .absent
      simpa using hspells
    · have hexp : (10 : ℚ) ^ (power - (digits.length - 1 : ℤ)) = 10 ^ (whole - digits.length) := by
        rw [← zpow_natCast]
        congr 1
        omega
      rw [value_spelled, Text.ofDigits_append_singleton, ofDigits_append, ofDigits_replicate_zero,
        List.length_replicate, hexp]
      push_cast
      simp
      ring

end literal

/-- The literal form of a decimal spells its value. -/
theorem spells_literal {d : Decimal} (h : d.coefficient ≠ 0) :
    ∃ s, Spells d.literal s ∧ s.value = d.value := by
  obtain ⟨_, _, hne⟩ := digitsOf_significant h
  have hten := lt_ten_of_mem_significant h
  rw [value_significant h]
  unfold Decimal.literal
  rcases hsig : d.significant with ⟨digits, power⟩
  simp only [hsig] at hne hten ⊢
  split
  · exact spells_scientific hne hten
  · split
    · rename_i hneg
      exact spells_small hne hten hneg
    · rename_i hneg
      exact spells_positional hne hten (not_lt.1 hneg) rfl rfl

/-! ## Finite numbers -/

theorem pack_unpack (x : Number) : Float.ofModel (.pack x.toModel.unpack) = x := by
  obtain ⟨⟨bits, valid⟩⟩ := x
  simp only [Float.Model.pack, Float.Model.unpack, pack_unpack_of_valid valid]

theorem toNumber_of_coefficient_zero {d : Decimal} (h : d.coefficient = 0) : d.toNumber = 0.0 := by
  have hfast : ∀ e (h : e < Float.exactlyRepresentablePowersOfTen.size),
      (0 : ℕ).toUInt64.toFloat * Float.exactlyRepresentablePowersOfTen[e] = 0.0 ∧
        (0 : ℕ).toUInt64.toFloat / Float.exactlyRepresentablePowersOfTen[e] = 0.0 := by
    decide
  obtain ⟨c, e⟩ := d
  simp only at h
  subst h
  unfold Decimal.toNumber Float.ofScientific
  simp only
  split
  · split
    · exact (hfast _ _).2
    · exact (hfast _ _).1
  · rfl

theorem near_ne_zero {m : ℕ} {e : ℤ} (h : Canonical m e) : Number.near (m * 2 ^ e) ≠ 0.0 := by
  intro heq
  have hunpack := unpack_near h
  rw [heq] at hunpack
  cases hunpack

/-! ## The shortest decimal -/

theorem toNumber_magnitude {e : Exact} (hm : e.mantissa ≠ 0) :
    { e with negative := false }.toNumber = .near (e.mantissa * 2 ^ e.exponent) := by
  simp [Exact.toNumber, hm, round_eq_nearest hm]
  rfl

theorem value_expansion (e : Exact) :
    (Decimal.expansion e).value = e.mantissa * 2 ^ e.exponent := by
  obtain ⟨negative, m, k⟩ := e
  unfold Decimal.expansion Decimal.value
  simp only
  split
  · rename_i hk
    obtain ⟨n, rfl⟩ := Int.eq_ofNat_of_zero_le hk
    simp [Nat.shiftLeft_eq]
  · rename_i hk
    obtain ⟨n, rfl⟩ : ∃ n : ℕ, k = -n := ⟨(-k).toNat, by omega⟩
    have hten : (10 : ℚ) ^ n = 5 ^ n * 2 ^ n := by
      rw [← mul_pow]
      norm_num
    simp [hten]
    field_simp

/-- The shortest decimal denotes the magnitude that it is made for. -/
theorem toNumber_shortest {e : Exact} (h : Canonical e.mantissa e.exponent) :
    (Decimal.shortest e).toNumber = .near (e.mantissa * 2 ^ e.exponent) := by
  have hm := h.pos.ne'
  unfold Decimal.shortest
  simp only
  rw [toNumber_magnitude hm]
  rcases hhit : (List.range 17).findSome? _ with _ | d
  · have hvalue := value_expansion e
    rw [Option.getD_none, toNumber_eq_near, hvalue]
    intro hzero
    rw [Decimal.value, hzero, Nat.cast_zero, zero_mul] at hvalue
    have hpos : (0 : ℚ) < e.mantissa * 2 ^ e.exponent := by
      have := h.pos
      positivity
    exact hpos.ne hvalue
  · obtain ⟨count, _, hfind⟩ := List.exists_of_findSome?_eq_some hhit
    simpa using List.find?_some hfind

theorem coefficient_shortest {e : Exact} (h : Canonical e.mantissa e.exponent) :
    (Decimal.shortest e).coefficient ≠ 0 := by
  intro hzero
  apply near_ne_zero h
  rw [← toNumber_shortest h, toNumber_of_coefficient_zero hzero]

/-- The digits of a magnitude, however it is shown. -/
theorem spells_shortest {e : Exact} (h : Canonical e.mantissa e.exponent) :
    ∃ s, Spells (Decimal.shortest e).literal s ∧
      s.toNumber = .near (e.mantissa * 2 ^ e.exponent) := by
  have hne := coefficient_shortest h
  obtain ⟨s, hspells, hvalue⟩ := spells_literal hne
  refine ⟨s, hspells, ?_⟩
  rw [toNumber_spelled, hvalue, ← toNumber_shortest h, toNumber_eq_near hne]
  rw [hvalue, Decimal.value]
  positivity

/-! ## Integral numbers -/

theorem magnitude?_value {e : Exact} {n : ℕ} (h : e.magnitude? = some n) :
    (n : ℚ) = e.mantissa * 2 ^ e.exponent := by
  obtain ⟨negative, m, k⟩ := e
  unfold Exact.magnitude? at h
  simp only at h ⊢
  split at h
  · rename_i hk
    cases h
    obtain ⟨n, rfl⟩ := Int.eq_ofNat_of_zero_le hk
    simp [Nat.shiftLeft_eq]
  · rename_i hk
    obtain ⟨j, rfl⟩ : ∃ j : ℕ, k = -j := ⟨(-k).toNat, by omega⟩
    split at h
    · rename_i hdvd
      cases h
      rw [Int.neg_neg, Int.toNat_natCast, Nat.one_shiftLeft] at hdvd ⊢
      rw [Nat.cast_div (Nat.dvd_of_mod_eq_zero hdvd) (by positivity), zpow_neg, zpow_natCast,
        div_eq_mul_inv]
      push_cast
      rfl
    · cases h

theorem toNumber_digitsOf {n : ℕ} (hn : n ≠ 0) :
    Spelled.toNumber ⟨Text.digitsOf n, [], none⟩ = .near n := by
  have hvalue : Spelled.value ⟨Text.digitsOf n, [], none⟩ = n := by
    rw [value_spelled, List.append_nil, Text.ofDigits_digitsOf]
    simp
  rw [toNumber_spelled, hvalue]
  rw [hvalue]
  exact_mod_cast hn

/-! ## Numbers and their texts -/

/-- A finite number is one of the two zeros, or a magnitude with a sign. -/
theorem finite_cases {x : Number} (h : x.isFinite = true) :
    x = 0.0 ∨ x = -0.0 ∨ ∃ s m k hm, x.toModel.unpack = .finite s m k hm := by
  have hfinite : x.toModel.unpack.isFinite = true := h
  rcases hunpack : x.toModel.unpack with s | _ | s | ⟨s, m, k, hm⟩
  · rw [hunpack] at hfinite
    cases hfinite
  · rw [hunpack] at hfinite
    cases hfinite
  · have hx : x = .ofModel (.pack (.zero s)) := by rw [← hunpack, pack_unpack]
    cases s with
    | positive => exact Or.inl (hx.trans (by decide))
    | negative => exact Or.inr (Or.inl (hx.trans (by decide)))
  · exact Or.inr (Or.inr ⟨s, m, k, hm, rfl⟩)

section signed

variable {x : Number} {s : Sign} {m : ℕ} {k : ℤ} {hm : 0 < m}

/-- Whether a sign is a minus. -/
def isMinus : Sign → Bool
  | .positive => false
  | .negative => true

theorem exact?_of_unpack (h : x.toModel.unpack = .finite s m k hm) :
    x.exact? = some ⟨isMinus s, m, k⟩ := by
  unfold Number.exact?
  rw [h]
  cases s <;> rfl

theorem eq_near (h : x.toModel.unpack = .finite .positive m k hm) : x = .near (m * 2 ^ k) := by
  have hc := canonical_of_unpack h
  calc x = .ofModel (.pack (.finite .positive m k hm)) := by rw [← h, pack_unpack]
    _ = .near (m * 2 ^ k) := by rw [← unpack_near hc, pack_unpack]

theorem eq_neg_near (h : x.toModel.unpack = .finite .negative m k hm) :
    x = -.near (m * 2 ^ k) := by
  have hc := canonical_of_unpack h
  have hneg : -Number.near (m * 2 ^ k) =
      .ofModel (.pack (UnpackedFloat.neg (Number.near (m * 2 ^ k)).toModel.unpack)) := rfl
  calc x = .ofModel (.pack (.finite .negative m k hm)) := by rw [← h, pack_unpack]
    _ = -.near (m * 2 ^ k) := by rw [hneg, unpack_near hc, UnpackedFloat.neg]; rfl

theorem not_nonneg_of_unpack (h : x.toModel.unpack = .finite .negative m k hm) : ¬ 0.0 ≤ x := by
  intro hle
  have hle : UnpackedFloat.le (0.0 : Number).toModel.unpack x.toModel.unpack = true :=
    of_decide_eq_true hle
  have hzero : (0.0 : Number).toModel.unpack = .zero .positive := rfl
  rw [h, hzero] at hle
  cases hle

/-- What the digits of a number stand behind. -/
def signText : Sign → List Char
  | .positive => []
  | .negative => ['-']

theorem literal_of_unpack (h : x.toModel.unpack = .finite s m k hm) (spelling : Spelling) :
    ∃ digits spelled, (x.literal spelling).toList = signText s ++ digits ∧
      Spells digits spelled ∧ spelled.toNumber = .near (m * 2 ^ k) := by
  obtain ⟨spelled, hspells, hs⟩ := spells_shortest (e := ⟨isMinus s, m, k⟩)
    (canonical_of_unpack h)
  refine ⟨_, spelled, ?_, hspells, hs⟩
  rw [Number.literal, exact?_of_unpack h]
  cases s <;> simp [hm.ne', signText, isMinus]

theorem signedDecimal_eq {n : ℕ} (hn : n ≠ 0) (s : Sign) :
    Text.signedDecimal (if isMinus s then -(n : ℤ) else n) =
      signText s ++ Text.decimal n := by
  have hpos : 0 < n := Nat.pos_of_ne_zero hn
  cases s <;> simp [Text.signedDecimal, signText, isMinus, hpos]

/-- The printed form of a number is its sign and the digits of its magnitude. -/
theorem text_of_unpack (h : x.toModel.unpack = .finite s m k hm) :
    ∃ digits spelled, x.text.toList = signText s ++ digits ∧
      Spells digits spelled ∧ spelled.toNumber = .near (m * 2 ^ k) := by
  unfold Number.text
  split
  · rename_i i hi
    split
    · obtain ⟨n, hn, rfl⟩ : ∃ n, Exact.magnitude? ⟨isMinus s, m, k⟩ = some n ∧
          (if isMinus s then -(n : ℤ) else n) = i := by
        simpa [Number.toInt?, exact?_of_unpack h, Option.bind_eq_some_iff] using hi
      have hvalue := magnitude?_value hn
      have hne : n ≠ 0 := by
        rintro rfl
        have hpos : (0 : ℚ) < m * 2 ^ k := by positivity
        exact hpos.ne hvalue
      refine ⟨Text.decimal n, _, ?_, spells_decimal n, ?_⟩
      · rw [String.toList_ofList, signedDecimal_eq hne]
      · rw [toNumber_digitsOf hne, hvalue]
    · exact literal_of_unpack h .printed
  · exact literal_of_unpack h .printed

end signed

theorem spells_literal_zero (spelling : Spelling) :
    Spells (Number.literal spelling 0.0).toList ⟨[0], [0], none⟩ := by
  have hspells := Spells.parts (spell_zeros 1) (by simp) (.point (spell_zeros 1) (by simp)) .absent
  have hliteral : Number.literal spelling 0.0 = "0.0" := rfl
  rw [hliteral]
  exact hspells

theorem toNumber_digitsOf_zero : Spelled.toNumber ⟨Text.digitsOf 0, [], none⟩ = 0.0 := by
  apply toNumber_of_coefficient_zero
  rw [Decimal.ofParts, List.append_nil, Text.ofDigits_digitsOf]

/-- The literal form of a number without a sign spells it. -/
theorem spells_numeral {x : Number} (hf : x.isFinite = true) (hn : 0.0 ≤ x) (hz : x ≠ -0.0)
    (spelling : Spelling) : ∃ s, Spells (x.literal spelling).toList s ∧ s.toNumber = x := by
  rcases finite_cases hf with rfl | rfl | ⟨s, m, k, hm, h⟩
  · exact ⟨_, spells_literal_zero spelling, by decide⟩
  · exact absurd rfl hz
  · cases s with
    | positive =>
      obtain ⟨digits, spelled, htext, hspells, hs⟩ := literal_of_unpack h spelling
      rw [htext]
      exact ⟨spelled, hspells, by rw [hs, ← eq_near h]⟩
    | negative => exact absurd hn (not_nonneg_of_unpack h)

/-- The number that the printed form of a number spells: a zero loses its sign. -/
def Number.shown (x : Number) : Number := if x = -0.0 then 0.0 else x

theorem shown_of_unpack {x : Number} {s : Sign} {m : ℕ} {k : ℤ} {hm : 0 < m}
    (h : x.toModel.unpack = .finite s m k hm) : x.shown = x := by
  unfold Number.shown
  rw [if_neg]
  rintro rfl
  cases h

/-- The printed form of a finite number spells it, or its negation after a minus sign. -/
theorem spells_text {x : Number} (hf : x.isFinite = true) :
    ∃ s, (Spells x.text.toList s ∧ s.toNumber = x.shown) ∨
      ∃ digits, x.text.toList = '-' :: digits ∧ Spells digits s ∧ -s.toNumber = x.shown := by
  rcases finite_cases hf with rfl | rfl | ⟨s, m, k, hm, h⟩
  · have htext : Number.text 0.0 = String.ofList (Text.decimal 0) := rfl
    rw [htext, String.toList_ofList]
    exact ⟨_, Or.inl ⟨spells_decimal 0, toNumber_digitsOf_zero⟩⟩
  · have htext : Number.text (-0.0) = String.ofList (Text.decimal 0) := rfl
    rw [htext, String.toList_ofList]
    exact ⟨_, Or.inl ⟨spells_decimal 0, toNumber_digitsOf_zero⟩⟩
  · obtain ⟨digits, spelled, htext, hspells, hs⟩ := text_of_unpack h
    rw [shown_of_unpack h]
    cases s with
    | positive =>
      rw [htext]
      exact ⟨spelled, Or.inl ⟨hspells, by rw [hs, ← eq_near h]⟩⟩
    | negative => exact ⟨spelled, Or.inr ⟨digits, htext, hspells, by rw [hs, ← eq_neg_near h]⟩⟩

end BellaLang
