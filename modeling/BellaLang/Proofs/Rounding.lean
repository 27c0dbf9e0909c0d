-- Rounding, said by the rational number that is rounded. The steps that read a
-- decimal keep some bits and whether anything was cut off; each way of reading
-- comes to the double nearest to the decimal's value.
import Mathlib
import BellaLang.Number.Decimal

namespace BellaLang

open Float.Model UnpackedFloat

/-! ## Bits that are kept -/

/-- The first bits of a rational: what stands before the point, the first bit after it, and
whether anything follows. -/
def extended (x : ℚ) : ExtendedMantissa :=
  ⟨⌊2 * x⌋₊ / 2, ⌊2 * x⌋₊ % 2 != 0, (⌊2 * x⌋₊ : ℚ) ≠ 2 * x⟩

theorem extended_natCast (m : ℕ) : extended m = .ofMantissaAndAccuracy m .exact := by
  have hfloor : ⌊2 * (m : ℚ)⌋₊ = 2 * m := by
    rw [show 2 * (m : ℚ) = ((2 * m : ℕ) : ℚ) by push_cast; ring, Nat.floor_natCast]
  simp [extended, hfloor, ExtendedMantissa.ofMantissaAndAccuracy]

theorem shiftRightOne_extended {x : ℚ} (h : 0 ≤ x) :
    (extended x).shiftRightOne = extended (x / 2) := by
  have hfloor : ⌊2 * (x / 2)⌋₊ = ⌊2 * x⌋₊ / 2 := by
    rw [show 2 * (x / 2) = 2 * x / 2 by ring, Nat.floor_div_ofNat]
  simp only [extended, ExtendedMantissa.shiftRightOne, hfloor, ExtendedMantissa.mk.injEq, true_and]
  have hle : (⌊2 * x⌋₊ : ℚ) ≤ 2 * x := Nat.floor_le (by linarith)
  rw [Bool.eq_iff_iff]
  simp only [Bool.or_eq_true, bne_iff_ne, decide_eq_true_eq]
  generalize ⌊2 * x⌋₊ = n at *
  have hsplit : (n : ℚ) = 2 * (n / 2 : ℕ) + (n % 2 : ℕ) := by
    exact_mod_cast (Nat.div_add_mod n 2).symm
  -- Nothing is cut off exactly when the last bit is zero and nothing was cut off before.
  rcases Nat.mod_two_eq_zero_or_one n with hbit | hbit
  · rw [hbit, Nat.cast_zero, add_zero] at hsplit
    simp only [hbit, ne_eq, not_true_eq_false, false_or, hsplit]
    constructor <;> intro hne heq <;> exact hne (by linarith)
  · rw [hbit, Nat.cast_one] at hsplit
    simp only [hbit, ne_eq, one_ne_zero, not_false_eq_true, true_or, true_iff]
    intro heq
    linarith

theorem shiftRight_extended {x : ℚ} (h : 0 ≤ x) (n : ℕ) :
    extended x >>> n = extended (x / 2 ^ n) := by
  change n.repeat ExtendedMantissa.shiftRightOne (extended x) = _
  induction n with
  | zero => simp [Nat.repeat]
  | succ n ih =>
    rw [Nat.repeat, ih, shiftRightOne_extended (by positivity), div_div, pow_succ]

/-- A quotient with what its remainder says. -/
theorem extended_div (a : ℕ) {b : ℕ} (hb : 0 < b) :
    extended ((a : ℚ) / b) = .ofMantissaAndAccuracy (a / b) (accuracyOfFraction (a % b) b) := by
  have hfloor : ⌊2 * ((a : ℚ) / b)⌋₊ = 2 * a / b := by
    rw [← Nat.floor_div_eq_div (K := ℚ), Nat.cast_mul, Nat.cast_ofNat, mul_div_assoc]
  have hparts : 2 * a / b = 2 * (a / b) + 2 * (a % b) / b := by
    conv_lhs => rw [← Nat.div_add_mod a b]
    rw [show 2 * (b * (a / b) + a % b) = 2 * (a % b) + b * (2 * (a / b)) by ring,
      Nat.add_mul_div_left _ _ hb, Nat.add_comm]
  have hexact : ((2 * a / b : ℕ) : ℚ) = 2 * ((a : ℚ) / b) ↔ 2 * (a % b) % b = 0 := by
    have hmod : 2 * (a % b) % b = 2 * a % b := by rw [Nat.mul_mod_mod]
    rw [hmod, ← mul_div_assoc, eq_div_iff (by positivity)]
    rw [← Nat.dvd_iff_mod_eq_zero]
    constructor
    · intro h
      have h : 2 * a / b * b = 2 * a := by exact_mod_cast h
      exact Dvd.intro_left _ h
    · intro h
      exact_mod_cast Nat.div_mul_cancel h
  have hmod : a % b < b := Nat.mod_lt _ hb
  simp only [extended, hfloor, hexact, ne_eq]
  rw [hparts]
  clear hfloor hexact hparts
  generalize a % b = r at *
  generalize a / b = d at *
  unfold accuracyOfFraction
  split
  · rename_i hzero
    simp [hzero, ExtendedMantissa.ofMantissaAndAccuracy]
  · rename_i hne
    rcases hcmp : compare (2 * r) b with _ | _ | _
    · have hlt := Nat.compare_eq_lt.1 hcmp
      rw [Nat.div_eq_of_lt hlt, Nat.mod_eq_of_lt hlt]
      simp [ExtendedMantissa.ofMantissaAndAccuracy, hne]
    · have heq := Nat.compare_eq_eq.1 hcmp
      rw [heq, Nat.div_self hb, Nat.mod_self]
      simp [ExtendedMantissa.ofMantissaAndAccuracy]
      omega
    · have hgt := Nat.compare_eq_gt.1 hcmp
      have hone : 2 * r / b = 1 := Nat.div_eq_of_lt_le (by omega) (by omega)
      have hrest : 2 * r % b = 2 * r - b := by
        rw [Nat.mod_eq_sub_mod (by omega), Nat.mod_eq_of_lt (by omega)]
      rw [hone, hrest]
      simp [ExtendedMantissa.ofMantissaAndAccuracy]
      omega

theorem floor_extended (x : ℚ) : (extended x).mantissa = ⌊x⌋₊ := by
  simp only [extended]
  rw [← Nat.floor_div_ofNat]
  congr 1
  ring

theorem log2_add {q : ℚ} {e : ℤ} (h : ⌊q / 2 ^ e⌋₊ ≠ 0) :
    (⌊q / 2 ^ e⌋₊.log2 : ℤ) + e = Int.log 2 q := by
  have hpos : (0 : ℚ) < 2 ^ e := by positivity
  have hone : 1 ≤ q / 2 ^ e := (Nat.one_le_floor_iff _).1 (Nat.one_le_iff_ne_zero.2 h)
  have hq : 0 < q := (div_pos_iff_of_pos_right hpos).1 (lt_of_lt_of_le one_pos hone)
  have hlog : (⌊q / 2 ^ e⌋₊.log2 : ℤ) = Int.log 2 (q / 2 ^ e) := by
    rw [Int.log_of_one_le_right _ hone, Nat.log2_eq_log_two]
  have hlow := Int.zpow_log_le_self (R := ℚ) one_lt_two (lt_of_lt_of_le one_pos hone)
  have hhigh := Int.lt_zpow_succ_log_self (R := ℚ) one_lt_two (q / 2 ^ e)
  rw [← hlog, Nat.cast_ofNat] at hlow hhigh
  rw [le_div_iff₀ hpos, ← zpow_add₀ two_ne_zero] at hlow
  rw [div_lt_iff₀ hpos, ← zpow_add₀ two_ne_zero] at hhigh
  apply le_antisymm
  · exact (Int.zpow_le_iff_le_log one_lt_two hq).1 (by exact_mod_cast hlow)
  · apply Int.lt_add_one_iff.1
    apply (Int.lt_zpow_iff_log_lt one_lt_two hq).1
    rw [Nat.cast_ofNat]
    rwa [show (⌊q / 2 ^ e⌋₊.log2 : ℤ) + e + 1 = (⌊q / 2 ^ e⌋₊.log2 : ℤ) + 1 + e by ring]

/-! ## The nearest double -/

/-- The exponent that a double near a rational has. -/
def grid (q : ℚ) : ℤ := Format.binary64.targetExponent (Int.log 2 q + 1)

/-- A rounded mantissa brought to the exponent that it should have. -/
def settle (s : Sign) (m : ℕ) (e : ℤ) : UnpackedFloat :=
  let (em, e') := shiftToTargetExponent .binary64 m e .exact
  if h : em.mantissa = 0 then .zero s else .finite s em.mantissa e' (Nat.pos_of_ne_zero h)

/-- The double nearest to a positive rational, of two equally near ones the even one. -/
def nearest (s : Sign) (q : ℚ) : UnpackedFloat :=
  settle s (extended (q / 2 ^ grid q)).roundedMantissa (grid q)

theorem grid_eq (q : ℚ) : grid q = max (Int.log 2 q - 52) (-1074) := by
  have hmin : Format.binary64.minExponent = -1074 := rfl
  have hbits : Format.binary64.mantissaBits = 53 := rfl
  rw [grid, Format.targetExponent, hmin, hbits]
  congr 1
  push_cast
  ring

theorem targetExponent_eq (m : ℕ) (e : ℤ) :
    Format.binary64.targetExponent (totalExponent m e) = max (m.log2 + e - 52) (-1074) := by
  have hmin : Format.binary64.minExponent = -1074 := rfl
  have hbits : Format.binary64.mantissaBits = 53 := rfl
  rw [totalExponent, Format.targetExponent, hmin, hbits]
  congr 1
  push_cast
  ring

theorem log_lt_of_floor_eq_zero {q : ℚ} (hq : 0 < q) {e : ℤ} (h : ⌊q / 2 ^ e⌋₊ = 0) :
    Int.log 2 q < e := by
  have hpos : (0 : ℚ) < 2 ^ e := by positivity
  have hlt : q / 2 ^ e < 1 := Nat.floor_eq_zero.1 h
  rw [div_lt_one hpos] at hlt
  exact (Int.lt_zpow_iff_log_lt one_lt_two hq).1 (by exact_mod_cast hlt)

/-- Rounding depends on the value alone, if no bit that matters is lost before. -/
theorem roundWithAccuracy_eq {s : Sign} {q : ℚ} {m : ℕ} {e : ℤ} {acc : Accuracy} (hq : 0 < q)
    (h : .ofMantissaAndAccuracy m acc = extended (q / 2 ^ e)) (he : e ≤ grid q)
    (hm : m ≠ 0 ∨ e = -1074) :
    roundWithAccuracy .binary64 s m e acc = nearest s q := by
  have hfloor : m = ⌊q / 2 ^ e⌋₊ := by
    rw [← floor_extended, ← h]
    rcases acc with _ | _ | _ | _ <;> rfl
  have htarget : Format.binary64.targetExponent (totalExponent m e) = grid q := by
    rw [targetExponent_eq, grid_eq]
    by_cases hzero : m = 0
    · have hlog := log_lt_of_floor_eq_zero hq (hfloor.symm.trans hzero)
      have he := hm.resolve_left (not_not.2 hzero)
      rw [hzero, Nat.log2_zero]
      omega
    · rw [hfloor, log2_add (hfloor ▸ hzero)]
  have hshift : (shiftToTargetExponent .binary64 m e acc) =
      (extended (q / 2 ^ grid q), grid q) := by
    have hsum : e + ((grid q - e).toNat : ℤ) = grid q := by omega
    rw [shiftToTargetExponent, htarget, shiftToExponent, h, hsum,
      shiftRight_extended (by positivity), div_div, ← zpow_natCast, ← zpow_add₀ two_ne_zero, hsum]
  rw [roundWithAccuracy, hshift]
  rfl

theorem log_mul_zpow {m : ℕ} (hm : m ≠ 0) (e : ℤ) : Int.log 2 ((m : ℚ) * 2 ^ e) = m.log2 + e := by
  have hfloor : ⌊(m : ℚ) * 2 ^ e / 2 ^ e⌋₊ = m := by
    rw [mul_div_cancel_right₀ _ (by positivity), Nat.floor_natCast]
  rw [← log2_add (e := e) (hfloor.symm ▸ hm), hfloor]

theorem grid_mul_zpow {m : ℕ} (hm : m ≠ 0) (e : ℤ) :
    grid ((m : ℚ) * 2 ^ e) = max (m.log2 + e - 52) (-1074) := by
  rw [grid_eq, log_mul_zpow hm]

theorem roundWithAccuracy_exact {s : Sign} {m : ℕ} {e : ℤ} (hm : m ≠ 0)
    (he : e ≤ max (m.log2 + e - 52) (-1074)) :
    roundWithAccuracy .binary64 s m e .exact = nearest s (m * 2 ^ e) := by
  have hpos : (0 : ℚ) < m := by exact_mod_cast Nat.pos_of_ne_zero hm
  apply roundWithAccuracy_eq (by positivity)
  · rw [mul_div_cancel_right₀ _ (by positivity), extended_natCast]
  · rw [grid_mul_zpow hm]
    exact he
  · exact Or.inl hm

theorem round_eq_nearest {m : ℕ} (hm : m ≠ 0) (s : Sign) (e : ℤ) :
    UnpackedFloat.round .binary64 s m e = nearest s (m * 2 ^ e) := by
  have hgrid := grid_mul_zpow hm e
  rw [UnpackedFloat.round, decreaseExponent, targetExponent_eq, ← hgrid]
  simp only
  generalize hk : (e - grid ((m : ℚ) * 2 ^ e)).toNat = k
  have hshift : m <<< k ≠ 0 := by
    rw [Nat.shiftLeft_eq]
    positivity
  have hvalue : ((m <<< k : ℕ) : ℚ) * 2 ^ (e - k) = m * 2 ^ e := by
    rw [Nat.shiftLeft_eq, Nat.cast_mul, Nat.cast_pow, Nat.cast_ofNat, mul_assoc, ← zpow_natCast,
      ← zpow_add₀ two_ne_zero]
    congr 2
    ring
  rw [← hvalue]
  apply roundWithAccuracy_exact hshift
  rw [← grid_mul_zpow hshift, hvalue]
  omega

theorem mul_eq_nearest {s₁ s₂ : Sign} {m₁ m₂ : ℕ} {e₁ e₂ : ℤ} (h₁ : 0 < m₁) (h₂ : 0 < m₂)
    (hbits : 52 ≤ (m₁ * m₂).log2) :
    UnpackedFloat.mul .binary64 (.finite s₁ m₁ e₁ h₁) (.finite s₂ m₂ e₂ h₂) =
      nearest (s₁ * s₂) (m₁ * 2 ^ e₁ * (m₂ * 2 ^ e₂)) := by
  rw [UnpackedFloat.mul, roundWithAccuracy_exact (by positivity) (by omega), zpow_add₀ two_ne_zero]
  congr 1
  push_cast
  ring

theorem div_eq_nearest {s₁ s₂ : Sign} {m₁ m₂ : ℕ} {e₁ e₂ : ℤ} (h₁ : 0 < m₁) (h₂ : 0 < m₂)
    (hexp : -1074 ≤ e₁ - e₂) :
    UnpackedFloat.div .binary64 (.finite s₁ m₁ e₁ h₁) (.finite s₂ m₂ e₂ h₂) =
      nearest (s₁ / s₂) (m₁ * 2 ^ e₁ / (m₂ * 2 ^ e₂)) := by
  rw [UnpackedFloat.div, divCore]
  simp only
  have htarget : Format.binary64.targetExponent (totalExponent m₁ e₁ - totalExponent m₂ e₂) =
      max (m₁.log2 + e₁ - (m₂.log2 + e₂) - 53) (-1074) := by
    have hmin : Format.binary64.minExponent = -1074 := rfl
    have hbits : Format.binary64.mantissaBits = 53 := rfl
    rw [totalExponent, totalExponent, Format.targetExponent, hmin, hbits]
    congr 1
    push_cast
    ring
  rw [htarget]
  generalize hT : min (e₁ - e₂) (max (m₁.log2 + e₁ - (m₂.log2 + e₂) - 53) (-1074)) = T
  generalize hk : (e₁ - e₂ - T).toNat = k
  have hq : (0 : ℚ) < m₁ * 2 ^ e₁ / (m₂ * 2 ^ e₂) := by positivity
  have hlog : m₁.log2 + e₁ - (m₂.log2 + e₂) - 1 ≤
      Int.log 2 ((m₁ : ℚ) * 2 ^ e₁ / (m₂ * 2 ^ e₂)) := by
    rw [← Int.zpow_le_iff_le_log one_lt_two hq, Nat.cast_ofNat, le_div_iff₀ (by positivity)]
    have hlow := Int.zpow_log_le_self (R := ℚ) one_lt_two (show (0 : ℚ) < m₁ * 2 ^ e₁ by positivity)
    have hhigh := Int.lt_zpow_succ_log_self (R := ℚ) one_lt_two (m₂ * 2 ^ e₂)
    rw [log_mul_zpow (by omega), Nat.cast_ofNat] at hlow hhigh
    calc (2 : ℚ) ^ (m₁.log2 + e₁ - (m₂.log2 + e₂) - 1) * (m₂ * 2 ^ e₂)
        ≤ 2 ^ (m₁.log2 + e₁ - (m₂.log2 + e₂) - 1) * 2 ^ (m₂.log2 + e₂ + 1) :=
          mul_le_mul_of_nonneg_left hhigh.le (by positivity)
      _ = 2 ^ (m₁.log2 + e₁) := by
          rw [← zpow_add₀ two_ne_zero]
          congr 1
          ring
      _ ≤ m₁ * 2 ^ e₁ := hlow
  have hquot : ((m₁ : ℚ) * 2 ^ e₁ / (m₂ * 2 ^ e₂)) / 2 ^ T = ((m₁ <<< k : ℕ) : ℚ) / m₂ := by
    have hpow : (2 : ℚ) ^ e₁ = 2 ^ k * 2 ^ e₂ * 2 ^ T := by
      rw [← zpow_natCast, ← zpow_add₀ two_ne_zero, ← zpow_add₀ two_ne_zero]
      congr 1
      omega
    rw [Nat.shiftLeft_eq, Nat.cast_mul, Nat.cast_pow, Nat.cast_ofNat, hpow]
    field_simp
  apply roundWithAccuracy_eq hq
  · rw [hquot, extended_div _ h₂]
  · rw [grid_eq]
    omega
  · by_cases hzero : m₁ <<< k / m₂ = 0
    · right
      have hfloor : ⌊((m₁ : ℚ) * 2 ^ e₁ / (m₂ * 2 ^ e₂)) / 2 ^ T⌋₊ = 0 := by
        rw [hquot, Nat.floor_div_eq_div, hzero]
      have := log_lt_of_floor_eq_zero hq hfloor
      omega
    · exact Or.inl hzero

/-! ## Values that a double holds -/

/-- The mantissas and exponents that finite doubles have. -/
structure Canonical (m : ℕ) (e : ℤ) : Prop where
  pos : 0 < m
  lt : m < 2 ^ 53
  least : -1074 ≤ e
  most : e ≤ 971
  normal : 2 ^ 52 ≤ m ∨ e = -1074

theorem log2_lt_of_lt {m k : ℕ} (hm : 0 < m) (h : m < 2 ^ k) : m.log2 < k :=
  (Nat.log2_lt hm.ne').2 h

theorem Canonical.target {m : ℕ} {e : ℤ} (h : Canonical m e) :
    max (m.log2 + e - 52) (-1074) = e := by
  have hlt := log2_lt_of_lt h.pos h.lt
  have hleast := h.least
  rcases h.normal with hnormal | heq
  · have hge := (Nat.le_log2 h.pos.ne').2 hnormal
    omega
  · omega

theorem settle_of_target {s : Sign} {m : ℕ} {e : ℤ} (hm : 0 < m)
    (h : max (m.log2 + e - 52) (-1074) = e) : settle s m e = .finite s m e hm := by
  have hshift : shiftToTargetExponent .binary64 m e .exact =
      (.ofMantissaAndAccuracy m .exact, e) := by
    rw [shiftToTargetExponent, targetExponent_eq, h, shiftToExponent]
    simp only [sub_self, Int.toNat_zero, Nat.cast_zero, add_zero]
    rfl
  rw [settle, hshift]
  exact dif_neg hm.ne'

/-- A value that a double holds is kept as it is. -/
theorem nearest_canonical {m : ℕ} {e : ℤ} (h : Canonical m e) (s : Sign) :
    nearest s (m * 2 ^ e) = .finite s m e h.pos := by
  have hgrid : grid ((m : ℚ) * 2 ^ e) = e := by rw [grid_mul_zpow h.pos.ne', h.target]
  rw [nearest, hgrid, mul_div_cancel_right₀ _ (by positivity), extended_natCast]
  exact settle_of_target h.pos h.target

theorem nearest_of_small {q : ℚ} (hq : 0 < q) (hlog : Int.log 2 q < -1076) (s : Sign) :
    nearest s q = .zero s := by
  have h : q < 2 ^ (-1076 : ℤ) := by
    exact_mod_cast (Int.lt_zpow_iff_log_lt one_lt_two hq).2 hlog
  have hgrid : grid q = -1074 := by
    rw [grid_eq]
    omega
  have hhalf : ⌊2 * (q / 2 ^ (-1074 : ℤ))⌋₊ = 0 := by
    have hquarter : (2 : ℚ) ^ (-1076 : ℤ) = 2 ^ (-1074 : ℤ) / 4 := by
      rw [show (-1076 : ℤ) = -1074 - 2 by norm_num, zpow_sub₀ two_ne_zero]
      norm_num
    have hpos : (0 : ℚ) < 2 ^ (-1074 : ℤ) := by positivity
    rw [Nat.floor_eq_zero, ← mul_div_assoc, div_lt_one hpos]
    linarith
  have hround : (extended (q / 2 ^ (-1074 : ℤ))).roundedMantissa = 0 := by
    simp only [extended, hhalf]
    cases decide (((0 : ℕ) : ℚ) ≠ 2 * (q / 2 ^ (-1074 : ℤ))) <;> rfl
  rw [nearest, hgrid, hround]
  rfl

theorem mantissa_le_roundedMantissa (em : ExtendedMantissa) : em.mantissa ≤ em.roundedMantissa := by
  obtain ⟨m, r, s⟩ := em
  cases r <;> cases s <;> simp [ExtendedMantissa.roundedMantissa, ExtendedMantissa.accuracy,
    Accuracy.roundToNearestEven]

theorem settle_of_ne_zero {m : ℕ} (hm : m ≠ 0) {e : ℤ} (he : -1074 ≤ e) (s : Sign) :
    ∃ m' e' h, settle s m e = .finite s m' e' h ∧ e ≤ e' := by
  rw [settle, shiftToTargetExponent, targetExponent_eq, shiftToExponent, ← extended_natCast]
  generalize hk : (max (m.log2 + e - 52) (-1074) - e).toNat = k
  have hmantissa : (extended m >>> k).mantissa = m / 2 ^ k := by
    rw [shiftRight_extended (by positivity), floor_extended, ← Nat.floor_div_eq_div (K := ℚ)]
    push_cast
    rfl
  have hne : m / 2 ^ k ≠ 0 := by
    rw [Nat.div_ne_zero_iff]
    exact ⟨by positivity, (Nat.le_log2 hm).1 (by omega)⟩
  refine ⟨_, _, Nat.pos_of_ne_zero (hmantissa ▸ hne), dif_neg (hmantissa ▸ hne), by omega⟩

theorem pack_nearest_of_large {q : ℚ} (hq : 0 < q) (hlog : 1024 ≤ Int.log 2 q) (s : Sign) :
    UnpackedFloat.pack .binary64 (nearest s q) = packedInfinity .binary64 s := by
  have hgrid : grid q = Int.log 2 q - 52 := by
    rw [grid_eq]
    omega
  have hone : (1 : ℚ) ≤ q / 2 ^ grid q := by
    have hlow := Int.zpow_log_le_self (R := ℚ) one_lt_two hq
    rw [one_le_div (by positivity)]
    refine le_trans (zpow_le_zpow_right₀ one_le_two ?_) (by exact_mod_cast hlow)
    omega
  have hround : (extended (q / 2 ^ grid q)).roundedMantissa ≠ 0 := by
    have hle := mantissa_le_roundedMantissa (extended (q / 2 ^ grid q))
    rw [floor_extended] at hle
    have := (Nat.one_le_floor_iff _).2 hone
    omega
  have hleast : -1074 ≤ grid q := by omega
  obtain ⟨m', e', hm', heq, hexp⟩ := settle_of_ne_zero hround hleast s
  rw [nearest, heq, UnpackedFloat.pack]
  apply if_pos
  have hbias : Format.binary64.exponentBias = 1023 := rfl
  rw [hbias]
  simp
  omega

/-! ## Packing -/

theorem toNat_append_one {n : ℕ} (b : BitVec n) : (1#1 ++ b).toNat = 2 ^ n + b.toNat := by
  rw [BitVec.toNat_append, ← Nat.shiftLeft_add_eq_or_of_lt b.isLt]
  simp [Nat.shiftLeft_eq]

theorem canonical_of_unpack {b : BitVec Format.binary64.numBits} {s : Sign} {m : ℕ} {e : ℤ}
    {hm : 0 < m} (h : UnpackedFloat.unpack .binary64 b = .finite s m e hm) : Canonical m e := by
  unfold UnpackedFloat.unpack at h
  have hbias : Format.binary64.exponentBias = 1023 := rfl
  have hmant : (unpackMantissa b).toNat < 2 ^ 52 := (unpackMantissa b).isLt
  have hexp : (unpackExponent b).toNat < 2 ^ 11 := (unpackExponent b).isLt
  simp only [hbias, toNat_append_one] at h
  split at h
  · split at h <;> cases h
  · rename_i hinf
    have hinf : (unpackExponent b).toNat ≠ 2047 := by
      intro heq
      exact hinf (BitVec.eq_of_toNat_eq heq)
    split at h
    · split at h
      · cases h
      · rename_i hzero _
        rw [hzero] at h
        simp only [UnpackedFloat.finite.injEq] at h
        obtain ⟨_, rfl, rfl⟩ := h
        exact ⟨hm, by omega, by simp, by simp, Or.inr (by simp)⟩
    · rename_i hzero
      have hzero : (unpackExponent b).toNat ≠ 0 := by
        intro heq
        exact hzero (BitVec.eq_of_toNat_eq heq)
      simp only [UnpackedFloat.finite.injEq] at h
      obtain ⟨_, rfl, rfl⟩ := h
      exact ⟨hm, by omega, by push_cast; omega, by push_cast; omega, Or.inl (by omega)⟩

theorem unpack_pack_canonical {m : ℕ} {e : ℤ} (h : Canonical m e) (s : Sign) :
    UnpackedFloat.unpack .binary64 (UnpackedFloat.pack .binary64 (.finite s m e h.pos)) =
      .finite s m e h.pos := by
  have hbias : Format.binary64.exponentBias = 1023 := rfl
  have hbits : Format.binary64.mantissaBits = 53 := rfl
  have htarget := h.target
  obtain ⟨hm, hlt, hleast, hmost, hnormal⟩ := h
  rw [UnpackedFloat.pack]
  simp only [hbias, hbits]
  rw [if_neg (by omega)]
  generalize hbiased : (e + (1023 : ℕ) + (52 : ℕ)).toNat = biased
  have hexp : (BitVec.ofNat 11 biased).toNat = biased := Nat.mod_eq_of_lt (by omega)
  have hinf : BitVec.ofNat 11 biased ≠ -1#11 := by
    intro heq
    have := congrArg BitVec.toNat heq
    rw [hexp] at this
    have hones : (-1#11).toNat = 2047 := rfl
    omega
  split
  · rename_i hlog
    have hge : 2 ^ 52 ≤ m := (Nat.le_log2 hm.ne').1 (by omega)
    have hzero : BitVec.ofNat 11 biased ≠ 0#11 := by
      intro heq
      have := congrArg BitVec.toNat heq
      rw [hexp] at this
      simp at this
      omega
    have hmant : (1#1 ++ BitVec.ofNat 52 m).toNat = m := by
      rw [toNat_append_one, BitVec.toNat_ofNat]
      omega
    rw [UnpackedFloat.unpack]
    simp only [unpackExponent_packComponents, unpackMantissa_packComponents,
      unpackSign_packComponents, Sign.ofBitVec_toBitVec]
    rw [if_neg hinf, if_neg hzero]
    simp only [UnpackedFloat.finite.injEq, true_and]
    refine ⟨hmant, ?_⟩
    rw [hexp, hbias]
    omega
  · rename_i hlog
    have hle := log2_lt_of_lt hm hlt
    have hmant : (BitVec.ofNat 52 m).toNat = m :=
      Nat.mod_eq_of_lt ((Nat.log2_lt hm.ne').1 (by omega))
    have hne : BitVec.ofNat 52 m ≠ 0#52 := by
      intro heq
      have hzero := congrArg BitVec.toNat heq
      rw [hmant] at hzero
      exact hm.ne' hzero
    rw [UnpackedFloat.unpack]
    simp only [unpackExponent_packComponents, unpackMantissa_packComponents,
      unpackSign_packComponents, Sign.ofBitVec_toBitVec]
    rw [if_neg (by decide), if_pos trivial, dif_neg hne]
    simp only [UnpackedFloat.finite.injEq, true_and]
    refine ⟨hmant, ?_⟩
    rw [hbias]
    simp
    omega

/-! ## Decimals -/

/-- The value of a decimal. -/
def Decimal.value (d : Decimal) : ℚ := d.coefficient * 10 ^ d.exponent

/-- The double of a positive rational. -/
def Number.near (q : ℚ) : Number := .ofModel (.pack (nearest .positive q))

theorem pack_eq {u v : UnpackedFloat}
    (h : UnpackedFloat.pack .binary64 u = UnpackedFloat.pack .binary64 v) :
    Float.Model.pack u = Float.Model.pack v := by
  simp only [Float.Model.pack, h]

theorem two_zpow_le_ten_zpow {e : ℤ} (h : 0 ≤ e) : (2 : ℚ) ^ e ≤ 10 ^ e := by
  obtain ⟨n, rfl⟩ := Int.eq_ofNat_of_zero_le h
  simp only [zpow_natCast]
  gcongr
  norm_num

/-- The power of two below a decimal, as far as it is needed. -/
theorem le_log_value {m : ℕ} (hm : m ≠ 0) {e : ℤ} (he : 0 ≤ e) :
    e ≤ Int.log 2 ((m : ℚ) * 10 ^ e) := by
  have hpos : (0 : ℚ) < m := by exact_mod_cast Nat.pos_of_ne_zero hm
  have hone : (1 : ℚ) ≤ m := by exact_mod_cast Nat.pos_of_ne_zero hm
  rw [← Int.zpow_le_iff_le_log one_lt_two (by positivity), Nat.cast_ofNat]
  calc (2 : ℚ) ^ e ≤ 10 ^ e := two_zpow_le_ten_zpow he
    _ ≤ m * 10 ^ e := le_mul_of_one_le_left (by positivity) hone

theorem log_value_lt {m : ℕ} (hm : m ≠ 0) {e : ℤ} (he : e ≤ 0) :
    Int.log 2 ((m : ℚ) * 10 ^ e) < m.log2 + 1 + e := by
  have hpos : (0 : ℚ) < m := by exact_mod_cast Nat.pos_of_ne_zero hm
  rw [← Int.lt_zpow_iff_log_lt one_lt_two (by positivity), Nat.cast_ofNat, zpow_add₀ two_ne_zero]
  have hlt : (m : ℚ) < 2 ^ (m.log2 + 1 : ℤ) := by
    exact_mod_cast Nat.lt_log2_self
  have hle : (10 : ℚ) ^ e ≤ 2 ^ e := by
    have := two_zpow_le_ten_zpow (e := -e) (by omega)
    rw [zpow_neg, zpow_neg] at this
    exact (inv_le_inv₀ (by positivity) (by positivity)).1 this
  exact mul_lt_mul hlt hle (by positivity) (by positivity)

theorem pack_ofScientific {m : ℕ} (hm : m ≠ 0) (e : ℤ) :
    Float.Model.pack (UnpackedFloat.ofScientific .binary64 m e) =
      .pack (nearest .positive (m * 10 ^ e)) := by
  have hpos : (0 : ℚ) < m := by exact_mod_cast Nat.pos_of_ne_zero hm
  have hbits : (2 : ℤ) ^ Format.binary64.exponentBits = 2048 := rfl
  unfold UnpackedFloat.ofScientific
  rw [dif_neg hm, hbits]
  split
  · rename_i hlarge
    have hlog := le_log_value hm (show 0 ≤ e by omega)
    apply pack_eq
    rw [pack_nearest_of_large (by positivity) (by omega)]
    rfl
  · split
    · rename_i hsmall
      have hlog := log_value_lt hm (show e ≤ 0 by omega)
      rw [nearest_of_small (by positivity) (by omega)]
    · split
      · rename_i hnonneg
        have hlog : 52 ≤ (m <<< 53 * 10 ^ e.toNat).log2 := by
          have hne : m <<< 53 * 10 ^ e.toNat ≠ 0 := by
            rw [Nat.shiftLeft_eq]
            positivity
          rw [Nat.le_log2 hne, Nat.shiftLeft_eq]
          calc 2 ^ 52 ≤ 1 * 2 ^ 53 * 1 := by norm_num
            _ ≤ m * 2 ^ 53 * 10 ^ e.toNat := by
              gcongr <;> exact Nat.one_le_iff_ne_zero.2 (by positivity)
        refine (congrArg Float.Model.pack (mul_eq_nearest _ _ hlog)).trans ?_
        congr 2
        obtain ⟨n, rfl⟩ := Int.eq_ofNat_of_zero_le hnonneg
        have hbits : Format.binary64.mantissaBits = 53 := rfl
        rw [Nat.shiftLeft_eq, hbits]
        push_cast
        rw [zpow_neg, zpow_natCast]
        field_simp
        norm_num
      · rename_i hneg
        rw [div_eq_nearest _ _ (by norm_num)]
        congr 2
        obtain ⟨n, rfl⟩ : ∃ n : ℕ, e = -n := ⟨(-e).toNat, by omega⟩
        simp [div_eq_mul_inv]

theorem near_eq_round {m : ℕ} (hm : m ≠ 0) :
    Number.near m = .ofModel (.pack (UnpackedFloat.round .binary64 .positive m 0)) := by
  rw [round_eq_nearest hm, zpow_zero, mul_one]
  rfl

theorem powerOfTen_eq {e : ℕ} (h : e < Float.exactlyRepresentablePowersOfTen.size) :
    Float.exactlyRepresentablePowersOfTen[e] = Number.near (10 ^ e) := by
  have hall : ∀ e (h : e < Float.exactlyRepresentablePowersOfTen.size),
      Float.exactlyRepresentablePowersOfTen[e] =
        .ofModel (.pack (UnpackedFloat.round .binary64 .positive (10 ^ e) 0)) := by
    decide
  rw [hall e h, ← near_eq_round (by positivity)]
  push_cast
  rfl

theorem toFloat_eq {m : ℕ} (hm : m ≠ 0) (h : m < 2 ^ 53) : m.toUInt64.toFloat = Number.near m := by
  have hword : m.toUInt64.toNat = m := by
    simp
    omega
  have hgt : compare (m : ℤ) 0 = .gt := by
    rw [Int.compare_eq_gt]
    omega
  have hnormalize : UnpackedFloat.normalize .binary64 m 0 .positive =
      UnpackedFloat.round .binary64 .positive m 0 := by
    rw [UnpackedFloat.normalize, hgt]
    rfl
  rw [near_eq_round hm, ← hnormalize]
  change Float.ofModel (.pack (UnpackedFloat.ofNat .binary64 m.toUInt64.toNat)) = _
  rw [hword]
  rfl

/-- A mantissa with few bits is held with all bits used. -/
theorem exists_canonical {a : ℕ} (ha : 0 < a) (h : a < 2 ^ 53) {b : ℤ} (hb : 0 ≤ b)
    (hb' : b ≤ 22) :
    ∃ m e, Canonical m e ∧ -52 ≤ e ∧ e ≤ 22 ∧ (m : ℚ) * 2 ^ e = a * 2 ^ b := by
  have hlog := log2_lt_of_lt ha h
  refine ⟨a * 2 ^ (52 - a.log2), b - (52 - a.log2 : ℕ), ?_, by omega, by omega, ?_⟩
  · refine ⟨by positivity, ?_, by omega, by omega, Or.inl ?_⟩
    · calc a * 2 ^ (52 - a.log2) < 2 ^ (a.log2 + 1) * 2 ^ (52 - a.log2) := by
            gcongr
            exact Nat.lt_log2_self
        _ = 2 ^ 53 := by
            rw [← pow_add]
            congr 1
            omega
    · calc 2 ^ 52 = 2 ^ a.log2 * 2 ^ (52 - a.log2) := by
            rw [← pow_add]
            congr 1
            omega
        _ ≤ a * 2 ^ (52 - a.log2) := by
            gcongr
            exact Nat.log2_self_le ha.ne'
  · push_cast
    rw [mul_assoc, ← zpow_natCast, ← zpow_add₀ two_ne_zero]
    congr 2
    omega

theorem unpack_near {m : ℕ} {e : ℤ} (h : Canonical m e) :
    (Number.near (m * 2 ^ e)).toModel.unpack = .finite .positive m e h.pos := by
  rw [Number.near, nearest_canonical h]
  exact unpack_pack_canonical h .positive

/-- What the fast way of reading a decimal multiplies or divides. -/
theorem unpack_near_small {a : ℕ} (ha : 0 < a) (h : a < 2 ^ 53) {b : ℤ} (hb : 0 ≤ b)
    (hb' : b ≤ 22) :
    ∃ m e hm, (Number.near (a * 2 ^ b)).toModel.unpack = .finite .positive m e hm ∧
      2 ^ 52 ≤ m ∧ -52 ≤ e ∧ e ≤ 22 ∧ (m : ℚ) * 2 ^ e = a * 2 ^ b := by
  obtain ⟨m, e, hc, hlow, hhigh, hvalue⟩ := exists_canonical ha h hb hb'
  have hnormal := hc.normal.resolve_right (by omega)
  exact ⟨m, e, hc.pos, by rw [← hvalue, unpack_near hc], hnormal, hlow, hhigh, hvalue⟩

/-- The number of a decimal is the one nearest to its value. -/
theorem toNumber_eq_near {d : Decimal} (h : d.coefficient ≠ 0) : d.toNumber = .near d.value := by
  obtain ⟨m, e⟩ := d
  simp only at h
  unfold Decimal.toNumber Float.ofScientific
  simp only [Decimal.value]
  split
  · rename_i hsmall
    have hten : (10 : ℚ) ^ e.natAbs = (5 ^ e.natAbs : ℕ) * 2 ^ (e.natAbs : ℤ) := by
      rw [zpow_natCast, Nat.cast_pow, ← mul_pow]
      norm_num
    have hfive : 5 ^ e.natAbs < 2 ^ 53 :=
      lt_of_le_of_lt (Nat.pow_le_pow_right (by norm_num) hsmall.2) (by norm_num)
    obtain ⟨m₁, e₁, hm₁, hu₁, hlow₁, hleast₁, hmost₁, hv₁⟩ :=
      unpack_near_small (Nat.pos_of_ne_zero h) hsmall.1 le_rfl (by norm_num)
    obtain ⟨m₂, e₂, hm₂, hu₂, hlow₂, hleast₂, hmost₂, hv₂⟩ :=
      unpack_near_small (b := e.natAbs) (by positivity) hfive (by positivity) (by omega)
    rw [zpow_zero, mul_one] at hu₁ hv₁
    rw [← hten] at hu₂ hv₂
    rw [powerOfTen_eq, toFloat_eq h hsmall.1]
    split
    · rename_i hneg
      obtain ⟨n, rfl⟩ : ∃ n : ℕ, e = -n := ⟨(-e).toNat, by simp at hneg; omega⟩
      change Float.ofModel (.pack (UnpackedFloat.div .binary64 _ _)) = _
      rw [hu₁, hu₂, div_eq_nearest hm₁ hm₂ (by omega), hv₁, hv₂, Int.natAbs_neg, Int.natAbs_natCast,
        zpow_neg, zpow_natCast, ← div_eq_mul_inv]
      rfl
    · rename_i hneg
      obtain ⟨n, rfl⟩ := Int.eq_ofNat_of_zero_le (show 0 ≤ e by simpa using hneg)
      have hlog : 52 ≤ (m₁ * m₂).log2 := by
        rw [Nat.le_log2 (by positivity)]
        exact hlow₁.trans (Nat.le_mul_of_pos_right _ hm₂)
      change Float.ofModel (.pack (UnpackedFloat.mul .binary64 _ _)) = _
      rw [hu₁, hu₂, mul_eq_nearest hm₁ hm₂ hlog, hv₁, hv₂, Int.natAbs_natCast, zpow_natCast]
      rfl
  · rw [Number.near, ← pack_ofScientific h]
    have hexp :
        (if decide (e < 0) = true then Int.negOfNat e.natAbs else Int.ofNat e.natAbs) = e := by
      rw [Int.negOfNat_eq]
      split <;> rename_i hneg <;> rw [decide_eq_true_eq] at hneg
      · change -(e.natAbs : ℤ) = e
        omega
      · change (e.natAbs : ℤ) = e
        omega
    rw [hexp]
    rfl

end BellaLang
