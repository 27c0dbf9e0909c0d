-- The remainder of two numbers. It is what is left of the dividend after the
-- divisor is taken away as often as the quotient, rounded toward zero, says; a
-- double holds that value as it is, so nothing is ever rounded.
import BellaLang.Proofs.Rationals

namespace BellaLang

open Float.Model UnpackedFloat

/-! ## Quotients -/

/-- The integer that a rational is rounded to toward zero. -/
def truncated (q : ℚ) : ℤ := if 0 ≤ q then ⌊q⌋ else ⌈q⌉

theorem truncated_quotient (negative : Bool) (m n : ℕ) :
    (truncated (factor negative * (m / n)) : ℚ) = factor negative * (m / n : ℕ) := by
  have hfloor : ⌊(m / n : ℚ)⌋ = (m / n : ℕ) := Rat.floor_natCast_div_natCast m n
  have hnonneg : (0 : ℚ) ≤ m / n := by positivity
  cases negative with
  | false =>
    rw [truncated, factor, if_neg Bool.false_ne_true, one_mul, one_mul, if_pos hnonneg, hfloor,
      Int.cast_natCast]
  | true =>
    rw [truncated, factor, if_pos rfl, neg_one_mul, neg_one_mul]
    split
    · rename_i hnonpos
      have hzero : (m / n : ℚ) = 0 := le_antisymm (neg_nonneg.1 hnonpos) hnonneg
      rw [hzero, Int.floor_zero] at hfloor
      rw [hzero, ← Int.cast_natCast, ← hfloor]
      simp
    · rw [Int.ceil_neg, hfloor, Int.cast_neg, Int.cast_natCast]

/-! ## Remainders of exact values -/

namespace Exact

/-- The unit of which both values are multiples. -/
def unit (x y : Exact) : ℤ := min x.exponent y.exponent

/-- How many units, none greater than the last bit, a magnitude is. -/
def units (x : Exact) (unit : ℤ) : ℕ := x.mantissa <<< (x.exponent - unit).toNat

variable {x y : Exact} {u : ℤ}

theorem units_mul (h : u ≤ x.exponent) :
    (x.units u : ℚ) * 2 ^ u = x.mantissa * 2 ^ x.exponent := by
  rw [units, Nat.shiftLeft_eq, Nat.cast_mul, Nat.cast_pow, Nat.cast_ofNat, mul_assoc,
    ← zpow_natCast, ← zpow_add₀ two_ne_zero]
  congr 2
  omega

theorem value_eq_units (h : u ≤ x.exponent) :
    x.value = factor x.negative * (x.units u * 2 ^ u) := by
  rw [value, units_mul h]

theorem rem_eq (x y : Exact) :
    x.rem y = ⟨x.negative, x.units (x.unit y) % y.units (x.unit y), x.unit y⟩ := rfl

/-- The quotient toward zero is that of the units, which are natural numbers. -/
theorem truncated_value_div (x y : Exact) :
    (truncated (x.value / y.value) : ℚ) =
      factor (x.negative ^^ y.negative) * (x.units (x.unit y) / y.units (x.unit y) : ℕ) := by
  rw [value_eq_units (min_le_left x.exponent y.exponent),
    value_eq_units (min_le_right x.exponent y.exponent), mul_div_mul_comm, factor_div,
    mul_div_mul_right _ _ (by positivity)]
  exact truncated_quotient _ _ _

theorem value_rem (x y : Exact) :
    (x.rem y).value = x.value - y.value * truncated (x.value / y.value) := by
  have hsign : factor y.negative * factor (x.negative ^^ y.negative) = factor x.negative := by
    cases x.negative <;> cases y.negative <;> norm_num [factor]
  rw [truncated_value_div, rem_eq]
  generalize hu : x.unit y = u
  have hx : u ≤ x.exponent := hu ▸ min_le_left _ _
  have hy : u ≤ y.exponent := hu ▸ min_le_right _ _
  rw [value_eq_units hx, value_eq_units hy, value]
  simp only
  generalize x.units u = m
  generalize y.units u = n
  have hmod : (m : ℚ) = n * (m / n : ℕ) + (m % n : ℕ) := by
    exact_mod_cast (Nat.div_add_mod m n).symm
  calc factor x.negative * ((m % n : ℕ) * 2 ^ u)
      = factor x.negative * (m * 2 ^ u) - factor x.negative * (n * 2 ^ u) * (m / n : ℕ) := by
        rw [hmod]
        ring
    _ = factor x.negative * (m * 2 ^ u) -
          factor y.negative * (n * 2 ^ u) * (factor (x.negative ^^ y.negative) * (m / n : ℕ)) := by
        rw [← hsign]
        ring

theorem abs_value_rem_lt (hy : y.mantissa ≠ 0) : |(x.rem y).value| < |y.value| := by
  rw [rem_eq]
  generalize hu : x.unit y = u
  have hle : u ≤ y.exponent := hu ▸ min_le_right _ _
  have hunits : 0 < y.units u := by
    rw [units, Nat.shiftLeft_eq]
    positivity
  have habs : ∀ (negative : Bool) (n : ℕ), |factor negative * (n * 2 ^ u)| = n * 2 ^ u := by
    intro negative n
    rw [abs_mul, abs_factor, one_mul, abs_of_nonneg (by positivity)]
  rw [value_eq_units hle, value, habs, habs]
  have hlt : ((x.units u % y.units u : ℕ) : ℚ) < y.units u := by
    exact_mod_cast Nat.mod_lt _ hunits
  gcongr

theorem Held.lt (h : x.Held) : x.mantissa < 2 ^ 53 := by
  rcases h with ⟨hm, _⟩ | hc
  · omega
  · exact hc.lt

theorem Held.exponent_mem (h : x.Held) : -1074 ≤ x.exponent ∧ x.exponent ≤ 971 := by
  rcases h with ⟨_, he⟩ | hc
  · omega
  · exact ⟨hc.least, hc.most⟩

/-- One of the two mantissas is not shifted, and the remainder is not greater than it. -/
theorem mantissa_rem_lt (hx : x.Held) (hy : y.Held) (hne : y.mantissa ≠ 0) :
    (x.rem y).mantissa < 2 ^ 53 := by
  rw [rem_eq, unit]
  rcases le_total x.exponent y.exponent with hle | hle
  · rw [min_eq_left hle]
    calc x.units x.exponent % y.units x.exponent ≤ x.units x.exponent := Nat.mod_le _ _
      _ = x.mantissa := by simp [units]
      _ < 2 ^ 53 := hx.lt
  · rw [min_eq_right hle]
    calc x.units y.exponent % y.units y.exponent < y.units y.exponent :=
          Nat.mod_lt _ (by simpa [units] using Nat.pos_of_ne_zero hne)
      _ = y.mantissa := by simp [units]
      _ < 2 ^ 53 := hy.lt

/-- The remainder of what two doubles hold is held by a double. -/
theorem exact?_rem (hx : x.Held) (hy : y.Held) (hne : y.mantissa ≠ 0) :
    ∃ e, Number.exact? (x.rem y).toNumber = some e ∧ e.negative = x.negative ∧
      e.value = (x.rem y).value := by
  obtain ⟨hxlow, hxhigh⟩ := hx.exponent_mem
  obtain ⟨hylow, hyhigh⟩ := hy.exponent_mem
  have hunit : (x.rem y).exponent = min x.exponent y.exponent := rfl
  exact exact?_toNumber (mantissa_rem_lt hx hy hne) (by omega) (by omega)

theorem value_eq_zero_iff : x.value = 0 ↔ x.mantissa = 0 := by
  have hpow : (2 : ℚ) ^ x.exponent ≠ 0 := by positivity
  simp only [value, mul_eq_zero, factor_ne_zero, hpow, Nat.cast_eq_zero, false_or, or_false]

end Exact

/-! ## Remainders of numbers -/

namespace Number

variable {a b : Number} {x y : Exact}

theorem isNaN_of_exact? (h : a.exact? = some x) : a.isNaN = false := by
  rcases exact?_cases a with ⟨hnone, _⟩ | ⟨_, _, _, _, _, hnan⟩
  · rw [hnone] at h
    cases h
  · exact hnan

theorem remainder_finite (ha : a.exact? = some x) (hb : b.exact? = some y) (hy : y.mantissa ≠ 0) :
    a.remainder b = (x.rem y).toNumber := by
  simp only [remainder, ha, hb, hy, if_false]

/-- Where there is a quotient the dividend is finite, and the divisor is no NaN and not zero. -/
theorem isNaN_remainder (a b : Number) :
    (a.remainder b).isNaN = true ↔
      a.isNaN = true ∨ b.isNaN = true ∨ a.isInf = true ∨ b.value? = some 0 := by
  have hnan : nan.isNaN = true := by decide
  rcases exact?_cases a with ⟨ha, hnone⟩ | ⟨x, ha, hx, _, hainf, hanan⟩
  · have hremainder : a.remainder b = nan := by simp only [remainder, ha]
    rw [hremainder]
    exact iff_of_true hnan (by tauto)
  rw [hanan, hainf]
  rcases exact?_cases b with ⟨hb, hnone⟩ | ⟨y, hb, hy, _, _, hbnan⟩
  · have hremainder : a.remainder b = if b.isNaN then nan else a := by simp only [remainder, ha, hb]
    rw [hremainder, value?_eq_none_iff.2 hnone]
    cases hbnan : b.isNaN with
    | true => exact iff_of_true hnan (by simp)
    | false => exact iff_of_false (by rw [if_neg Bool.false_ne_true, hanan]; simp) (by simp)
  · have hvalue : b.value? = some y.value := by rw [value?, hb, Option.map_some]
    rw [hvalue, hbnan, Option.some.injEq, Exact.value_eq_zero_iff]
    by_cases hzero : y.mantissa = 0
    · have hremainder : a.remainder b = nan := by simp only [remainder, ha, hb, hzero, if_true]
      rw [hremainder]
      exact iff_of_true hnan (by simp [hzero])
    · obtain ⟨e, he, _⟩ := Exact.exact?_rem hx hy hzero
      rw [remainder_finite ha hb hzero, isNaN_of_exact? he]
      exact iff_of_false (by simp) (by simp [hzero])

/-- An infinite divisor is never taken away. -/
theorem remainder_infinite (ha : a.isFinite = true) (hb : b.isInf = true) : a.remainder b = a := by
  obtain ⟨x, hx⟩ : ∃ x, a.exact? = some x := by
    rcases finite_cases ha with rfl | rfl | ⟨s, m, k, hm, hunpack⟩
    · exact ⟨⟨false, 0, 0⟩, by decide⟩
    · exact ⟨⟨true, 0, 0⟩, by decide⟩
    · exact ⟨_, exact?_of_unpack hunpack⟩
  have hnan : b.isNaN = false := by
    rw [isInf_eq] at hb
    rw [isNaN_eq]
    cases hunpack : b.toModel.unpack <;> rw [hunpack] at hb <;> first | rfl | cases hb
  simp only [remainder, hx, exact_eq_none (Or.inl hb), hnan]
  rfl

end Number

theorem sign_eq_of_isMinus {s s' : Sign} (h : isMinus s = isMinus s') : s = s' := by
  cases s <;> cases s' <;> first | rfl | cases h

/-- The remainder is exact. It is never refused, it is a NaN only where there is no quotient, an
infinite divisor leaves the dividend as it is, and otherwise the remainder is the rational that is
left when the divisor is taken away as often as the quotient rounded toward zero says. It is less
than the divisor and has the sign of the dividend, also where it is zero. -/
theorem the_remainder_is_exact (a b : Number) :
    guardedRemainder a b = .ok (a.remainder b) ∧
    applyBinary (.str "%") (.number a) (.number b) = .ok (.number (a.remainder b)) ∧
    ((a.remainder b).isNaN = true ↔
      a.isNaN = true ∨ b.isNaN = true ∨ a.isInf = true ∨ b.value? = some 0) ∧
    (a.isFinite = true → b.isInf = true → a.remainder b = a) ∧
    ∀ x y, a.value? = some x → b.value? = some y → y ≠ 0 →
      (a.remainder b).value? = some (x - y * truncated (x / y)) ∧
        |x - y * truncated (x / y)| < |y| ∧ (a.remainder b).sign = a.sign := by
  refine ⟨guardedRemainder_eq a b, rfl, Number.isNaN_remainder a b, Number.remainder_infinite, ?_⟩
  intro x y ha hb hy
  obtain ⟨e, he, rfl⟩ := Option.map_eq_some_iff.1 ha
  obtain ⟨f, hf, rfl⟩ := Option.map_eq_some_iff.1 hb
  obtain ⟨heHeld, heSign⟩ := held_of_exact? he
  obtain ⟨hfHeld, _⟩ := held_of_exact? hf
  have hne : f.mantissa ≠ 0 := fun h => hy (Exact.value_eq_zero_iff.2 h)
  obtain ⟨r, hr, hsign, hvalue⟩ := Exact.exact?_rem heHeld hfHeld hne
  rw [Number.remainder_finite he hf hne, ← Exact.value_rem]
  refine ⟨?_, Exact.abs_value_rem_lt hne, ?_⟩
  · rw [Number.value?, hr, Option.map_some, hvalue]
  · obtain ⟨_, hrSign⟩ := held_of_exact? hr
    apply sign_eq_of_isMinus
    rw [← hrSign, hsign, heSign]

/-- Nothing is left of a negative dividend but its sign. -/
example : Number.remainder (-6.0) 3.0 = -0.0 := by decide +kernel

end BellaLang
