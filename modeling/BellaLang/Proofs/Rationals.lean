-- Numbers as rationals. A finite number is a rational with a sign, an integral one
-- is an integer, and a value that a double can hold is kept to the last bit when it
-- is made a number.
import BellaLang.Proofs.Decimals
import BellaLang.Proofs.Guards

namespace BellaLang

open Float.Model UnpackedFloat

/-! ## Values -/

/-- What a sign multiplies a magnitude by. -/
def factor (negative : Bool) : ℚ := if negative then -1 else 1

/-- The rational that an exact value is. -/
def Exact.value (e : Exact) : ℚ := factor e.negative * (e.mantissa * 2 ^ e.exponent)

/-- The rational that a finite number is. -/
def Number.value? (x : Number) : Option ℚ := x.exact?.map Exact.value

theorem factor_div (a b : Bool) : factor a / factor b = factor (a ^^ b) := by
  cases a <;> cases b <;> norm_num [factor]

theorem abs_factor (a : Bool) : |factor a| = 1 := by
  cases a <;> simp [factor]

theorem factor_ne_zero (a : Bool) : factor a ≠ 0 := by
  cases a <;> simp [factor]

/-! ## Finite numbers -/

/-- The exact values of doubles: zero, and the canonical magnitudes. -/
def Exact.Held (e : Exact) : Prop :=
  e.mantissa = 0 ∧ e.exponent = 0 ∨ Canonical e.mantissa e.exponent

/-- What is exact is a zero or a magnitude with a sign, and all else is a NaN or infinite. -/
theorem exact?_cases (x : Number) :
    x.exact? = none ∧ (x.isInf = true ∨ x.isNaN = true) ∨
      ∃ e, x.exact? = some e ∧ e.Held ∧ e.negative = isMinus x.sign ∧ x.isInf = false ∧
        x.isNaN = false := by
  rw [Number.isNaN_eq, Number.isInf_eq, Number.sign]
  rcases hx : x.toModel.unpack with s | _ | s | ⟨s, m, k, hm⟩
  · refine Or.inl ⟨?_, Or.inl rfl⟩
    unfold Number.exact?
    rw [hx]
  · refine Or.inl ⟨?_, Or.inr rfl⟩
    unfold Number.exact?
    rw [hx]
  · refine Or.inr ⟨⟨isMinus s, 0, 0⟩, ?_, Or.inl ⟨rfl, rfl⟩, rfl, rfl, rfl⟩
    unfold Number.exact?
    rw [hx]
    cases s <;> rfl
  · exact Or.inr ⟨_, exact?_of_unpack hx, Or.inr (canonical_of_unpack hx), rfl, rfl, rfl⟩

theorem held_of_exact? {x : Number} {e : Exact} (h : x.exact? = some e) :
    e.Held ∧ e.negative = isMinus x.sign := by
  rcases exact?_cases x with ⟨hnone, _⟩ | ⟨e', he', hheld, hsign, _⟩
  · rw [hnone] at h
    cases h
  · obtain rfl := Option.some.inj (he'.symm.trans h)
    exact ⟨hheld, hsign⟩

theorem value?_eq_none_iff {x : Number} :
    x.value? = none ↔ x.isInf = true ∨ x.isNaN = true := by
  rw [Number.value?, Option.map_eq_none_iff]
  constructor
  · intro hnone
    rcases exact?_cases x with ⟨_, h⟩ | ⟨e, he, _⟩
    · exact h
    · rw [hnone] at he
      cases he
  · exact Number.exact_eq_none

/-! ## Integral numbers -/

/-- The magnitude of an integral value is an integer, and of no other. -/
theorem magnitude?_eq_some_iff {e : Exact} {n : ℕ} :
    e.magnitude? = some n ↔ (n : ℚ) = e.mantissa * 2 ^ e.exponent := by
  refine ⟨magnitude?_value, fun h => ?_⟩
  obtain ⟨negative, m, k⟩ := e
  unfold Exact.magnitude?
  simp only at h ⊢
  split
  · rename_i hk
    obtain ⟨j, rfl⟩ := Int.eq_ofNat_of_zero_le hk
    rw [zpow_natCast] at h
    rw [Int.toNat_natCast, Nat.shiftLeft_eq, Option.some.injEq]
    exact_mod_cast h.symm
  · rename_i hk
    obtain ⟨j, rfl⟩ : ∃ j : ℕ, k = -j := ⟨(-k).toNat, by omega⟩
    rw [zpow_neg, zpow_natCast, ← div_eq_mul_inv, eq_div_iff (by positivity)] at h
    have hm : n * 2 ^ j = m := by exact_mod_cast h
    rw [Int.neg_neg, Int.toNat_natCast, Nat.one_shiftLeft, ← hm, if_pos (Nat.mul_mod_left _ _),
      Nat.mul_div_cancel _ (by positivity)]

/-- A number is an integer if its value is, and only then. -/
theorem toInt?_eq_some_iff {x : Number} {k : ℤ} :
    x.toInt? = some k ↔ x.value? = some (k : ℚ) := by
  rw [Number.toInt?, Number.value?]
  rcases x.exact? with _ | e
  · simp
  simp only [Option.bind_eq_bind, Option.bind_some, Option.map_some, Option.some.injEq]
  constructor
  · intro h
    obtain ⟨n, hn, hk⟩ := Option.bind_eq_some_iff.1 h
    rw [Exact.value, ← magnitude?_eq_some_iff.1 hn, ← Option.some.inj hk, factor]
    split <;> simp
  · intro h
    -- The magnitude is the absolute value, and that of an integer is a natural number.
    have hmagnitude : e.magnitude? = some k.natAbs := by
      rw [magnitude?_eq_some_iff, Nat.cast_natAbs, Int.cast_abs, ← h, Exact.value, abs_mul,
        abs_factor, one_mul, abs_of_nonneg (by positivity)]
    have hvalue := magnitude?_eq_some_iff.1 hmagnitude
    generalize k.natAbs = n at hmagnitude hvalue
    rw [hmagnitude, Option.bind_some]
    rw [Exact.value, ← hvalue, factor] at h
    congr 1
    split at h
    · rename_i hneg
      rw [if_pos hneg]
      exact_mod_cast (neg_one_mul _).symm.trans h
    · rename_i hpos
      rw [if_neg hpos]
      exact_mod_cast (one_mul _).symm.trans h

/-! ## Values that are kept -/

/-- A magnitude of few bits that is no finer than the finest double is one of a double. -/
theorem exists_canonical_eq {m : ℕ} {e : ℤ} (hm : 0 < m) (hlt : m < 2 ^ 53) (hleast : -1074 ≤ e)
    (hmost : e ≤ 971) : ∃ m' e', Canonical m' e' ∧ (m' : ℚ) * 2 ^ e' = m * 2 ^ e := by
  have hlog := log2_lt_of_lt hm hlt
  -- The mantissa is filled up to all its bits, as far as the exponent allows.
  obtain ⟨k, hk⟩ : ∃ k : ℕ, (k : ℤ) = min (52 - m.log2 : ℤ) (e + 1074) :=
    ⟨(min (52 - m.log2 : ℤ) (e + 1074)).toNat, by omega⟩
  refine ⟨m * 2 ^ k, e - k, ⟨by positivity, ?_, by omega, by omega, ?_⟩, ?_⟩
  · calc m * 2 ^ k < 2 ^ (m.log2 + 1) * 2 ^ k := by
          gcongr
          exact Nat.lt_log2_self
      _ = 2 ^ (m.log2 + 1 + k) := by rw [← pow_add]
      _ ≤ 2 ^ 53 := Nat.pow_le_pow_right (by norm_num) (by omega)
  · rcases min_choice (52 - m.log2 : ℤ) (e + 1074) with hfull | hfinest
    · left
      calc 2 ^ 52 = 2 ^ m.log2 * 2 ^ k := by
            rw [← pow_add]
            congr 1
            omega
        _ ≤ m * 2 ^ k := by
            gcongr
            exact Nat.log2_self_le hm.ne'
    · right
      omega
  · push_cast
    rw [mul_assoc, ← zpow_natCast, ← zpow_add₀ two_ne_zero]
    congr 2
    omega

/-- An exact value is kept when it is made a number: no bit is lost, and a zero keeps its sign. -/
theorem exact?_toNumber {e : Exact} (hlt : e.mantissa < 2 ^ 53) (hleast : -1074 ≤ e.exponent)
    (hmost : e.exponent ≤ 971) :
    ∃ e', Number.exact? e.toNumber = some e' ∧ e'.negative = e.negative ∧ e'.value = e.value := by
  obtain ⟨negative, m, k⟩ := e
  simp only at hlt hleast hmost ⊢
  by_cases hm : m = 0
  · rw [hm]
    refine ⟨⟨negative, 0, 0⟩, ?_, rfl, by simp [Exact.value]⟩
    have hzero : Exact.toNumber ⟨negative, 0, k⟩ = Exact.toNumber ⟨negative, 0, 0⟩ := by
      simp only [Exact.toNumber, if_true]
    rw [hzero]
    cases negative <;> decide
  · obtain ⟨m', k', hc, hvalue⟩ := exists_canonical_eq (Nat.pos_of_ne_zero hm) hlt hleast hmost
    generalize hs : (if negative then Sign.negative else .positive) = s
    have hnumber : Exact.toNumber ⟨negative, m, k⟩ = .ofModel (.pack (.finite s m' k' hc.pos)) := by
      rw [← nearest_canonical hc s, hvalue, ← round_eq_nearest hm]
      simp only [Exact.toNumber, hm, if_false, hs]
    refine ⟨⟨isMinus s, m', k'⟩, ?_, ?_, ?_⟩
    · rw [hnumber]
      exact exact?_of_unpack (unpack_pack_canonical hc s)
    · rw [← hs]
      cases negative <;> rfl
    · simp only [Exact.value, hvalue, ← hs]
      cases negative <;> rfl

end BellaLang
