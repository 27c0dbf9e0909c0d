-- Primitives of the host that refuse some of their inputs, and why none of them
-- is ever refused: each is used behind a test that lets through only what it
-- takes, and what comes out is what the evaluator answers.
import BellaLang.Evaluate
import BellaLang.Number.Read

namespace BellaLang

/-! ## The primitives -/

namespace Host

inductive Refusal where
  | zeroDivision
  | domain
  | notConvertible
  | badIndex

/-- Division, which refuses a zero divisor of either sign. -/
def divide (a b : Number) : Except Refusal Number :=
  if b == 0.0 then .error .zeroDivision else .ok (a / b)

/-- The remainder, which refuses to make a NaN of two numbers. -/
def remainder (a b : Number) : Except Refusal Number :=
  if (a.isInf || b == 0.0) && !a.isNaN && !b.isNaN then .error .domain else .ok (a.remainder b)

/-- The whole part of a number, which an infinity and a NaN do not have. -/
def truncate (x : Number) : Except Refusal Int :=
  match x.exact? with
  | none => .error .notConvertible
  | some e =>
    let n :=
      if 0 ≤ e.exponent then e.mantissa <<< e.exponent.toNat
      else e.mantissa >>> (-e.exponent).toNat
    .ok (if e.negative then -(n : Int) else n)

/-- An element of a list, counted from the end if the index is negative. -/
def item (items : List Value) (k : Int) : Except Refusal Value :=
  let place := if k < 0 then k + items.length else k
  if place < 0 then .error .badIndex
  else
    match items[place.toNat]? with
    | some v => .ok v
    | none => .error .badIndex

/-- The number that a text spells, if it spells one. -/
def number (text : List Char) : Except Refusal Number :=
  match Number.ofText? text with
  | some x => .ok x
  | none => .error .notConvertible

end Host

/-! ## How they are used -/

/-- The sign of a number; that of a NaN is positive. -/
def Number.sign (x : Number) : Float.Model.UnpackedFloat.Sign :=
  match x.toModel.unpack with
  | .infinity s => s
  | .zero s => s
  | .finite s _ _ _ => s
  | .notANumber => .positive

/-- A number with the given sign. -/
def Number.withSign (x : Number) : Float.Model.UnpackedFloat.Sign → Number
  | .negative => -x.abs
  | .positive => x.abs

/-- Division as it is done: a zero divisor is dealt with before the primitive. -/
def guardedDivide (a b : Number) : Except Host.Refusal Number :=
  if b == 0.0 then
    if a == 0.0 || a.isNaN then .ok .nan
    else .ok (Number.infinity.withSign a.sign * (1.0 : Number).withSign b.sign)
  else Host.divide a b

def guardedRemainder (a b : Number) : Except Host.Refusal Number :=
  if b == 0.0 || a.isInf then .ok .nan else Host.remainder a b

/-- An element as it is taken: the primitives are left to an integral index within bounds. -/
def guardedElement (items : List Value) (x : Number) :
    Except Host.Refusal (Except Fault Value) :=
  let shown := (Value.number x).text
  match x.toInt? with
  | none => .ok (.error (.indexNotIntegral shown))
  | some k =>
    if k < 0 ∨ items.length ≤ k then .ok (.error (.indexOutOfRange shown items.length))
    else do
      let n ← Host.truncate x
      return .ok (← Host.item items n)

/-- The text of a number as it is made: only integral numbers are truncated. -/
def guardedText (x : Number) : Except Host.Refusal String :=
  if x.isNaN then .ok "NaN"
  else if x.isInf then .ok (if 0 < x then "Infinity" else "-Infinity")
  else
    match x.toInt? with
    | some n =>
      if n.natAbs < Number.wholeBound then
        (Host.truncate x).map fun n => String.ofList (Text.signedDecimal n)
      else .ok (x.literal .printed)
    | none => .ok (x.literal .printed)

/-! ## Zeros, infinities and NaNs -/

open Float.Model

namespace Number

theorem beq_zero_eq (x : Number) : (x == 0.0) = (x.toModel.unpack matches .zero _) := by
  have hzero : (0.0 : Number).toModel.unpack = .zero .positive := rfl
  change x.toModel.unpack.beq (0.0 : Number).toModel.unpack = _
  rw [hzero]
  rcases x.toModel.unpack with (_ | _) | _ | s | ⟨_ | _, m, e, hm⟩ <;> rfl

theorem isNaN_eq (x : Number) : x.isNaN = x.toModel.unpack.isNaN := rfl

theorem isInf_eq (x : Number) : x.isInf = x.toModel.unpack.isInf := rfl

theorem div_eq (a b : Number) :
    a / b = .ofModel (.pack (UnpackedFloat.div .binary64 a.toModel.unpack b.toModel.unpack)) := rfl

theorem lt_iff (a b : Number) :
    a < b ↔ a.toModel.unpack.lt b.toModel.unpack = true := by
  change decide (a.toModel < b.toModel) = true ↔ _
  rw [decide_eq_true_iff]
  exact Iff.rfl

theorem unpack_zero : (0 : Number).toModel.unpack = .zero .positive := rfl

/-- Infinities and NaNs have no exact value. -/
theorem exact_eq_none {x : Number} (h : x.isInf = true ∨ x.isNaN = true) : x.exact? = none := by
  rw [isInf_eq, isNaN_eq] at h
  unfold Number.exact?
  rcases hx : x.toModel.unpack with s | _ | s | ⟨s, m, e, hm⟩
  · rfl
  · rfl
  all_goals
    rw [hx] at h
    rcases h with h | h <;> cases h

theorem exact_of_zero {x : Number} {s : UnpackedFloat.Sign} (h : x.toModel.unpack = .zero s) :
    ∃ negative, x.exact? = some ⟨negative, 0, 0⟩ := by
  unfold Number.exact?
  rw [h]
  exact ⟨_, rfl⟩

theorem toInt?_eq_none {x : Number} (h : x.isInf = true ∨ x.isNaN = true) : x.toInt? = none := by
  simp [toInt?, exact_eq_none h]

end Number

/-! ## Nothing is refused -/

/-- A divisor that is compared equal to zero is a zero of either sign. -/
theorem unpack_of_beq_zero {b : Number} (h : (b == 0.0) = true) :
    ∃ s, b.toModel.unpack = .zero s := by
  rw [Number.beq_zero_eq] at h
  rcases hb : b.toModel.unpack with s | _ | s | ⟨s, m, e, hm⟩
  case zero => exact ⟨s, rfl⟩
  all_goals
    rw [hb] at h
    cases h

/-- By a zero, the sign of the quotient is made from the two signs. -/
theorem infinity_mul_one (s s' : UnpackedFloat.Sign) :
    Number.infinity.withSign s * (1.0 : Number).withSign s' =
      .ofModel (.pack (.infinity (s / s'))) := by
  cases s <;> cases s' <;> rfl

/-- Division is never refused and divides as doubles do. -/
theorem guardedDivide_eq (a b : Number) : guardedDivide a b = .ok (a / b) := by
  unfold guardedDivide
  split
  · rename_i hzero
    obtain ⟨sb, hb⟩ := unpack_of_beq_zero hzero
    have hsign : b.sign = sb := by rw [Number.sign, hb]
    rw [Number.beq_zero_eq, Number.isNaN_eq, Number.div_eq, hb, hsign, infinity_mul_one]
    unfold Number.sign
    rcases a.toModel.unpack with sa | _ | sa | ⟨sa, m, e, hm⟩ <;> rfl
  · rename_i hzero
    rw [Host.divide, if_neg hzero]

/-- The remainder is never refused: what would be is dealt with before. -/
theorem guardedRemainder_eq (a b : Number) : guardedRemainder a b = .ok (a.remainder b) := by
  unfold guardedRemainder
  split
  · rename_i h
    rcases Bool.or_eq_true_iff.1 h with hzero | hinf
    · obtain ⟨sb, hb⟩ := unpack_of_beq_zero hzero
      obtain ⟨negative, hexact⟩ := Number.exact_of_zero hb
      unfold Number.remainder
      rw [hexact]
      rcases a.exact? with _ | x <;> rfl
    · unfold Number.remainder
      rw [Number.exact_eq_none (Or.inl hinf)]
  · rename_i h
    have hpass : ((a.isInf || b == 0.0) && !a.isNaN && !b.isNaN) = false := by
      rw [Bool.or_comm, Bool.eq_false_iff.2 h]
      rfl
    rw [Host.remainder, hpass]
    rfl

theorem truncate_of_toInt? {x : Number} {n : Int} (h : x.toInt? = some n) :
    Host.truncate x = .ok n := by
  unfold Host.truncate
  rcases he : x.exact? with _ | e
  · simp [Number.toInt?, he] at h
  · simp only [Number.toInt?, he, Exact.magnitude?, Option.bind_eq_bind, Option.bind_some] at h
    by_cases hexp : 0 ≤ e.exponent
    · simpa [hexp] using h
    · simp only [hexp, if_false] at h ⊢
      split at h
      · rw [Nat.shiftRight_eq_div_pow]
        rw [Nat.one_shiftLeft] at h
        simpa using h
      · cases h

theorem item_of_getElem? {items : List Value} {k : Int} {v : Value} (hk : ¬ k < 0)
    (h : items[k.toNat]? = some v) : Host.item items k = .ok v := by
  simp only [Host.item, hk, if_false, h]

/-- An index that gets to the items is integral and within the bounds. -/
theorem guardedElement_eq (items : List Value) (x : Number) :
    guardedElement items x = .ok (applySubscript (.array items) (.number x)) := by
  unfold guardedElement
  rcases hx : x.toInt? with _ | k
  · simp only [applySubscript, asIndex, hx]
    rfl
  · simp only [applySubscript, asIndex, hx, bind, Except.bind]
    by_cases hneg : k < 0
    · simp [hneg]
    · by_cases hlong : (items.length : Int) ≤ k
      · have hget : items[k.toNat]? = none := List.getElem?_eq_none (by omega)
        simp [hneg, hlong, hget]
      · have hlt : k.toNat < items.length := by omega
        have hget := List.getElem?_eq_getElem hlt
        simp only [hneg, hlong, or_self, if_false, hget, truncate_of_toInt? hx,
          item_of_getElem? hneg hget]
        rfl

theorem text_infinite {x : Number} (h : x.isInf = true) :
    x.text = if 0 < x then "Infinity" else "-Infinity" := by
  have hexact := Number.exact_eq_none (Or.inl h)
  have hint := Number.toInt?_eq_none (Or.inl h)
  rw [Number.isInf_eq] at h
  rcases hx : x.toModel.unpack with s | _ | s | ⟨s, m, e, hm⟩
  · simp only [Number.text, hint, Number.literal, hexact, Number.isNaN_eq, Number.lt_iff,
      Number.unpack_zero, hx]
    cases s <;> rfl
  all_goals
    rw [hx] at h
    cases h

theorem text_nan {x : Number} (h : x.isNaN = true) : x.text = "NaN" := by
  have hexact := Number.exact_eq_none (Or.inr h)
  have hint := Number.toInt?_eq_none (Or.inr h)
  simp only [Number.text, hint, Number.literal, hexact, h]
  rfl

/-- The text of a number is never refused. -/
theorem guardedText_eq (x : Number) : guardedText x = .ok x.text := by
  unfold guardedText
  split
  · rename_i hnan
    rw [text_nan hnan]
  · split
    · rename_i hinf
      rw [text_infinite hinf]
    · rw [Number.text]
      rcases hint : x.toInt? with _ | n
      · rfl
      · simp only
        split
        · rw [truncate_of_toInt? hint]
          rfl
        · rfl

end BellaLang
