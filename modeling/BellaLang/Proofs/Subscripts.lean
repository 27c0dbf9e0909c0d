-- Subscripts. Whether an array has an element at a number is decided on the value of
-- the number: an integer within the bounds gives the element, any other integer is out
-- of range, and what is no integer is no index.
import BellaLang.Proofs.Looking
import BellaLang.Proofs.Operators
import BellaLang.Proofs.Rationals

namespace BellaLang

/-! ## Indices -/

/-- A number that is no integer: a NaN, an infinity, or one with a fractional part. -/
def Number.Unintegral (x : Number) : Prop :=
  x.isNaN = true ∨ x.isInf = true ∨ ∃ q, x.value? = some q ∧ Int.fract q ≠ 0

namespace Value

/-- A value is a number, and that number is an integer. -/
def IsInteger (v : Value) (k : ℤ) : Prop := ∃ x, v = .number x ∧ x.value? = some (k : ℚ)

/-- The two values cannot make a subscript: one is of a wrong kind, or the index is no integer. -/
def Mismatch (target index : Value) : Prop :=
  (∀ items, target ≠ .array items) ∨ (∀ x, index ≠ .number x) ∨
    ∃ x, index = .number x ∧ x.Unintegral

/-- The array has no element at the index, which is an integer. -/
def Beyond (target index : Value) : Prop :=
  ∃ items k, target = .array items ∧ index.IsInteger k ∧ (k < 0 ∨ items.length ≤ k)

/-- The array has the element at the index, which is an integer. -/
def HasElement (target index element : Value) : Prop :=
  ∃ items, ∃ k : ℕ, target = .array items ∧ index.IsInteger k ∧ items[k]? = some element

end Value

open Value

theorem toInt?_eq_none_iff {x : Number} : x.toInt? = none ↔ x.Unintegral := by
  rcases hvalue : x.value? with _ | q
  · have hnone : x.toInt? = none := by
      rw [Option.eq_none_iff_forall_ne_some]
      intro k hk
      rw [toInt?_eq_some_iff, hvalue] at hk
      cases hk
    have hspecial := value?_eq_none_iff.1 hvalue
    exact iff_of_true hnone (by unfold Number.Unintegral; tauto)
  · have hnotSpecial : ¬ (x.isInf = true ∨ x.isNaN = true) := by
      rw [← value?_eq_none_iff, hvalue]
      simp
    have hunintegral : x.Unintegral ↔ Int.fract q ≠ 0 := by
      unfold Number.Unintegral
      rw [hvalue]
      simp only [Option.some.injEq, exists_eq_left']
      tauto
    rw [hunintegral, ne_eq, Int.fract_eq_zero_iff, Option.eq_none_iff_forall_ne_some]
    simp only [ne_eq, toInt?_eq_some_iff, hvalue, Option.some.injEq, Set.mem_range, not_exists]
    exact forall_congr' fun k => not_congr eq_comm

/-! ## The three ways -/

section ways

variable {target index element : Value}

theorem applySubscript_of_hasElement (h : HasElement target index element) :
    applySubscript target index = .ok element := by
  obtain ⟨items, k, rfl, ⟨x, rfl, hx⟩, helement⟩ := h
  have hk : x.toInt? = some (k : ℤ) := toInt?_eq_some_iff.2 hx
  exact subscript_iff.1 (.element hk helement)

theorem applySubscript_of_mismatch (h : Mismatch target index) :
    ∃ f : Fault, applySubscript target index = .error f ∧ f.kind = .typeMismatch := by
  by_cases hitems : ∃ items, target = .array items
  · obtain ⟨items, rfl⟩ := hitems
    rcases h with hkind | hkind | ⟨x, rfl, hx⟩
    · exact absurd rfl (hkind items)
    · exact ⟨_, subscript_iff.1 (.indexKind hkind), rfl⟩
    · exact ⟨_, subscript_iff.1 (.fraction (toInt?_eq_none_iff.2 hx)), rfl⟩
  · exact ⟨_, subscript_iff.1 (.targetKind (not_exists.1 hitems)), rfl⟩

theorem applySubscript_of_beyond (h : Beyond target index) :
    ∃ f : Fault, applySubscript target index = .error f ∧ f.kind = .indexOutOfRange := by
  obtain ⟨items, k, rfl, ⟨x, rfl, hx⟩, hk⟩ := h
  exact ⟨_, applySubscript_range (toInt?_eq_some_iff.2 hx) hk, rfl⟩

/-- There is no fourth way. -/
theorem subscript_cases (target index : Value) :
    (∃ element, HasElement target index element) ∨ Mismatch target index ∨
      Beyond target index := by
  by_cases hitems : ∃ items, target = .array items
  swap
  · exact Or.inr (Or.inl (Or.inl (not_exists.1 hitems)))
  by_cases hnumber : ∃ x, index = .number x
  swap
  · exact Or.inr (Or.inl (Or.inr (Or.inl (not_exists.1 hnumber))))
  obtain ⟨items, rfl⟩ := hitems
  obtain ⟨x, rfl⟩ := hnumber
  rcases hint : x.toInt? with _ | k
  · exact Or.inr (Or.inl (Or.inr (Or.inr ⟨x, rfl, toInt?_eq_none_iff.1 hint⟩)))
  have hx := toInt?_eq_some_iff.1 hint
  by_cases hk : k < 0 ∨ items.length ≤ k
  · exact Or.inr (Or.inr ⟨items, k, rfl, ⟨x, rfl, hx⟩, hk⟩)
  · obtain ⟨n, rfl⟩ := Int.eq_ofNat_of_zero_le (by omega : 0 ≤ k)
    have hn : n < items.length := by omega
    exact Or.inl ⟨items[n], items, n, rfl, ⟨x, rfl, hx⟩, List.getElem?_eq_getElem hn⟩

end ways

/-- What a subscript comes to is decided by the two values alone, in one of three ways. -/
structure Subscripted (target index : Value) (result : Except Fault Value) : Prop where
  element : ∀ v, result = .ok v ↔ HasElement target index v
  mismatch : (∃ f, result = .error f ∧ f.kind = .typeMismatch) ↔ Mismatch target index
  range : (∃ f, result = .error f ∧ f.kind = .indexOutOfRange) ↔ Beyond target index
  kinds : ∀ f, result = .error f → f.kind = .typeMismatch ∨ f.kind = .indexOutOfRange
  /-- Lists that count a negative index from their end, and refuse one that is too large, are
  never asked for such an index. -/
  access : ∀ items x, target = .array items → index = .number x →
    guardedElement items x = .ok result

/-- Each of the three ways has a result of its own, so the result tells the way. -/
theorem subscripted_applySubscript (target index : Value) :
    Subscripted target index (applySubscript target index) := by
  have haccess : ∀ items x, target = .array items → index = .number x →
      guardedElement items x = .ok (applySubscript target index) := by
    rintro items x rfl rfl
    exact guardedElement_eq items x
  have hmismatch : Mismatch target index →
      ∃ f : Fault, applySubscript target index = .error f ∧ f.kind = .typeMismatch :=
    applySubscript_of_mismatch
  have hbeyond : Beyond target index →
      ∃ f : Fault, applySubscript target index = .error f ∧ f.kind = .indexOutOfRange :=
    applySubscript_of_beyond
  have helement : ∀ v, HasElement target index v → applySubscript target index = .ok v :=
    fun _ => applySubscript_of_hasElement
  have hcases := subscript_cases target index
  generalize applySubscript target index = result at *
  rcases result with f | v
  · have hno : ∀ v, ¬ HasElement target index v := fun v h => by cases helement v h
    have hfails := hcases.resolve_left fun ⟨v, h⟩ => hno v h
    have hkind : ∀ kind, (∃ g : Fault, Except.error (α := Value) f = .error g ∧ g.kind = kind) ↔
        f.kind = kind := by simp
    rw [hkind] at hmismatch hbeyond
    refine ⟨fun v => ⟨fun h => (by cases h), fun h => (hno v h).elim⟩, ?_, ?_, ?_, haccess⟩
    · rw [hkind]
      refine ⟨fun h => hfails.resolve_right fun hb => ?_, hmismatch⟩
      cases h.symm.trans (hbeyond hb)
    · rw [hkind]
      refine ⟨fun h => hfails.resolve_left fun hm => ?_, hbeyond⟩
      cases h.symm.trans (hmismatch hm)
    · rintro g ⟨⟩
      exact hfails.imp hmismatch hbeyond
  · have hnoFault : ∀ kind, ¬ ∃ g : Fault, Except.ok (ε := Fault) v = .error g ∧ g.kind = kind := by
      simp
    have hnoMismatch : ¬ Mismatch target index := fun h => hnoFault _ (hmismatch h)
    have hnoBeyond : ¬ Beyond target index := fun h => hnoFault _ (hbeyond h)
    obtain ⟨w, hw⟩ := (hcases.resolve_right fun h => h.elim hnoMismatch hnoBeyond)
    refine ⟨fun v' => ⟨?_, helement v'⟩, iff_of_false (hnoFault _) hnoMismatch,
      iff_of_false (hnoFault _) hnoBeyond, fun f h => (by cases h), haccess⟩
    rintro ⟨⟩
    cases helement w hw
    exact hw

/-! ## Subscripts of expressions -/

/-- A subscript is exact. Once its two operands have values, it is the element at the index exactly
if the first value is an array and the second a number that is an integer within the bounds; it is a
mismatch of kinds exactly if one of them is of a wrong kind or the number is no integer; and it is
out of range in all other cases. -/
theorem a_subscript_is_exact {t : Tracing} {depth : Nat} {array index : Node} {m m₁ m₂ : Machine}
    {target position : Value} (harray : evaluate t depth array m = (.ok target, m₁))
    (hindex : evaluate t depth index m₁ = (.ok position, m₂)) :
    ∃ result, evaluate t depth (.subscript array index) m = (result.mapError .fault, m₂) ∧
      Subscripted target position result := by
  refine ⟨_, ?_, subscripted_applySubscript target position⟩
  change (evaluate t depth array >>= fun target => evaluate t depth index >>= fun position =>
    Action.ofExcept (applySubscript target position)) m = _
  rw [Action.bind_ok harray, Action.bind_ok hindex]
  rcases applySubscript target position with f | v <;> rfl

/-- The negative zero is the index of the first element. -/
theorem a_subscript_is_exact_at_negative_zero :
    let array : Node := .arrayLiteral [.numeral 7.0, .booleanLiteral true]
    let index : Node := .unary (.str "-") (.numeral 0.0)
    evaluate {} 0 array .start = (.ok (.array [.number 7.0, .boolean true]), .start) ∧
      evaluate {} 0 index .start = (.ok (.number (-0.0)), .start) ∧
      (evaluate {} 0 (.subscript array index) .start).1 = .ok (.number 7.0) ∧
      ∃ result, evaluate {} 0 (.subscript array index) .start = (result.mapError .fault, .start) ∧
        Subscripted (.array [.number 7.0, .boolean true]) (.number (-0.0)) result := by
  intro array index
  have harray :
      evaluate {} 0 array .start = (.ok (.array [.number 7.0, .boolean true]), .start) := rfl
  have hindex : evaluate {} 0 index .start = (.ok (.number (-0.0)), .start) := rfl
  exact ⟨harray, hindex, rfl, a_subscript_is_exact harray hindex⟩

end BellaLang
