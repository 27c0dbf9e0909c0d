-- The rules of operators, and the functions that apply operators, say the same
-- of any values.
import BellaLang.Evaluate
import BellaLang.Proofs.Rules

namespace BellaLang

/-! ## Spellings -/

theorem UnaryOp.ofJson?_symbol (u : UnaryOp) : UnaryOp.ofJson? (.str u.symbol) = some u := by
  cases u <;> rfl

/-- An operator is found by its own spelling only, so the rules may speak of spellings. -/
theorem UnaryOp.eq_symbol {op : Text} {u : UnaryOp} (h : UnaryOp.ofJson? (.str op) = some u) :
    op = u.symbol := by
  simp only [ofJson?, Option.map_eq_some_iff] at h
  obtain ⟨p, hp, rfl⟩ := h
  have hop := List.find?_some hp
  simp only [decide_eq_true_eq] at hop
  obtain ⟨u, _, rfl⟩ := List.mem_map.1 (List.mem_of_find?_eq_some hp)
  exact hop.symm

theorem UnaryOp.ne_symbol {op : Text} (h : UnaryOp.ofJson? (.str op) = none) (u : UnaryOp) :
    op ≠ u.symbol := by
  rintro rfl
  rw [ofJson?_symbol] at h
  cases h

theorem BinaryOp.ofJson?_symbol (b : BinaryOp) : BinaryOp.ofJson? (.str b.symbol) = some b := by
  cases b <;> rfl

/-- A binary operator is found by its own spelling only. -/
theorem BinaryOp.eq_symbol {op : Text} {b : BinaryOp} (h : BinaryOp.ofJson? (.str op) = some b) :
    op = b.symbol := by
  simp only [ofJson?, Option.map_eq_some_iff] at h
  obtain ⟨p, hp, rfl⟩ := h
  have hop := List.find?_some hp
  simp only [decide_eq_true_eq] at hop
  obtain ⟨b, _, rfl⟩ := List.mem_map.1 (List.mem_of_find?_eq_some hp)
  exact hop.symm

theorem BinaryOp.ne_symbol {op : Text} (h : BinaryOp.ofJson? (.str op) = none) (b : BinaryOp) :
    op ≠ b.symbol := by
  rintro rfl
  rw [ofJson?_symbol] at h
  cases h

open Rules

/-! ## Kinds of operands -/

theorem asNumber_of_notNumber {op : Json} {v : Value} (h : NotNumber v) :
    asNumber op v = .error (.notNumber op v.kind) := by
  cases v with
  | number x => exact absurd rfl (h x)
  | _ => rfl

theorem asBoolean_of_notBoolean {op : Json} {v : Value} (h : NotBoolean v) :
    asBoolean op v = .error (.notBoolean op v.kind) := by
  cases v with
  | boolean b => exact absurd rfl (h b)
  | _ => rfl

/-- A value is a number or is told apart from numbers: the rules have one case for each. -/
theorem number_or_not (v : Value) : (∃ x, v = .number x) ∨ NotNumber v := by
  cases v with
  | number x => exact Or.inl ⟨x, rfl⟩
  | _ => exact Or.inr fun x h => by cases h

theorem boolean_or_not (v : Value) : (∃ b, v = .boolean b) ∨ NotBoolean v := by
  cases v with
  | boolean b => exact Or.inl ⟨b, rfl⟩
  | _ => exact Or.inr fun b h => by cases h

/-! ## Unary operators -/

/-- What a unary operator gives is what some rule allows. -/
theorem unary_applyUnary (op : Text) (v : Value) : Unary op v (applyUnary (.str op) v) := by
  unfold applyUnary
  rcases hu : UnaryOp.ofJson? (.str op) with _ | u
  · apply Unary.unknown
    have hne := UnaryOp.ne_symbol hu
    simp only [List.mem_cons, List.not_mem_nil, or_false, not_or]
    exact ⟨hne .negate, hne .plus, hne .not⟩
  · obtain rfl := UnaryOp.eq_symbol hu
    cases u with
    | negate =>
      rcases number_or_not v with ⟨x, rfl⟩ | hv
      · exact .negate x
      · rw [asNumber_of_notNumber hv]
        exact .notNumber (by simp [UnaryOp.symbol]) hv
    | plus =>
      rcases number_or_not v with ⟨x, rfl⟩ | hv
      · exact .plus x
      · rw [asNumber_of_notNumber hv]
        exact .notNumber (by simp [UnaryOp.symbol]) hv
    | not =>
      rcases boolean_or_not v with ⟨b, rfl⟩ | hv
      · exact .not b
      · rw [asBoolean_of_notBoolean hv]
        exact .notBoolean hv

/-- The rules of unary operators allow one result, the one that is computed. -/
theorem unary_iff {op : Text} {v : Value} {r : Result} :
    Unary op v r ↔ applyUnary (.str op) v = r := by
  constructor
  · intro h
    cases h with
    | negate x => rfl
    | plus x => rfl
    | not b => rfl
    | notNumber hop hv =>
      simp only [List.mem_cons, List.not_mem_nil, or_false] at hop
      rcases hop with rfl | rfl
      · simp only [applyUnary, show UnaryOp.ofJson? (.str "-") = some .negate from rfl,
          asNumber_of_notNumber hv]
        rfl
      · simp only [applyUnary, show UnaryOp.ofJson? (.str "+") = some .plus from rfl,
          asNumber_of_notNumber hv]
        rfl
    | notBoolean hv =>
      simp only [applyUnary, show UnaryOp.ofJson? (.str "!") = some .not from rfl,
        asBoolean_of_notBoolean hv]
      rfl
    | unknown hop =>
      rcases hu : UnaryOp.ofJson? (.str op) with _ | u
      · simp only [applyUnary, hu]
      · obtain rfl := UnaryOp.eq_symbol hu
        exact absurd (by cases u <;> simp [UnaryOp.symbol]) hop
  · rintro rfl
    exact unary_applyUnary op v

/-! ## Binary operators -/

/-- The operators on numbers differ in nothing but the function that they apply. -/
theorem applyBinary_numeric {op : Text} {f : Number → Number → Value} (hop : (op, f) ∈ numeric)
    (a b : Value) : applyBinary (.str op) a b = onNumbers (.str op) f a b := by
  simp only [numeric, List.mem_cons, Prod.mk.injEq, List.not_mem_nil, or_false] at hop
  rcases hop with ⟨rfl, rfl⟩ | ⟨rfl, rfl⟩ | ⟨rfl, rfl⟩ | ⟨rfl, rfl⟩ | ⟨rfl, rfl⟩ | ⟨rfl, rfl⟩ |
    ⟨rfl, rfl⟩ | ⟨rfl, rfl⟩ | ⟨rfl, rfl⟩ <;> rfl

/-- The two tests for equality differ in the answer for equal values only. -/
theorem applyBinary_equality {op : Text} {same : Bool} (hop : (op, same) ∈ equality)
    (a b : Value) : applyBinary (.str op) a b =
      (equalValues (.str op) a b).map fun e => .boolean (e == same) := by
  simp only [equality, List.mem_cons, Prod.mk.injEq, List.not_mem_nil, or_false] at hop
  rcases hop with ⟨rfl, rfl⟩ | ⟨rfl, rfl⟩
  · change (equalValues (.str "==") a b >>= fun e => pure (Value.boolean e)) = _
    rcases equalValues (.str "==") a b with f | e
    · rfl
    · cases e <;> rfl
  · change (equalValues (.str "!=") a b >>= fun e => pure (Value.boolean !e)) = _
    rcases equalValues (.str "!=") a b with f | e
    · rfl
    · cases e <;> rfl

/-- The logical operators are no operators on two values: as such they are unknown. -/
theorem applyBinary_unknown {op : Text} (hn : op ∉ numeric.map (·.1))
    (he : op ∉ equality.map (·.1)) (a b : Value) :
    applyBinary (.str op) a b = .error (.unknownBinary (.str op)) := by
  unfold applyBinary
  rcases hb : BinaryOp.ofJson? (.str op) with _ | c
  · rfl
  · obtain rfl := BinaryOp.eq_symbol hb
    cases c with
    | or => rfl
    | and => rfl
    | equal => exact absurd (by simp [equality, BinaryOp.symbol]) he
    | notEqual => exact absurd (by simp [equality, BinaryOp.symbol]) he
    | _ => exact absurd (by simp [numeric, BinaryOp.symbol]) hn

/-- Values that are neither two numbers nor two booleans are not compared. -/
theorem equalValues_incomparable {op : Json} {a b : Value} (hn : NotNumber a ∨ NotNumber b)
    (hb : NotBoolean a ∨ NotBoolean b) :
    equalValues op a b = .error (.incomparable op a.kind b.kind) := by
  unfold equalValues
  split
  · rename_i x y
    rcases hn with h | h
    · exact absurd rfl (h x)
    · exact absurd rfl (h y)
  · rename_i x y
    rcases hb with h | h
    · exact absurd rfl (h x)
    · exact absurd rfl (h y)
  · rfl

/-- The left operand is looked at first, so it is the one at fault if both are no numbers. -/
theorem binary_onNumbers {op : Text} {f : Number → Number → Value} (hop : (op, f) ∈ numeric)
    (a b : Value) : Binary op a b (onNumbers (.str op) f a b) := by
  have hname : op ∈ numeric.map (·.1) := List.mem_map.2 ⟨_, hop, rfl⟩
  unfold onNumbers
  rcases number_or_not a with ⟨x, rfl⟩ | ha
  · rcases number_or_not b with ⟨y, rfl⟩ | hb
    · exact .numbers hop x y
    · rw [asNumber_of_notNumber hb]
      exact .rightKind hname x hb
  · rw [asNumber_of_notNumber ha]
    exact .leftKind hname ha

theorem binary_equalValues {op : Text} {same : Bool} (hop : (op, same) ∈ equality) (a b : Value) :
    Binary op a b ((equalValues (.str op) a b).map fun e => .boolean (e == same)) := by
  by_cases hn : NotNumber a ∨ NotNumber b
  · by_cases hb : NotBoolean a ∨ NotBoolean b
    · rw [equalValues_incomparable hn hb]
      exact .incomparable (List.mem_map.2 ⟨_, hop, rfl⟩) hn hb
    · rw [not_or] at hb
      obtain ⟨x, rfl⟩ := (boolean_or_not a).resolve_right hb.1
      obtain ⟨y, rfl⟩ := (boolean_or_not b).resolve_right hb.2
      exact .equalBooleans hop x y
  · rw [not_or] at hn
    obtain ⟨x, rfl⟩ := (number_or_not a).resolve_right hn.1
    obtain ⟨y, rfl⟩ := (number_or_not b).resolve_right hn.2
    exact .equalNumbers hop x y

theorem binary_applyBinary (op : Text) (a b : Value) :
    Binary op a b (applyBinary (.str op) a b) := by
  by_cases hn : op ∈ numeric.map (·.1)
  · obtain ⟨⟨_, f⟩, hop, rfl⟩ := List.mem_map.1 hn
    rw [applyBinary_numeric hop]
    exact binary_onNumbers hop a b
  · by_cases he : op ∈ equality.map (·.1)
    · obtain ⟨⟨_, same⟩, hop, rfl⟩ := List.mem_map.1 he
      rw [applyBinary_equality hop]
      exact binary_equalValues hop a b
    · rw [applyBinary_unknown hn he]
      exact .unknown hn he

/-- The rules of binary operators allow one result, the one that is computed. -/
theorem binary_iff {op : Text} {a b : Value} {r : Result} :
    Binary op a b r ↔ applyBinary (.str op) a b = r := by
  constructor
  · intro h
    cases h with
    | numbers hop x y =>
      rw [applyBinary_numeric hop]
      rfl
    | leftKind hop ha =>
      obtain ⟨⟨_, f⟩, hf, rfl⟩ := List.mem_map.1 hop
      rw [applyBinary_numeric hf, onNumbers, asNumber_of_notNumber ha]
      rfl
    | rightKind hop x hb =>
      obtain ⟨⟨_, f⟩, hf, rfl⟩ := List.mem_map.1 hop
      rw [applyBinary_numeric hf, onNumbers, asNumber_of_notNumber hb]
      rfl
    | equalNumbers hop x y =>
      rw [applyBinary_equality hop]
      rfl
    | equalBooleans hop x y =>
      rw [applyBinary_equality hop]
      rfl
    | incomparable hop hn hb =>
      obtain ⟨⟨_, same⟩, hsame, rfl⟩ := List.mem_map.1 hop
      rw [applyBinary_equality hsame, equalValues_incomparable hn hb]
      rfl
    | unknown hn he => exact applyBinary_unknown hn he a b
  · rintro rfl
    exact binary_applyBinary op a b

/-! ## Logical operators -/

theorem shortCircuit?_of_mem {op : Text} {final : Bool} (h : (op, final) ∈ logical) :
    shortCircuit? (.str op) = some final := by
  simp only [logical, List.mem_cons, Prod.mk.injEq, List.not_mem_nil, or_false] at h
  rcases h with ⟨rfl, rfl⟩ | ⟨rfl, rfl⟩ <;> rfl

theorem shortCircuit?_eq_some {op : Text} {final : Bool}
    (h : shortCircuit? (.str op) = some final) : (op, final) ∈ logical := by
  unfold shortCircuit? at h
  split at h
  · rename_i hb
    cases h
    obtain rfl := BinaryOp.eq_symbol hb
    simp [logical, BinaryOp.symbol]
  · rename_i hb
    cases h
    obtain rfl := BinaryOp.eq_symbol hb
    simp [logical, BinaryOp.symbol]
  · cases h

/-- Every other operator evaluates both of its operands. -/
theorem shortCircuit?_eq_none {op : Text} :
    shortCircuit? (.str op) = none ↔ op ∉ logical.map (·.1) := by
  constructor
  · intro h hmem
    obtain ⟨⟨_, final⟩, hop, rfl⟩ := List.mem_map.1 hmem
    rw [shortCircuit?_of_mem hop] at h
    cases h
  · intro h
    rcases hs : shortCircuit? (.str op) with _ | final
    · rfl
    · exact absurd (List.mem_map.2 ⟨_, shortCircuit?_eq_some hs, rfl⟩) h

/-! ## Subscripts -/

/-- An integral index below zero is out of range; any other one looks an item up. -/
theorem applySubscript_integral {items : List Value} {x : Number} {k : Int}
    (hx : x.toInt? = some k) :
    applySubscript (.array items) (.number x) =
      if k < 0 then .error (.indexOutOfRange (Value.number x).text items.length)
      else match items[k.toNat]? with
        | some item => .ok item
        | none => .error (.indexOutOfRange (Value.number x).text items.length) := by
  simp only [applySubscript, asIndex, hx]
  rfl

theorem applySubscript_range {items : List Value} {x : Number} {k : Int}
    (hx : x.toInt? = some k) (hk : k < 0 ∨ items.length ≤ k) :
    applySubscript (.array items) (.number x) =
      .error (.indexOutOfRange (Value.number x).text items.length) := by
  rw [applySubscript_integral hx]
  split
  · rfl
  · rw [List.getElem?_eq_none (by omega)]

/-- The rules of subscripts allow one result, the one that is computed. -/
theorem subscript_iff {v w : Value} {r : Result} :
    Subscript v w r ↔ applySubscript v w = r := by
  constructor
  · intro h
    cases h with
    | element hx hv =>
      rw [applySubscript_integral hx, if_neg (by omega), Int.toNat_natCast, hv]
    | targetKind h =>
      cases v with
      | array items => exact absurd rfl (h items)
      | _ => rfl
    | indexKind h =>
      cases w with
      | number x => exact absurd rfl (h x)
      | _ => rfl
    | fraction hx =>
      simp only [applySubscript, asIndex, hx]
      rfl
    | range hx hk => exact applySubscript_range hx hk
  · rintro rfl
    cases v with
    | array items =>
      cases w with
      | number x =>
        rcases hx : x.toInt? with _ | k
        · simp only [applySubscript, asIndex, hx]
          exact .fraction hx
        · by_cases hk : k < 0 ∨ items.length ≤ k
          · rw [applySubscript_range hx hk]
            exact .range hx hk
          · have hnat : x.toInt? = some (k.toNat : Int) := by
              rw [hx, Int.toNat_of_nonneg (by omega)]
            obtain ⟨item, hget⟩ : ∃ item, items[k.toNat]? = some item :=
              ⟨_, List.getElem?_eq_getElem (by omega)⟩
            rw [applySubscript_integral hx, if_neg (by omega), hget]
            exact .element hnat hget
      | _ => exact .indexKind fun x h => by cases h
    | _ => exact .targetKind fun items h => by cases h

end BellaLang
