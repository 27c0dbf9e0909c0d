-- Values as source text. What is printed for a value made of finite numbers,
-- booleans and arrays is an expression for it: reading and evaluating that text
-- gives the value again, except that a zero has no sign.
import BellaLang.Proofs.Decimals
import BellaLang.Proofs.Programs
import BellaLang.Proofs.Wording

namespace BellaLang

/-! ## Finite values -/

namespace Value

/-- A value is made of finite numbers, booleans and arrays. -/
inductive Finite : Value → Prop
  | number {x : Number} (h : x.isFinite = true) : Finite (.number x)
  | boolean (b : Bool) : Finite (.boolean b)
  | array {items : List Value} (h : ∀ v ∈ items, Finite v) : Finite (.array items)

/-- Two values are equal: their numbers as numbers, for which the sign of a zero is no matter. -/
inductive Same : Value → Value → Prop
  | number {x y : Number} (h : (x == y) = true) : Same (.number x) (.number y)
  | boolean (b : Bool) : Same (.boolean b) (.boolean b)
  | array {items items' : List Value} (hl : items.length = items'.length)
      (h : ∀ p ∈ items.zip items', Same p.1 p.2) : Same (.array items) (.array items')

mutual

/-- A value without the signs of its zeros. -/
def shown : Value → Value
  | number x => .number x.shown
  | array items => .array (shownItems items)
  | other => other

def shownItems : List Value → List Value
  | [] => []
  | v :: vs => shown v :: shownItems vs

end

end Value

theorem Number.beq_self {x : Number} (h : x.isFinite = true) : (x == x) = true := by
  rcases finite_cases h with rfl | rfl | ⟨s, m, k, hm, hx⟩
  · decide
  · decide
  · change x.toModel.unpack.beq x.toModel.unpack = true
    rw [hx]
    cases s <;> simp [Float.Model.UnpackedFloat.beq, Float.Model.UnpackedFloat.compare]

theorem Number.beq_of_shown {x y : Number} (hy : y.isFinite = true) (h : x.shown = y.shown) :
    (x == y) = true := by
  unfold Number.shown at h
  by_cases hxz : x = -0.0 <;> by_cases hyz : y = -0.0
  · rw [hxz, hyz]
    decide
  · rw [if_pos hxz, if_neg hyz] at h
    rw [hxz, ← h]
    decide
  · rw [if_neg hxz, if_pos hyz] at h
    rw [h, hyz]
    decide
  · rw [if_neg hxz, if_neg hyz] at h
    rw [h]
    exact Number.beq_self hy

theorem Number.shown_shown (x : Number) : x.shown.shown = x.shown := by
  unfold Number.shown
  by_cases hz : x = -0.0
  · rw [if_pos hz]
    decide
  · rw [if_neg hz, if_neg hz]

theorem Number.text_shown (x : Number) : x.shown.text = x.text := by
  unfold Number.shown
  by_cases h : x = -0.0
  · rw [if_pos h, h]
    rfl
  · rw [if_neg h]

namespace Value

theorem texts_eq_map (items : List Value) : texts items = items.map text := by
  induction items with
  | nil => rfl
  | cons v vs ih => rw [texts, ih, List.map_cons]

theorem shownItems_eq_map (items : List Value) : shownItems items = items.map shown := by
  induction items with
  | nil => rfl
  | cons v vs ih => rw [shownItems, ih, List.map_cons]

/-- The signs of zeros are not shown. -/
theorem text_shown {v : Value} (h : v.Finite) : v.shown.text = v.text := by
  induction h with
  | number _ => rw [shown, text, text, Number.text_shown]
  | boolean b => rfl
  | @array items _ ih =>
    have htexts : items.map (text ∘ shown) = items.map text := List.map_congr_left ih
    rw [shown, text, text, shownItems_eq_map, texts_eq_map, texts_eq_map, List.map_map, htexts]

/-- Only the signs of zeros are lost. -/
theorem same_shown {v : Value} (h : v.Finite) : v.shown.Same v := by
  induction h with
  | number hx =>
    rw [shown]
    exact .number (Number.beq_of_shown hx (Number.shown_shown _))
  | boolean b => exact .boolean b
  | array _ ih =>
    have hitems := List.forall₂_iff_zip.1 (List.forall₂_map_left_iff.2 (List.forall₂_same.2 ih))
    rw [shown, shownItems_eq_map]
    exact .array hitems.1 fun _ hp => hitems.2 hp

/-- Values that differ only in the signs of zeros are equal. -/
theorem same_of_shown {v w : Value} (hv : v.Finite) (hw : w.Finite) (h : v.shown = w.shown) :
    v.Same w := by
  induction hv generalizing w with
  | number hx =>
    cases hw with
    | number hy => exact .number (Number.beq_of_shown hy (by simpa [shown] using h))
    | _ => simp [shown] at h
  | boolean b =>
    cases hw with
    | boolean b' =>
      obtain rfl : b = b' := by simpa [shown] using h
      exact .boolean b
    | _ => simp [shown] at h
  | @array items hitems ih =>
    cases hw with
    | @array items' hitems' =>
      have hmap : items.map shown = items'.map shown := by
        simpa [shown, shownItems_eq_map] using h
      rw [← List.forall₂_eq_eq_eq, List.forall₂_map_left_iff, List.forall₂_map_right_iff,
        List.forall₂_iff_zip] at hmap
      refine .array hmap.1 fun p hp => ?_
      obtain ⟨hmem, hmem'⟩ := List.of_mem_zip hp
      exact ih p.1 hmem (hitems' p.2 hmem') (hmap.2 hp)
    | _ => simp [shown] at h

end Value

namespace Source

/-! ## The text of a value -/

/-- A text is laid out from some words wherever a separator follows it. -/
def Spread (cs : List Char) (words : List Text) : Prop :=
  ∀ rest others, (∀ c ∈ rest.head?, c ∈ separators) → Laid rest others →
    Laid (cs ++ rest) (words.map Text.chars ++ others)

theorem spread_word (word : List Char) : Spread word [.ofChars word] := by
  intro rest others hrest h
  simpa [Text.chars_ofChars] using Laid.word (Or.inl hrest) h

/-- A sign that no longer sign starts with needs nothing after it. -/
theorem laid_loneSign {c : Char} (hc : [c] ∈ loneSigns) {rest : List Char}
    {others : List (List Char)} (h : Laid rest others) : Laid (c :: rest) ([c] :: others) :=
  .word (Or.inr hc) h

theorem spread_minus {cs : List Char} {words : List Text} (h : Spread cs words) :
    Spread ('-' :: cs) (fixed "-" ++ words) := by
  intro rest others hrest hl
  exact laid_loneSign (by decide) (h rest others hrest hl)

/-- An expression is written like a value, and evaluates to it. -/
structure Denotes (v : Value) (e : Node) : Prop where
  spread : ∃ words, Writes (.expr 0) words e ∧ Spread v.text.chars words
  value : ∀ t call m, evaluateWith t call e m = (.ok v.shown, m)

theorem exists_denotes_number {x : Number} (h : x.isFinite = true) :
    ∃ e, Denotes (.number x) e := by
  have hchars : (Value.number x).text.chars = x.text.toList := Text.chars_ofChars _
  obtain ⟨s, ⟨hspells, hs⟩ | ⟨digits, htext, hspells, hs⟩⟩ := spells_text h
  · have hwrites := (writes_numeral hspells).lower (Nat.zero_le 9) (Nat.le_refl 9)
    refine ⟨.numeral s.toNumber, ⟨_, hwrites, ?_⟩, ?_⟩
    · rw [hchars]
      exact spread_word _
    · intro t call m
      rw [Value.shown, ← hs]
      rfl
  · have hwrites :=
      writes_unary .negate ((writes_numeral hspells).lower (by decide) (Nat.le_refl 9))
    refine ⟨_, ⟨_, hwrites.lower (Nat.zero_le 7) (by decide), ?_⟩, ?_⟩
    · rw [hchars, htext]
      exact spread_minus (spread_word digits)
    · intro t call m
      rw [Value.shown, ← hs]
      rfl

theorem denotes_boolean (b : Bool) : Denotes (.boolean b) (.booleanLiteral b) := by
  refine ⟨⟨_, (writes_booleanLiteral b).lower (Nat.zero_le 9) (Nat.le_refl 9), ?_⟩, ?_⟩
  · cases b <;> exact spread_word _
  · exact fun _ _ _ => rfl

section arrays

variable {items : List Value} {elements : List Node}

/-- The texts of further elements, with a comma before each. -/
def moreTexts (items : List Value) : Text := items.flatMap fun v => ", " ++ v.text

theorem join_texts (v : Value) (items : List Value) :
    Text.join ", " ((v :: items).map Value.text) = v.text ++ moreTexts items := by
  induction items generalizing v with
  | nil => simp [Text.join, moreTexts]
  | cons w items ih =>
    have hjoin := ih w
    simp only [Text.join, List.map_cons] at hjoin ⊢
    rw [List.intercalate_cons_cons, hjoin, moreTexts, moreTexts, List.flatMap_cons]
    simp only [List.append_assoc]

theorem moreTexts_cons (v : Value) (items : List Value) :
    (moreTexts (v :: items)).chars = ',' :: ' ' :: (v.text.chars ++ (moreTexts items).chars) := by
  simp [moreTexts, Text.chars, Text.ofString, Text.ofChars, CodePoint.toChar]

/-- A comma or what follows the elements comes after each of them. -/
theorem separator_moreTexts {rest : List Char} (h : ∀ c ∈ rest.head?, c ∈ separators) :
    ∀ c ∈ ((moreTexts items).chars ++ rest).head?, c ∈ separators := by
  rcases items with _ | ⟨v, items⟩
  · exact h
  · rw [moreTexts_cons]
    simp [separators]

theorem spread_more (h : List.Forall₂ Denotes items elements) :
    ∃ words, Writes .moreArgs words elements ∧ Spread (moreTexts items).chars words := by
  induction h with
  | nil => exact ⟨[], writes_lastArg, fun rest others _ h => h⟩
  | @cons v e items elements hv _ ih =>
    obtain ⟨words, hwrites, hspread⟩ := hv.spread
    obtain ⟨words', hwrites', hspread'⟩ := ih
    refine ⟨_, writes_nextArg hwrites hwrites', ?_⟩
    intro rest others hrest hl
    -- The layout is built from its end: what follows, the further elements, this one, its comma.
    have hmore := hspread _ _ (separator_moreTexts hrest) (hspread' rest others hrest hl)
    have hcomma := laid_loneSign (c := ',') (by decide) hmore.space
    have hsign : Text.chars "," = [','] := rfl
    simpa [moreTexts_cons, hsign] using hcomma

theorem spread_items (h : List.Forall₂ Denotes items elements) :
    ∃ words, Writes .args words elements ∧
      Spread (Text.join ", " (items.map Value.text)).chars words := by
  cases h with
  | nil => exact ⟨[], writes_noArgs, fun rest others _ h => h⟩
  | @cons v e items elements hv hitems =>
    obtain ⟨words, hwrites, hspread⟩ := hv.spread
    obtain ⟨words', hwrites', hspread'⟩ := spread_more hitems
    refine ⟨_, writes_someArgs hwrites hwrites', ?_⟩
    intro rest others hrest hl
    have hfirst := hspread _ _ (separator_moreTexts hrest) (hspread' rest others hrest hl)
    rw [join_texts]
    simpa [Text.chars] using hfirst

theorem evaluateAllWith_elements (h : List.Forall₂ Denotes items elements) (t : Tracing)
    (call : Caller) (m : Machine) :
    evaluateAllWith t call elements m = (.ok (items.map Value.shown), m) := by
  induction h with
  | nil => rfl
  | cons hv _ ih =>
    rw [evaluateAllWith, Action.bind_ok (hv.value t call m), Action.bind_ok ih]
    rfl

theorem denotes_array (h : List.Forall₂ Denotes items elements) :
    Denotes (.array items) (.arrayLiteral elements) := by
  obtain ⟨words, hwrites, hspread⟩ := spread_items h
  refine ⟨⟨_, (writes_arrayLiteral hwrites).lower (Nat.zero_le 9) (Nat.le_refl 9), ?_⟩, ?_⟩
  · intro rest others hrest hl
    have hclose : Laid ([']'] ++ rest) ([']'] :: others) := .word (Or.inl hrest) hl
    have hitems := hspread _ _ (by simp [separators]) hclose
    have hopen := laid_loneSign (c := '[') (by decide) hitems
    rw [Value.text, Value.texts_eq_map]
    simpa [Text.chars, Text.ofString, Text.ofChars, CodePoint.toChar] using hopen
  · intro t call m
    rw [evaluateWith, Action.bind_ok (evaluateAllWith_elements h t call m), Value.shown,
      Value.shownItems_eq_map]
    rfl

end arrays

theorem exists_denotes {v : Value} (h : v.Finite) : ∃ e, Denotes v e := by
  induction h with
  | number hx => exact exists_denotes_number hx
  | boolean b => exact ⟨_, denotes_boolean b⟩
  | @array items _ ih =>
    choose! element helement using ih
    have hitems : List.Forall₂ Denotes items (items.map element) :=
      List.forall₂_map_right_iff.2 (List.forall₂_same.2 helement)
    exact ⟨_, denotes_array hitems⟩

/-! ## Reading and running it -/

theorem parse_print {v : Value} {e : Node} (h : Denotes v e) :
    parse ("print " ++ v.text) = .ok (.program (.block [.printStatement e])) := by
  obtain ⟨words, hwrites, hspread⟩ := h.spread
  have hprogram := writes_program (writes_statementItem (writes_printStatement hwrites)
    writes_noItems)
  have htext := hspread [] [] (by simp) .nil
  have hprint : Laid ("print".toList ++ ' ' :: (v.text.chars ++ []))
      ("print".toList :: (words.map Text.chars ++ [])) :=
    .word (Or.inl (by simp [separators])) htext.space
  refine parse_of_writes hprogram ?_
  simpa [Text.chars, Text.ofString, Text.ofChars, CodePoint.toChar] using hprint

theorem run_print {v : Value} {e : Node} (hv : v.Finite) (h : Denotes v e) (s : Settings) :
    (run s (.program (.block [.printStatement e]))).1 = .ok () ∧
      (run s (.program (.block [.printStatement e]))).2.printed = [v.text] := by
  obtain ⟨m, hm, hstore, hprinted⟩ := note_start s.toTracing
  have hanswer : (evaluate s.toTracing s.depth e).answer (topStore []) = .ok v.shown := by
    rw [Action.answer, evaluate, h.value]
  have hdoes := does_printStatement (s := s) hstore hanswer
  rw [Value.text_shown hv] at hdoes
  have hall : Does (executeAll s [.printStatement e]) m (.ok ()) ([v.text] ++ []) [] := by
    rw [executeAll]
    exact does_bind hdoes fun m' hm' => does_pure hm'
  have hshows := shows_of_does (o := ⟨[v.text], [], none⟩) hm hprinted hall
  exact ⟨hshows.result, hshows.printed⟩

/-- Values with the same text are equal, since reading it gives both of them. -/
theorem same_of_text {v w : Value} (hv : v.Finite) (hw : w.Finite) (h : v.text = w.text) :
    v.Same w := by
  obtain ⟨e, he⟩ := exists_denotes hv
  obtain ⟨e', he'⟩ := exists_denotes hw
  have hparse := parse_print he
  rw [h, parse_print he'] at hparse
  cases hparse
  have hvalue := (he.value {} (invoke {} 0) .start).symm.trans (he'.value {} (invoke {} 0) .start)
  exact Value.same_of_shown hv hw (Except.ok.inj (congrArg Prod.fst hvalue))

/-- What is printed for a value of finite numbers, booleans and arrays is source text for it. As
the expression of a print statement it evaluates, in any state, to a value equal to it, and
prints the same text again. So only equal values have the same text. -/
theorem a_printed_value_is_its_own_source {v : Value} (h : v.Finite) :
    (∃ e w, parse ("print " ++ v.text) = .ok (.program (.block [.printStatement e])) ∧
      (∀ t depth m, evaluate t depth e m = (.ok w, m)) ∧ w.Same v ∧
      ∀ s, (run s (.program (.block [.printStatement e]))).1 = .ok () ∧
        (run s (.program (.block [.printStatement e]))).2.printed = [v.text]) ∧
    ∀ w : Value, w.Finite → w.text = v.text → w.Same v := by
  obtain ⟨e, he⟩ := exists_denotes h
  refine ⟨⟨e, v.shown, parse_print he, ?_, Value.same_shown h, run_print h he⟩, ?_⟩
  · exact fun t depth m => he.value t (invoke t depth) m
  · exact fun w hw htext => same_of_text hw h htext

/-- Negative numbers are read with their sign as an operator, and a zero has none. -/
theorem a_printed_value_is_its_own_source_of_an_array :
    let v : Value := .array
      [.number 1e21, .number (-0.5), .array [], .boolean true, .number (-0.0)]
    v.text = "[1e+21, -0.5, [], true, 0]" ∧
      ∃ e w, parse "print [1e+21, -0.5, [], true, 0]" =
          .ok (.program (.block [.printStatement e])) ∧
        (∀ t depth m, evaluate t depth e m = (.ok w, m)) ∧ w.Same v := by
  intro v
  have htext : v.text = "[1e+21, -0.5, [], true, 0]" := by decide +kernel
  have hnumbers : ∀ x ∈ [1e21, -0.5, (-0.0 : Number)], x.isFinite = true := by decide +kernel
  have hfinite : v.Finite := by
    refine .array ?_
    simp only [List.forall_mem_cons, List.not_mem_nil, false_imp_iff, implies_true, and_true]
    exact ⟨.number (hnumbers _ (by simp)), .number (hnumbers _ (by simp)), .array (by simp),
      .boolean true, .number (hnumbers _ (by simp))⟩
  obtain ⟨⟨e, w, hparse, hvalue, hsame, _⟩, _⟩ := a_printed_value_is_its_own_source hfinite
  rw [htext] at hparse
  exact ⟨htext, e, w, hparse, hvalue, hsame⟩

end Source

end BellaLang
