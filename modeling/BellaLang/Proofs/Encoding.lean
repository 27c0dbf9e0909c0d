-- Storing a text and reading it again. The bytes of a character are recognised
-- by the first of them, so the bytes of a text are cut where they were joined;
-- a text without carriage returns keeps its line ends.
import BellaLang.Text.Utf8

namespace BellaLang.Text

/-! ## One character -/

theorem decodeFrom_skip (offset : Nat) (tail bs : List Nat) :
    decodeFrom offset tail.length (tail ++ bs) = decodeFrom (offset + tail.length) 0 bs := by
  induction tail generalizing offset with
  | nil => rfl
  | cons b tail ih =>
    rw [List.length_cons, List.cons_append, decodeFrom, ih]
    congr 1
    omega

section character

variable {b low high : Nat} {tail bs : List Nat}

/-- A first byte and as many bytes as it asks for are one character. -/
theorem decodeFrom_character (hlead : leadOf? b = some (tail.length + 1, low, high))
    (hfits : fitting low high tail.length (tail ++ bs) = tail.length) (offset : Nat) :
    decodeFrom offset 0 (b :: (tail ++ bs)) =
      (decodeFrom (offset + 1 + tail.length) 0 bs).map
        (Char.ofNat (codePoint (b :: tail)) :: ·) := by
  have htake : (b :: (tail ++ bs)).take (tail.length + 1) = b :: tail := by simp
  simp only [decodeFrom, hlead, Nat.add_sub_cancel, hfits, if_true, htake, decodeFrom_skip]
  rcases decodeFrom (offset + 1 + tail.length) 0 bs with e | cs <;> rfl

theorem fitting_tail (htail : ∀ t ∈ tail, 0x80 ≤ t ∧ t ≤ 0xbf) :
    fitting 0x80 0xbf tail.length (tail ++ bs) = tail.length := by
  induction tail with
  | nil => rfl
  | cons t tail ih =>
    have ht := htail t (by simp)
    simp [fitting, ht.1, ht.2, ih fun t ht => htail t (by simp [ht]), Nat.add_comm]

/-- The second byte may have bounds of its own. -/
theorem fitting_cons {t : Nat} (hlow : low ≤ t) (hhigh : t ≤ high)
    (htail : ∀ t ∈ tail, 0x80 ≤ t ∧ t ≤ 0xbf) :
    fitting low high (t :: tail).length (t :: tail ++ bs) = (t :: tail).length := by
  simp [fitting, hlow, hhigh, fitting_tail htail, Nat.add_comm]

end character

/-! ## The bytes of a character -/

theorem char_valid (c : Char) : c.toNat < 0xd800 ∨ 0xdfff < c.toNat ∧ c.toNat < 0x110000 :=
  c.valid

/-- The first byte of a character of three bytes leaves out overlong forms and halves. -/
theorem lead_three {n : Nat} (hlow : 0x800 ≤ n) (hhigh : n < 0x10000)
    (hvalid : n < 0xd800 ∨ 0xdfff < n) :
    ∃ low high, leadOf? (0xe0 + n / 0x1000) = some (3, low, high) ∧
      low ≤ 0x80 + n / 0x40 % 0x40 ∧ 0x80 + n / 0x40 % 0x40 ≤ high := by
  unfold leadOf?
  rw [if_neg (by omega), if_neg (by omega), if_neg (by omega)]
  split
  · exact ⟨_, _, rfl, by omega, by omega⟩
  · split
    · exact ⟨_, _, rfl, by omega, by omega⟩
    · rw [if_pos (by omega)]
      exact ⟨_, _, rfl, by omega, by omega⟩

/-- The first byte of a character of four bytes leaves out overlong forms and what is no code
point. -/
theorem lead_four {n : Nat} (hlow : 0x10000 ≤ n) (hhigh : n < 0x110000) :
    ∃ low high, leadOf? (0xf0 + n / 0x40000) = some (4, low, high) ∧
      low ≤ 0x80 + n / 0x1000 % 0x40 ∧ 0x80 + n / 0x1000 % 0x40 ≤ high := by
  unfold leadOf?
  rw [if_neg (by omega), if_neg (by omega), if_neg (by omega), if_neg (by omega),
    if_neg (by omega), if_neg (by omega)]
  split
  · exact ⟨_, _, rfl, by omega, by omega⟩
  · split
    · exact ⟨_, _, rfl, by omega, by omega⟩
    · rw [if_pos (by omega)]
      exact ⟨_, _, rfl, by omega, by omega⟩

/-- The bytes of a character: the first one asks for the others, and all of them are the code
of the character. -/
theorem encodeChar_eq (c : Char) : ∃ b tail low high, encodeChar c = b :: tail ∧
    leadOf? b = some (tail.length + 1, low, high) ∧
    (∀ bs, fitting low high tail.length (tail ++ bs) = tail.length) ∧
    codePoint (b :: tail) = c.toNat := by
  have hvalid := char_valid c
  unfold encodeChar
  simp only
  generalize c.toNat = n at hvalid ⊢
  split
  · rename_i h
    exact ⟨n, [], 0x80, 0xbf, rfl, if_pos h, fun bs => rfl, rfl⟩
  · split
    · rename_i h₁ h₂
      refine ⟨_, _, 0x80, 0xbf, rfl, ?_, fun bs => fitting_tail (by simp; omega), ?_⟩
      · unfold leadOf?
        rw [if_neg (by omega), if_neg (by omega), if_pos (by omega)]
        rfl
      · rw [codePoint]
        omega
    · split
      · rename_i h₁ h₂ h₃
        obtain ⟨low, high, hlead, hlow, hhigh⟩ := lead_three (n := n) (by omega) h₃ (by omega)
        refine ⟨_, _, low, high, rfl, hlead, fun bs => fitting_cons hlow hhigh (by simp; omega), ?_⟩
        rw [codePoint]
        omega
      · rename_i h₁ h₂ h₃
        obtain ⟨low, high, hlead, hlow, hhigh⟩ := lead_four (n := n) (by omega) (by omega)
        refine ⟨_, _, low, high, rfl, hlead, fun bs => fitting_cons hlow hhigh (by simp; omega), ?_⟩
        rw [codePoint]
        omega

/-- The bytes of a character are read as that character, whatever follows. -/
theorem decodeFrom_encodeChar (c : Char) (bs : List Nat) (offset : Nat) :
    ∃ next, decodeFrom offset 0 (encodeChar c ++ bs) = (decodeFrom next 0 bs).map (c :: ·) := by
  obtain ⟨b, tail, low, high, heq, hlead, hfits, hcode⟩ := encodeChar_eq c
  refine ⟨offset + 1 + tail.length, ?_⟩
  rw [heq, List.cons_append, decodeFrom_character hlead (hfits bs), hcode, Char.ofNat_toNat]

/-! ## Texts -/

theorem decodeFrom_encode (cs : List Char) (offset : Nat) :
    decodeFrom offset 0 (encode cs) = .ok cs := by
  induction cs generalizing offset with
  | nil => rfl
  | cons c cs ih =>
    obtain ⟨next, hnext⟩ := decodeFrom_encodeChar c (encode cs) offset
    rw [show encode (c :: cs) = encodeChar c ++ encode cs from rfl, hnext, ih]
    rfl

/-- A text is read back from its bytes. -/
theorem decode_encode (cs : List Char) : decode (encode cs) = .ok cs :=
  decodeFrom_encode cs 0

/-- A text without carriage returns keeps its line ends. -/
theorem unifyLines_of_not_mem {cs : List Char} (h : '\r' ∉ cs) : unifyLines cs = cs := by
  fun_induction unifyLines cs with
  | case1 => rfl
  | case2 cs ih => simp at h
  | case3 cs hnext ih => simp at h
  | case4 c cs hnext hc ih => rw [ih (by simp_all)]

end BellaLang.Text
