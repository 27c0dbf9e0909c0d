-- Documents that are written and read again. Blanks between the parts are
-- skipped, escapes give the characters that they stand for, and numbers come
-- back from their literal form, so reading undoes writing.
import BellaLang.Json.Writer
import BellaLang.Proofs.Literals

namespace BellaLang.Json

open Number

/-! ## Strings -/

section strings

variable {opening : Nat} {rest : List Char}

theorem hexDigit?_hexChar {d : ℕ} (h : d < 16) : Text.hexDigit? (Text.hexChar d) = some d := by
  decide +revert

/-- Four hexadecimal digits are read as the unit they were written for. -/
theorem escapeUnit?_hexDigits {n : ℕ} (h : n < 0x10000) (c : Char) (cs : List Char) :
    escapeUnit? (Text.hexDigits 4 n ++ c :: cs) = some n := by
  have hdigits : Text.hexDigits 4 n ++ c :: cs =
      Text.hexChar (n / 16 / 16 / 16 % 16) :: Text.hexChar (n / 16 / 16 % 16) ::
        Text.hexChar (n / 16 % 16) :: Text.hexChar (n % 16) :: c :: cs := by
    simp [Text.hexDigits]
  rw [hdigits]
  simp only [escapeUnit?, hexDigit?_hexChar (Nat.mod_lt _ (by decide : 0 < 16)), Option.pure_def,
    Option.bind_eq_bind, Option.bind_some, Option.some.injEq]
  omega

theorem readString_escape {e c : Char} (h : simpleEscape? e = some c) (rest : List Char) :
    readString opening ('\\' :: e :: rest) = consRead (.char c) (readString opening rest) := by
  have hu : e ≠ 'u' := by
    rintro rfl
    cases h
  rw [readString]
  · rw [h]
  · simp [hu]

/-- Most characters stand for themselves. -/
theorem readString_plain {c : Char} (hquote : c ≠ '"') (hslash : c ≠ '\\')
    (hc : ¬ c.toNat < 0x20) (rest : List Char) :
    readString opening (c :: rest) = consRead (.char c) (readString opening rest) := by
  rw [readString]
  · rw [if_neg (by omega)]
  · simp [hquote]
  · simp [hslash]
  · simp [hslash]
  · simp [hslash]

theorem ofUnit_control {c : Char} (h : c.toNat < 0x20) : CodePoint.ofUnit c.toNat = .char c := by
  unfold CodePoint.ofUnit
  rw [dif_neg (by omega), Char.ofNat_toNat]

/-- A control character is written as an escape and read as what it was. -/
theorem readString_control {c : Char} (h : c.toNat < 0x20) (hr : rest ≠ []) :
    readString opening ('\\' :: 'u' :: (Text.hexDigits 4 c.toNat ++ rest)) =
      consRead (.char c) (readString opening rest) := by
  obtain ⟨d, tail, rfl⟩ := List.exists_cons_of_ne_nil hr
  have hunit := escapeUnit?_hexDigits (n := c.toNat) (by omega) d tail
  have hleading : isLeading c.toNat = false := by
    simp [isLeading]
    omega
  have hdrop : (Text.hexDigits 4 c.toNat ++ d :: tail).drop 4 = d :: tail := by
    simp [Text.hexDigits]
  rw [readString]
  simp [hunit, hleading, hdrop, ofUnit_control h]

/-- A character is read from the way it is written; something must follow it. -/
theorem readString_writeChar (c : Char) (hr : rest ≠ []) :
    readString opening (writeChar c ++ rest) = consRead (.char c) (readString opening rest) := by
  unfold writeChar
  split_ifs with hquote hslash _ _ _ _ _ hcontrol
  on_goal 8 => exact readString_control hcontrol hr
  on_goal 8 => exact readString_plain hquote hslash hcontrol rest
  -- What is left are the escapes of one letter.
  all_goals
    subst_vars
    exact readString_escape rfl rest

/-- The characters of a string are read up to the quote that closes it. -/
theorem readString_writeString (cs rest : List Char) :
    readString opening ((Text.ofChars cs).flatMap writeCodePoint ++ '"' :: rest) =
      .ok (.ofChars cs, rest) := by
  induction cs with
  | nil => simp [Text.ofChars, readString]
  | cons c cs ih =>
    have hchar : (Text.ofChars (c :: cs)).flatMap writeCodePoint ++ '"' :: rest =
        writeChar c ++ ((Text.ofChars cs).flatMap writeCodePoint ++ '"' :: rest) := by
      simp [Text.ofChars, writeCodePoint]
    rw [hchar, readString_writeChar c (by simp), ih]
    rfl

end strings

/-! ## Blanks -/

/-- The text starts with a character that is no blank, no closing bracket and no mark of the
byte order. -/
def Opens (cs : List Char) : Prop :=
  ∃ c tail, cs = c :: tail ∧ isSpace c = false ∧ c ∉ [']', '\x7d', '\ufeff']

theorem skipSpace_append {blanks : List Char} (h : ∀ c ∈ blanks, isSpace c = true)
    {c : Char} (hc : isSpace c = false) (cs : List Char) :
    skipSpace (blanks ++ c :: cs) = c :: cs := by
  unfold skipSpace
  rw [List.dropWhile_append_of_pos h, List.dropWhile_cons_of_neg (by simp [hc])]

theorem Opens.skipSpace_append {cs : List Char} (ho : Opens cs) {blanks : List Char}
    (h : ∀ c ∈ blanks, isSpace c = true) (rest : List Char) :
    skipSpace (blanks ++ (cs ++ rest)) = cs ++ rest := by
  obtain ⟨c, tail, rfl, hspace, _⟩ := ho
  exact Json.skipSpace_append h hspace (tail ++ rest)

/-- Nothing but blanks stands between the parts. -/
structure Layout.Blank (layout : Layout) : Prop where
  lineBreak : ∀ depth, ∀ c ∈ layout.lineBreak depth, isSpace c = true
  afterComma : ∀ c ∈ layout.afterComma, isSpace c = true
  afterColon : ∀ c ∈ layout.afterColon, isSpace c = true

theorem blank_indented : Layout.indented.Blank := by
  refine ⟨fun depth c hc => ?_, by simp [Layout.indented], by simp [Layout.indented, isSpace]⟩
  simp only [Layout.indented, List.mem_cons, List.mem_replicate] at hc
  rcases hc with rfl | ⟨_, rfl⟩ <;> rfl

/-- A number may be followed by blanks and what ends a part of a list or an object. -/
theorem closes_append {blanks : List Char} (h : ∀ c ∈ blanks, isSpace c = true) {c : Char}
    (hc : c ∈ [',', ']', '\x7d']) (rest : List Char) : Closes (blanks ++ c :: rest) := by
  rcases blanks with _ | ⟨b, blanks⟩
  · intro d hd
    obtain rfl : c = d := by simpa using hd
    exact Or.inr hc
  · intro d hd
    obtain rfl : b = d := by simpa using hd
    exact Or.inl (h b (by simp))

/-! ## Values -/

/-- The values that come back from what is written for them: numbers without a sign, texts of
characters, and objects in which no name stands twice. -/
inductive Plain : Json → Prop
  | bool (b : Bool) : Plain (.bool b)
  | float {x : Number} (h : x.Unsigned) : Plain (.float x)
  | str (cs : List Char) : Plain (.str (.ofChars cs))
  | arr {items : List Json} (h : ∀ item ∈ items, Plain item) : Plain (.arr items)
  | obj {members : List (Text × Json)} (hnames : ∀ m ∈ members, ∃ cs, m.1 = .ofChars cs)
      (hunique : (members.map (·.1)).Nodup) (h : ∀ m ∈ members, Plain m.2) : Plain (.obj members)

/-- None of the common characters but the ten digits is a digit. -/
theorem ne_of_digit {c d : Char} (h : (Text.digit? c).isSome = true)
    (hd : d.toNat < 48 ∨ (57 < d.toNat ∧ d.toNat < 0x80)) : c ≠ d := by
  rintro rfl
  have hcode := digit_code h
  omega

theorem opens_digit {c : Char} (h : (Text.digit? c).isSome = true) (tail : List Char) :
    Opens (c :: tail) := by
  refine ⟨c, tail, rfl, ?_, ?_⟩
  · rw [Bool.eq_false_iff]
    intro hspace
    simp only [isSpace, Bool.or_eq_true, beq_iff_eq] at hspace
    rcases hspace with ((rfl | rfl) | rfl) | rfl <;> exact absurd h (by decide)
  · intro hc
    simp only [List.mem_cons, List.not_mem_nil, or_false] at hc
    rcases hc with rfl | rfl | rfl <;> exact absurd h (by decide)

/-- What is written for a value does not start with a blank. -/
theorem opens_writeAt {json : Json} (h : Plain json) (layout : Layout) (depth : ℕ) :
    Opens (writeAt layout depth json) := by
  cases h with
  | bool b => cases b <;> exact ⟨_, _, rfl, rfl, by decide⟩
  | @float x h =>
    rw [writeAt]
    rcases literal_of_unsigned h .printed with ⟨_, hword⟩ | ⟨s, hspells, _, _⟩
    · rw [hword]
      exact ⟨_, _, rfl, rfl, by decide⟩
    · obtain ⟨c, tail, htext, hdigit⟩ := hspells.head
      rw [htext]
      exact opens_digit hdigit tail
  | str cs => exact ⟨_, _, rfl, rfl, by decide⟩
  | @arr items h =>
    rcases items with _ | ⟨item, items⟩ <;> exact ⟨_, _, rfl, rfl, by decide⟩
  | @obj members _ _ h =>
    rcases members with _ | ⟨⟨name, value⟩, members⟩ <;>
      exact ⟨_, _, rfl, rfl, by decide⟩

/-! ## Reading what is written -/

theorem readValue_bool (b : Bool) (fuel : ℕ) (rest : List Char) :
    readValue (fuel + 1) ((if b then "true" else "false").toList ++ rest) = .ok (bool b, rest) := by
  cases b <;> rfl

theorem readValue_infinity (fuel : ℕ) (rest : List Char) :
    readValue (fuel + 1) ("Infinity".toList ++ rest) = .ok (float .infinity, rest) := rfl

/-- A number is not taken for a word. -/
theorem readWord?_of_digit {c : Char} (h : (Text.digit? c).isSome = true) (cs : List Char) :
    readWord? (c :: cs) = none := by
  have hn : 'n' ≠ c := (ne_of_digit h (by decide)).symm
  have ht : 't' ≠ c := (ne_of_digit h (by decide)).symm
  have hf : 'f' ≠ c := (ne_of_digit h (by decide)).symm
  have hN : 'N' ≠ c := (ne_of_digit h (by decide)).symm
  have hI : 'I' ≠ c := (ne_of_digit h (by decide)).symm
  have hminus : '-' ≠ c := (ne_of_digit h (by decide)).symm
  simp [readWord?, words, List.isPrefixOf, hn, ht, hf, hN, hI, hminus]

theorem readValue_literal {text rest : List Char} {s : Spelled} (hs : Spells text s)
    (hl : IsLiteral text) (hr : Closes rest) (fuel : ℕ) :
    readValue (fuel + 1) (text ++ rest) = .ok (float s.toNumber, rest) := by
  have hnumber := readNumber_literal hs hl hr
  obtain ⟨c, tail, rfl, hdigit⟩ := hs.head
  have hword := readWord?_of_digit hdigit (tail ++ rest)
  have hquote : c ≠ '"' := ne_of_digit hdigit (by decide)
  have hbrace : c ≠ '\x7b' := ne_of_digit hdigit (by decide)
  have hbracket : c ≠ '[' := ne_of_digit hdigit (by decide)
  rw [List.cons_append] at hnumber ⊢
  simp [readValue, hquote, hbrace, hbracket, hword, hnumber]

theorem readValue_str (cs : List Char) (fuel : ℕ) (rest : List Char) :
    readValue (fuel + 1) (writeString (.ofChars cs) ++ rest) = .ok (str (.ofChars cs), rest) := by
  unfold readValue writeString
  simp only [List.cons_append, List.append_assoc, List.nil_append, readString_writeString]
  rfl

section steps

variable {fuel : ℕ} {cs rest rest' : List Char} {item : Json} {m : Text × Json}

/-- After a bracket the list is complete. -/
theorem readItems_last (h : readValue fuel cs = .ok (item, rest))
    (hs : skipSpace rest = ']' :: rest') (done : List Json) :
    readItems (fuel + 1) done cs = .ok (arr (item :: done).reverse, rest') := by
  simp only [readItems, h, bind, Except.bind, hs]
  rfl

/-- After a comma another item is due. -/
theorem readItems_next (h : readValue fuel cs = .ok (item, rest))
    (hs : skipSpace rest = ',' :: rest') (done : List Json) :
    readItems (fuel + 1) done cs = readItems fuel (item :: done) (skipSpace rest') := by
  simp only [readItems, h, bind, Except.bind, hs]

/-- A name, a colon and a value are read from the start of a text. -/
def ReadsMember (fuel : ℕ) (cs : List Char) (m : Text × Json) (rest : List Char) : Prop :=
  ∃ tail afterName afterColon, cs = '"' :: tail ∧
    readString cs.length tail = .ok (m.1, afterName) ∧ skipSpace afterName = ':' :: afterColon ∧
    readValue fuel (skipSpace afterColon) = .ok (m.2, rest)

theorem readMembers_last (h : ReadsMember fuel cs m rest)
    (hs : skipSpace rest = '\x7d' :: rest') (done : List (Text × Json)) :
    readMembers (fuel + 1) done cs = .ok (obj (setMember m.1 m.2 done), rest') := by
  obtain ⟨tail, afterName, afterColon, rfl, hname, hcolon, hvalue⟩ := h
  simp only [readMembers, hname, hcolon, hvalue, bind, Except.bind, hs]
  rfl

theorem readMembers_next (h : ReadsMember fuel cs m rest)
    (hs : skipSpace rest = ',' :: rest') (done : List (Text × Json)) :
    readMembers (fuel + 1) done cs =
      readMembers fuel (setMember m.1 m.2 done) (skipSpace rest') := by
  obtain ⟨tail, afterName, afterColon, rfl, hname, hcolon, hvalue⟩ := h
  simp only [readMembers, hname, hcolon, hvalue, bind, Except.bind, hs]

end steps

section parts

variable {layout : Layout} {depth : ℕ}

/-- The value comes back, whatever may follow it, when twice its length is left to read with. -/
def Returns (layout : Layout) (depth : ℕ) (json : Json) : Prop :=
  ∀ fuel rest, Closes rest → 2 * (writeAt layout depth json).length ≤ fuel →
    readValue fuel (writeAt layout depth json ++ rest) = .ok (json, rest)

theorem writeItems_cons (item : Json) (items : List Json) (rest : List Char) :
    writeItems layout depth (item :: items) ++ rest =
      ',' :: ((layout.afterComma ++ layout.lineBreak depth) ++
        (writeAt layout depth item ++ (writeItems layout depth items ++ rest))) := by
  simp [writeItems]

theorem Layout.Blank.separator (hl : layout.Blank) (depth : ℕ) :
    ∀ c ∈ layout.afterComma ++ layout.lineBreak depth, isSpace c = true := fun c hc =>
  (List.mem_append.1 hc).elim (hl.afterComma c) (hl.lineBreak depth c)

/-- What follows an item: the other items, or the closing bracket. -/
theorem closes_items (hl : layout.Blank) (depth outer : ℕ) (items : List Json) (rest : List Char) :
    Closes (writeItems layout depth items ++ (layout.lineBreak outer ++ ']' :: rest)) := by
  rcases items with _ | ⟨item, items⟩
  · exact closes_append (hl.lineBreak outer) (by simp) rest
  · rw [writeItems_cons]
    exact closes_append (List.forall_mem_nil _) (by simp) _

/-- Twice the number of characters is fuel enough: what an item leaves of it suffices for the
others. -/
theorem readItems_writeItems (hl : layout.Blank) {items : List Json} {item : Json}
    (hreturns : ∀ i ∈ item :: items, Returns layout depth i)
    (hopens : ∀ i ∈ items, Opens (writeAt layout depth i)) (done : List Json) (outer : ℕ)
    {fuel : ℕ} (rest : List Char)
    (hfuel : 2 * ((writeAt layout depth item).length + (writeItems layout depth items).length) <
      fuel) :
    readItems fuel done (writeAt layout depth item ++
        (writeItems layout depth items ++ (layout.lineBreak outer ++ ']' :: rest))) =
      .ok (arr (done.reverse ++ item :: items), rest) := by
  induction items generalizing item done fuel with
  | nil =>
    obtain ⟨fuel, rfl⟩ : ∃ n, fuel = n + 1 := ⟨fuel - 1, by omega⟩
    have hitem := hreturns item (by simp) fuel _ (closes_items hl depth outer [] rest) (by omega)
    rw [readItems_last hitem (skipSpace_append (hl.lineBreak outer) rfl rest), List.reverse_cons]
  | cons next items ih =>
    obtain ⟨fuel, rfl⟩ : ∃ n, fuel = n + 1 := ⟨fuel - 1, by omega⟩
    have hitem := hreturns item (by simp) fuel _ (closes_items hl depth outer (next :: items) rest)
      (by omega)
    have hshorter : 2 * ((writeAt layout depth next).length +
        (writeItems layout depth items).length) < fuel := by
      simp only [writeItems, List.length_cons, List.length_append] at hfuel
      omega
    rw [writeItems_cons] at hitem ⊢
    rw [readItems_next hitem rfl, (hopens next (by simp)).skipSpace_append (hl.separator depth),
      ih (fun i hi => hreturns i (List.mem_cons_of_mem item hi))
        (fun i hi => hopens i (List.mem_cons_of_mem next hi)) _ hshorter]
    simp

/-- A member: its name, a colon and its value. -/
def writeMember (layout : Layout) (depth : ℕ) (m : Text × Json) : List Char :=
  writeString m.1 ++ ':' :: (layout.afterColon ++ writeAt layout depth m.2)

theorem writeMembers_cons (layout : Layout) (depth : ℕ) (m : Text × Json)
    (members : List (Text × Json)) (rest : List Char) :
    writeMembers layout depth (m :: members) ++ rest =
      ',' :: ((layout.afterComma ++ layout.lineBreak depth) ++
        (writeMember layout depth m ++ (writeMembers layout depth members ++ rest))) := by
  simp [writeMembers, writeMember]

theorem closes_members (hl : layout.Blank) (depth outer : ℕ) (members : List (Text × Json))
    (rest : List Char) :
    Closes (writeMembers layout depth members ++ (layout.lineBreak outer ++ '\x7d' :: rest)) := by
  rcases members with _ | ⟨m, members⟩
  · exact closes_append (hl.lineBreak outer) (by simp) rest
  · rw [writeMembers_cons]
    exact closes_append (List.forall_mem_nil _) (by simp) _

theorem opens_writeMember (m : Text × Json) : Opens (writeMember layout depth m) :=
  ⟨_, _, rfl, rfl, by decide⟩

/-- A new name is set after the others. -/
theorem setMember_of_not_mem {name : Text} {done : List (Text × Json)}
    (h : name ∉ done.map (·.1)) (value : Json) :
    setMember name value done = done ++ [(name, value)] := by
  induction done with
  | nil => rfl
  | cons m done ih =>
    simp only [List.map_cons, List.mem_cons, not_or] at h
    rw [setMember, if_neg (Ne.symm h.1), ih h.2]
    rfl

theorem not_mem_of_nodup {done members : List (Text × Json)} {m : Text × Json}
    (h : ((done ++ m :: members).map (·.1)).Nodup) : m.1 ∉ done.map (·.1) := by
  rw [List.map_append, List.nodup_append] at h
  exact fun hmem => h.2.2 _ hmem _ (by simp) rfl

/-- A member is read from the way it is written, and what follows it is left. -/
theorem readsMember_writeMember (hl : layout.Blank) {m : Text × Json}
    (hname : ∃ cs, m.1 = .ofChars cs) (hv : Returns layout depth m.2)
    (ho : Opens (writeAt layout depth m.2)) {fuel : ℕ}
    (hfuel : 2 * (writeMember layout depth m).length ≤ fuel) {rest : List Char}
    (hr : Closes rest) : ReadsMember fuel (writeMember layout depth m ++ rest) m rest := by
  obtain ⟨name, value⟩ := m
  obtain ⟨cs, hcs⟩ := hname
  simp only at hcs hv ho
  subst hcs
  have htext : writeMember layout depth (.ofChars cs, value) ++ rest =
      '"' :: ((Text.ofChars cs).flatMap writeCodePoint ++
        '"' :: ':' :: (layout.afterColon ++ (writeAt layout depth value ++ rest))) := by
    simp [writeMember, writeString]
  have hlength : 2 * (writeAt layout depth value).length ≤ fuel := by
    simp only [writeMember, List.length_append, List.length_cons] at hfuel
    omega
  refine ⟨_, _, _, htext, readString_writeString cs _, rfl, ?_⟩
  rw [ho.skipSpace_append hl.afterColon rest]
  exact hv fuel rest hr hlength

/-- Names are not repeated, so each member is put behind those read before. -/
theorem readMembers_writeMembers (hl : layout.Blank) {members : List (Text × Json)}
    {m : Text × Json} (hnames : ∀ i ∈ m :: members, ∃ cs, i.1 = .ofChars cs)
    (hreturns : ∀ i ∈ m :: members, Returns layout depth i.2)
    (hopens : ∀ i ∈ m :: members, Opens (writeAt layout depth i.2)) (outer : ℕ)
    {done : List (Text × Json)} (hunique : ((done ++ m :: members).map (·.1)).Nodup)
    {fuel : ℕ} (rest : List Char)
    (hfuel : 2 * ((writeMember layout depth m).length + (writeMembers layout depth members).length)
      < fuel) :
    readMembers fuel done (writeMember layout depth m ++
        (writeMembers layout depth members ++ (layout.lineBreak outer ++ '\x7d' :: rest))) =
      .ok (obj (done ++ m :: members), rest) := by
  induction members generalizing m done fuel with
  | nil =>
    obtain ⟨fuel, rfl⟩ : ∃ n, fuel = n + 1 := ⟨fuel - 1, by omega⟩
    have hmember := readsMember_writeMember hl (hnames m (by simp)) (hreturns m (by simp))
      (hopens m (by simp)) (show _ ≤ fuel by omega) (closes_members hl depth outer [] rest)
    rw [readMembers_last hmember (skipSpace_append (hl.lineBreak outer) rfl rest),
      setMember_of_not_mem (not_mem_of_nodup hunique)]
  | cons next members ih =>
    obtain ⟨fuel, rfl⟩ : ∃ n, fuel = n + 1 := ⟨fuel - 1, by omega⟩
    have hmember := readsMember_writeMember hl (hnames m (by simp)) (hreturns m (by simp))
      (hopens m (by simp)) (show _ ≤ fuel by omega)
      (closes_members hl depth outer (next :: members) rest)
    have hshorter : 2 * ((writeMember layout depth next).length +
        (writeMembers layout depth members).length) < fuel := by
      have hlength := congrArg List.length (writeMembers_cons layout depth next members [])
      simp only [List.length_cons, List.length_append, List.append_nil] at hlength
      omega
    rw [writeMembers_cons] at hmember ⊢
    rw [readMembers_next hmember rfl, setMember_of_not_mem (not_mem_of_nodup hunique),
      (opens_writeMember next).skipSpace_append (hl.separator depth),
      ih (fun i hi => hnames i (List.mem_cons_of_mem m hi))
        (fun i hi => hreturns i (List.mem_cons_of_mem m hi))
        (fun i hi => hopens i (List.mem_cons_of_mem m hi)) (by simpa using hunique) hshorter]
    simp

/-! ## Whole values -/

theorem readValue_items {cs blanks : List Char} (ho : Opens cs)
    (hb : ∀ c ∈ blanks, isSpace c = true) (fuel : ℕ) (rest : List Char) :
    readValue (fuel + 1) ('[' :: (blanks ++ (cs ++ rest))) = readItems fuel [] (cs ++ rest) := by
  have hskip := ho.skipSpace_append hb rest
  obtain ⟨c, tail, rfl, _, hc⟩ := ho
  have hbracket : c ≠ ']' := fun h => hc (by simp [h])
  rw [List.cons_append] at hskip ⊢
  simp [readValue, hskip, hbracket]

theorem readValue_members {cs blanks : List Char} (ho : Opens cs)
    (hb : ∀ c ∈ blanks, isSpace c = true) (fuel : ℕ) (rest : List Char) :
    readValue (fuel + 1) ('\x7b' :: (blanks ++ (cs ++ rest))) =
      readMembers fuel [] (cs ++ rest) := by
  have hskip := ho.skipSpace_append hb rest
  obtain ⟨c, tail, rfl, _, hc⟩ := ho
  have hbrace : c ≠ '\x7d' := fun h => hc (by simp [h])
  rw [List.cons_append] at hskip ⊢
  simp [readValue, hskip, hbrace]

/-- Something is written for every value, so that reading it starts with something left. -/
theorem returns_of_succ {json : Json} (hp : Plain json)
    (h : ∀ fuel rest, Closes rest → 2 * (writeAt layout depth json).length ≤ fuel + 1 →
      readValue (fuel + 1) (writeAt layout depth json ++ rest) = .ok (json, rest)) :
    Returns layout depth json := by
  intro fuel rest hr hfuel
  obtain ⟨c, tail, htext, _⟩ := opens_writeAt hp layout depth
  obtain ⟨n, rfl⟩ : ∃ n, fuel = n + 1 := by
    rw [htext, List.length_cons] at hfuel
    exact ⟨fuel - 1, by omega⟩
  exact h n rest hr hfuel

/-- A number without a sign is read as it was, infinity among them. -/
theorem returns_float {x : Number} (h : x.Unsigned) : Returns layout depth (.float x) := by
  refine returns_of_succ (.float h) fun fuel rest hr _ => ?_
  rw [writeAt]
  rcases literal_of_unsigned h .printed with ⟨rfl, hword⟩ | ⟨s, hspells, hliteral, hs⟩
  · rw [hword]
    exact readValue_infinity fuel rest
  · rw [readValue_literal hspells hliteral hr, hs]

theorem returns_arr (hl : layout.Blank) {items : List Json} (hp : ∀ i ∈ items, Plain i)
    (hreturns : ∀ i ∈ items, Returns layout (depth + 1) i) : Returns layout depth (.arr items) := by
  refine returns_of_succ (.arr hp) fun fuel rest _ hfuel => ?_
  rcases items with _ | ⟨item, items⟩
  · rfl
  · have hopens : ∀ i ∈ item :: items, Opens (writeAt layout (depth + 1) i) := fun i hi =>
      opens_writeAt (hp i hi) layout (depth + 1)
    have htext : writeAt layout depth (.arr (item :: items)) ++ rest =
        '[' :: (layout.lineBreak (depth + 1) ++ (writeAt layout (depth + 1) item ++
          (writeItems layout (depth + 1) items ++ (layout.lineBreak depth ++ ']' :: rest)))) := by
      simp [writeAt]
    have hlength : 2 * ((writeAt layout (depth + 1) item).length +
        (writeItems layout (depth + 1) items).length) < fuel := by
      simp only [writeAt, List.length_cons, List.length_append] at hfuel
      omega
    rw [htext, readValue_items (hopens item (by simp)) (hl.lineBreak (depth + 1)),
      readItems_writeItems hl hreturns (fun i hi => hopens i (List.mem_cons_of_mem item hi)) []
        depth rest hlength]
    rfl

theorem returns_obj (hl : layout.Blank) {members : List (Text × Json)}
    (hnames : ∀ m ∈ members, ∃ cs, m.1 = .ofChars cs) (hunique : (members.map (·.1)).Nodup)
    (hp : ∀ m ∈ members, Plain m.2) (hreturns : ∀ m ∈ members, Returns layout (depth + 1) m.2) :
    Returns layout depth (.obj members) := by
  refine returns_of_succ (.obj hnames hunique hp) fun fuel rest _ hfuel => ?_
  rcases members with _ | ⟨m, members⟩
  · rfl
  · have htext : writeAt layout depth (.obj (m :: members)) ++ rest =
        '\x7b' :: (layout.lineBreak (depth + 1) ++ (writeMember layout (depth + 1) m ++
          (writeMembers layout (depth + 1) members ++
            (layout.lineBreak depth ++ '\x7d' :: rest)))) := by
      simp [writeAt, writeMember]
    have hlength : 2 * ((writeMember layout (depth + 1) m).length +
        (writeMembers layout (depth + 1) members).length) < fuel := by
      simp only [writeAt, writeMember, List.length_cons, List.length_append] at hfuel ⊢
      omega
    rw [htext, readValue_members (opens_writeMember m) (hl.lineBreak (depth + 1)),
      readMembers_writeMembers hl hnames hreturns
        (fun m hm => opens_writeAt (hp m hm) layout (depth + 1)) depth (by simpa using hunique)
        rest hlength]
    rfl

/-- Reading undoes writing, at any depth of a document. -/
theorem returns_of_plain (hl : layout.Blank) {json : Json} (h : Plain json) (depth : ℕ) :
    Returns layout depth json := by
  induction h generalizing depth with
  | bool b => exact returns_of_succ (.bool b) fun fuel rest _ _ => readValue_bool b fuel rest
  | float h => exact returns_float h
  | str cs => exact returns_of_succ (.str cs) fun fuel rest _ _ => readValue_str cs fuel rest
  | arr hp ih => exact returns_arr hl hp fun i hi => ih i hi (depth + 1)
  | obj hnames hunique hp ih =>
    exact returns_obj hl hnames hunique hp fun m hm => ih m hm (depth + 1)

/-- A document is read back from its text. -/
theorem read_writeAt (hl : layout.Blank) {json : Json} (h : Plain json) :
    read (writeAt layout 0 json) = .ok json := by
  have hvalue := returns_of_plain hl h 0 (2 * (writeAt layout 0 json).length + 2) []
    (by simp [Closes]) (by omega)
  have ho := opens_writeAt h layout 0
  have hskip := ho.skipSpace_append (List.forall_mem_nil _) []
  rw [List.append_nil] at hvalue hskip
  obtain ⟨c, tail, htext, _, hc⟩ := ho
  have hmark : (writeAt layout 0 json).head? ≠ some '\ufeff' := by
    rw [htext]
    exact fun h => hc (by simp at h; simp [h])
  unfold read
  rw [if_neg hmark, show skipSpace (writeAt layout 0 json) = writeAt layout 0 json from hskip,
    hvalue]
  rfl

end parts

/-! ## Line ends

A carriage return of a text is escaped, and no other part of a document has one. -/

theorem return_not_mem_hexDigits (width n : ℕ) : '\r' ∉ Text.hexDigits width n := by
  have hchar : ∀ d < 16, '\r' ≠ Text.hexChar d := by decide
  induction width generalizing n with
  | zero => simp [Text.hexDigits]
  | succ width ih => simp [Text.hexDigits, ih, hchar _ (Nat.mod_lt n (by decide : 0 < 16))]

/-- A carriage return in a name is escaped. -/
theorem return_not_mem_writeChar (c : Char) : '\r' ∉ writeChar c := by
  unfold writeChar
  by_cases hc : c = '\r'
  · subst hc
    decide
  · have hhex := return_not_mem_hexDigits 4 c.toNat
    split_ifs <;> simp [hhex, Ne.symm hc]

theorem return_not_mem_writeString (cs : List Char) : '\r' ∉ writeString (.ofChars cs) := by
  simp [writeString, Text.ofChars, List.mem_flatMap, writeCodePoint, return_not_mem_writeChar]

theorem return_not_mem_literal {x : Number} (h : x.Unsigned) :
    '\r' ∉ (x.literal .printed).toList := by
  rcases literal_of_unsigned h .printed with ⟨_, hword⟩ | ⟨s, hspells, _, _⟩
  · rw [hword]
    decide
  · intro hmem
    rcases digit_or_mark_of_spells hspells _ hmem with hdigit | hmark
    · exact absurd hdigit (by decide)
    · exact absurd hmark (by decide)

section returns

variable {depth : ℕ}

theorem return_not_mem_indented (depth : ℕ) : '\r' ∉ Layout.indented.lineBreak depth ∧
    '\r' ∉ Layout.indented.afterComma ∧ '\r' ∉ Layout.indented.afterColon := by
  simp [Layout.indented]

theorem return_not_mem_writeItems {items : List Json}
    (h : ∀ i ∈ items, '\r' ∉ writeAt .indented depth i) :
    '\r' ∉ writeItems .indented depth items := by
  induction items with
  | nil => simp [writeItems]
  | cons item items ih =>
    have hrest := ih fun i hi => h i (List.mem_cons_of_mem item hi)
    simp [writeItems, return_not_mem_indented depth, h item, hrest]

theorem return_not_mem_writeMember {m : Text × Json} (hname : ∃ cs, m.1 = .ofChars cs)
    (h : '\r' ∉ writeAt .indented depth m.2) : '\r' ∉ writeMember .indented depth m := by
  obtain ⟨cs, hcs⟩ := hname
  have hname := return_not_mem_writeString cs
  rw [← hcs] at hname
  simp [writeMember, (return_not_mem_indented depth).2, hname, h]

theorem return_not_mem_writeMembers {members : List (Text × Json)}
    (h : ∀ m ∈ members, '\r' ∉ writeMember .indented depth m) :
    '\r' ∉ writeMembers .indented depth members := by
  induction members with
  | nil => simp [writeMembers]
  | cons m members ih =>
    have hrest := ih fun i hi => h i (List.mem_cons_of_mem m hi)
    have hmembers := writeMembers_cons .indented depth m members []
    rw [List.append_nil, List.append_nil] at hmembers
    rw [hmembers]
    simp [return_not_mem_indented depth, h m, hrest]

/-- No line end is unified in what is written. -/
theorem return_not_mem_writeAt {json : Json} (h : Plain json) (depth : ℕ) :
    '\r' ∉ writeAt .indented depth json := by
  induction h generalizing depth with
  | bool b => cases b <;> simp [writeAt]
  | float h =>
    rw [writeAt]
    exact return_not_mem_literal h
  | str cs =>
    rw [writeAt]
    exact return_not_mem_writeString cs
  | @arr items hp ih =>
    rcases items with _ | ⟨item, items⟩
    · simp [writeAt]
    · have hitem := ih item List.mem_cons_self (depth + 1)
      have hrest := return_not_mem_writeItems fun i hi =>
        ih i (List.mem_cons_of_mem item hi) (depth + 1)
      simp [writeAt, return_not_mem_indented, hitem, hrest]
  | @obj members hnames hunique hp ih =>
    rcases members with _ | ⟨m, members⟩
    · simp [writeAt]
    · have hmembers : ∀ i ∈ m :: members, '\r' ∉ writeMember .indented (depth + 1) i :=
        fun i hi => return_not_mem_writeMember (hnames i hi) (ih i hi (depth + 1))
      have hrest := return_not_mem_writeMembers fun i hi =>
        hmembers i (List.mem_cons_of_mem m hi)
      have hmember := hmembers m List.mem_cons_self
      rw [writeMember] at hmember
      simp only [writeAt, List.mem_cons, List.mem_append, not_or] at hmember ⊢
      simp [return_not_mem_indented, hmember, hrest]

end returns

end BellaLang.Json
