-- Which notes a trace can hold. Only half of a pair in a name keeps a line out
-- of a stored trace: plain values and the wording of notes have no halves.
import BellaLang.Execute
import BellaLang.Proofs.Kinds
import BellaLang.Proofs.Looking

namespace BellaLang

/-! ## Texts without halves -/

/-- The text has no half of a pair. -/
def Text.Whole (x : Text) : Prop := ∀ p ∈ x, p.isHalf = false

namespace Text

/-- A text without halves is not refused by the file of a trace. -/
theorem halves?_eq_none {x : Text} (h : x.Whole) : x.halves? = none := by
  have hdrop : x.dropWhile (!·.isHalf) = [] := by
    induction x with
    | nil => rfl
    | cons p x ih =>
      rw [List.dropWhile_cons_of_pos (by simp [h p])]
      exact ih fun q hq => h q (by simp [hq])
  simp [halves?, hdrop]

theorem whole_ofChars (cs : List Char) : Whole (ofChars cs) := by
  intro p hp
  obtain ⟨c, _, rfl⟩ := List.mem_map.1 hp
  rfl

theorem whole_ofString (s : String) : Whole (ofString s) := whole_ofChars s.toList

theorem whole_append {x y : Text} (hx : x.Whole) (hy : y.Whole) : Whole (x ++ y) := by
  intro p hp
  rcases List.mem_append.1 hp with hp | hp
  · exact hx p hp
  · exact hy p hp

theorem whole_join {separator : Text} {texts : List Text} (hs : separator.Whole)
    (h : ∀ x ∈ texts, Whole x) : Whole (join separator texts) := by
  induction texts with
  | nil =>
    intro p hp
    simp [join, List.intercalate] at hp
  | cons x texts ih =>
    rcases texts with _ | ⟨y, texts⟩
    · intro p hp
      simp only [join, List.intercalate, List.intersperse_singleton, List.flatten_cons,
        List.flatten_nil, List.append_nil] at hp
      exact h x (by simp) p hp
    · have hstep : join separator (x :: y :: texts) =
          x ++ separator ++ join separator (y :: texts) := by
        simp [join, List.intercalate]
      rw [hstep]
      exact whole_append (whole_append (h x (by simp)) hs) (ih fun z hz => h z (by simp [hz]))

end Text

open Text

theorem mem_texts {x : Text} {values : List Value} :
    x ∈ Value.texts values ↔ ∃ v ∈ values, v.text = x := by
  induction values with
  | nil => simp [Value.texts]
  | cons v values ih => simp [Value.texts, ih, eq_comm]

/-- What a plain value is shown as is made of digits, words, signs and brackets. -/
theorem whole_text {v : Value} (h : v.Plain) : v.text.Whole := by
  induction h with
  | number x =>
    rw [Value.text]
    exact whole_ofString _
  | boolean b =>
    rw [Value.text]
    split <;> exact whole_ofString _
  | array _ ih =>
    rw [Value.text]
    refine whole_append (whole_append (whole_ofString _) (whole_join (whole_ofString _) ?_))
      (whole_ofString _)
    intro x hx
    obtain ⟨v, hv, rfl⟩ := mem_texts.1 hx
    exact ih v hv

/-! ## Notes that are never refused -/

/-- A note is let through if the trace passes it over, or if its line is whole. -/
theorem answer_note {t : Tracing} {n : Note} (s : Store)
    (h : n.level ≤ t.level → t.stored = true → n.text.Whole) :
    (Action.note t n).answer s = .ok () := by
  unfold Action.note
  split
  · rename_i htakes
    have hkept : t.refusal? n = none := by
      unfold Tracing.refusal?
      split
      · rename_i hstored
        rw [Text.halves?_eq_none (h (of_decide_eq_true htakes) hstored)]
        rfl
      · rfl
    rw [hkept]
    rfl
  · rfl

/-- The trace can hold a name: it shows no names, or is not stored, or the name is whole. -/
def Tracing.Writes (t : Tracing) (name : Text) : Prop :=
  2 ≤ t.level → t.stored = true → name.Whole

section notes

variable {t : Tracing} {x : Text} {v : Value} (s : Store)

theorem answer_note_runStart : (Action.note t .runStart).answer s = .ok () :=
  answer_note s fun _ _ => whole_ofString _

theorem answer_note_runFinished : (Action.note t .runFinished).answer s = .ok () :=
  answer_note s fun _ _ => whole_ofString _

theorem answer_note_conditionalTest (holds : Bool) :
    (Action.note t (.conditionalTest holds)).answer s = .ok () :=
  answer_note s fun _ _ => whole_append (whole_ofString _) (whole_text (.boolean holds))

theorem answer_note_loopTest (holds : Bool) :
    (Action.note t (.loopTest holds)).answer s = .ok () :=
  answer_note s fun _ _ => whole_append (whole_ofString _) (whole_text (.boolean holds))

/-- A line of wording, a name, more wording and a last part. -/
theorem whole_line {before between last : Text} (hb : before.Whole) (hx : x.Whole)
    (hm : between.Whole) (hl : last.Whole) : Whole (before ++ x ++ between ++ last) :=
  whole_append (whole_append (whole_append hb hx) hm) hl

/-- Of the parts of the line, the name is the only one that may have halves. -/
theorem answer_note_declared (hx : t.Writes x) (hv : v.Plain) :
    (Action.note t (.declared (.str x) v)).answer s = .ok () := by
  apply answer_note
  intro hl hs
  have hstart : Whole ("declare " ++ x ++ ": " ++ v.kind) :=
    whole_line (whole_ofString _) (hx hl hs) (whole_ofString _) (whole_ofString _)
  exact whole_append (whole_append hstart (whole_ofString _)) (whole_text hv)

theorem answer_note_assigned (hx : t.Writes x) (hv : v.Plain) :
    (Action.note t (.assigned (.str x) v)).answer s = .ok () := by
  apply answer_note
  intro hl hs
  exact whole_line (whole_ofString _) (hx hl hs) (whole_ofString _) (whole_text hv)

/-- Calls are noted from the third level on, so a trace that can hold the name at the second level
can hold it here. -/
theorem answer_note_called (hx : t.Writes x) {args : List Value} (ha : ∀ v ∈ args, v.Plain) :
    (Action.note t (.called (.str x) args)).answer s = .ok () := by
  apply answer_note
  intro hl hs
  have hargs : Whole (join ", " (Value.texts args)) := by
    apply whole_join (whole_ofString _)
    intro y hy
    obtain ⟨v, hv, rfl⟩ := mem_texts.1 hy
    exact whole_text (ha v hv)
  have hname := hx (Nat.le_of_succ_le hl) hs
  exact whole_append (whole_line (whole_ofString _) hname (whole_ofString _) hargs)
    (whole_ofString _)

theorem answer_note_returned (hx : t.Writes x) (hv : v.Plain) :
    (Action.note t (.returned (.str x) v)).answer s = .ok () := by
  apply answer_note
  intro hl hs
  have hname := hx (Nat.le_of_succ_le hl) hs
  exact whole_line (whole_ofString _) hname (whole_ofString _) (whole_text hv)

/-- Parameters that are texts can be joined. -/
theorem writtenParams_str (index : Nat) (ps : List Text) :
    writtenParams index (ps.map .str) = .ok ps := by
  induction ps generalizing index with
  | nil => rfl
  | cons p ps ih =>
    rw [List.map_cons, writtenParams, ih]
    rfl

/-- The parameters are on the line as well, so the trace has to hold them too. -/
theorem answer_noteDefined (hx : t.Writes x) {ps : List Text} (hp : ∀ p ∈ ps, t.Writes p) :
    (noteDefined t (.str x) (ps.map .str)).answer s = .ok () := by
  unfold noteDefined
  split
  · rw [writtenParams_str]
    apply answer_note
    intro hl hs
    have hps : Whole (join ", " ps) := whole_join (whole_ofString _) fun p hmem => hp p hmem hl hs
    exact whole_append (whole_line (whole_ofString _) (hx hl hs) (whole_ofString _) hps)
      (whole_ofString _)
  · rfl

theorem looks_noteDefined (t : Tracing) (name : Json) (params : List Json) :
    Action.Looks (noteDefined t name params) := by
  unfold noteDefined
  split
  · split
    · exact Action.looks_note _ _
    · exact Action.looks_stop _
  · exact Action.looks_pure ()

end notes

end BellaLang
