-- Paths and what a disk holds once a file is written. A file that is written
-- beside another one can be found, and no directory comes or goes with it.
import Mathlib.Data.List.Infix
import BellaLang.Command.Path

namespace BellaLang.Command

/-! ## Paths -/

namespace Path

theorem pieces_of_not_mem {text : Text} (h : .char '/' ∉ text) : pieces text = [text] := by
  induction text with
  | nil => rfl
  | cons p text ih =>
    simp only [List.mem_cons, not_or] at h
    rw [pieces, if_neg (Ne.symm h.1), ih h.2]

/-- A text without slashes goes to the end of the last piece. -/
theorem pieces_append {suffix : Text} (h : .char '/' ∉ suffix) (text : Text) :
    ∃ before last, pieces text = before ++ [last] ∧
      pieces (text ++ suffix) = before ++ [last ++ suffix] := by
  induction text with
  | nil => exact ⟨[], [], rfl, pieces_of_not_mem h⟩
  | cons p text ih =>
    obtain ⟨before, last, htext, hsuffix⟩ := ih
    rw [List.cons_append, pieces, pieces, htext, hsuffix]
    by_cases hslash : p = .char '/'
    · exact ⟨[] :: before, last, by simp [hslash], by simp [hslash]⟩
    · rcases before with _ | ⟨first, before⟩
      · exact ⟨[], p :: last, by simp [hslash], by simp [hslash]⟩
      · exact ⟨(p :: first) :: before, last, by simp [hslash], by simp [hslash]⟩

theorem rootOf_append {suffix : Text} (h : .char '/' ∉ suffix) (text : Text) :
    rootOf (text ++ suffix) = rootOf text := by
  have hsuffix : suffix.takeWhile (· = .char '/') = [] := by
    rcases suffix with _ | ⟨p, suffix⟩
    · rfl
    · simp only [List.mem_cons, not_or] at h
      exact List.takeWhile_cons_of_neg (by simpa using Ne.symm h.1)
  have htake : (text ++ suffix).takeWhile (· = .char '/') = text.takeWhile (· = .char '/') := by
    rw [List.takeWhile_append, hsuffix]
    split
    · rename_i hall
      rw [List.append_nil]
      exact (List.takeWhile_sublist _).eq_of_length hall |>.symm
    · rfl
  rw [rootOf, rootOf, htake]

/-- A text names a file when its last part does: one that ends with a slash or with a single
point names a directory. -/
def NamesFile (text : Text) : Prop :=
  ∀ last ∈ (pieces text).getLast?, last ≠ [] ∧ last ≠ "."

instance (text : Text) : Decidable (NamesFile text) :=
  inferInstanceAs (Decidable (∀ last ∈ (pieces text).getLast?, last ≠ [] ∧ last ≠ "."))

/-- What is added to the text of a path is added to the last part of the path. -/
theorem ofText_append {text : Text} (hname : NamesFile text) (suffix : String)
    (h : .char '/' ∉ Text.ofString suffix) (hlong : 1 < suffix.toList.length) :
    ofText (text ++ suffix) = (ofText text).extend suffix := by
  obtain ⟨before, last, htext, hsuffix⟩ := pieces_append h text
  have hlast : last ≠ [] ∧ last ≠ "." := hname last (by simp [htext])
  have hlength : 1 < (last ++ Text.ofString suffix).length := by
    simp only [List.length_append, Text.ofString, Text.ofChars, List.length_map]
    omega
  have hlonger : last ++ Text.ofString suffix ≠ [] ∧ last ++ Text.ofString suffix ≠ "." := by
    constructor <;> intro heq <;> rw [heq] at hlength <;> exact absurd hlength (by decide)
  unfold ofText extend
  rw [rootOf_append h, htext, hsuffix, List.filter_append, List.filter_append]
  simp [hlast, hlonger]

end Path

/-! ## Directories -/

namespace Files

variable {files files' : Files}

theorem isDirectory_iff {parts : List Text} :
    files.isDirectory parts = true ↔ parts = [] ∨ ∃ f ∈ files, parts <+: f.1 ∧ f.1 ≠ parts := by
  simp [isDirectory]

/-- What leads to a directory is a directory. -/
theorem isDirectory_of_append {parts others : List Text}
    (h : files.isDirectory (parts ++ others) = true) : files.isDirectory parts = true := by
  rw [isDirectory_iff] at h ⊢
  rcases h with hnil | ⟨f, hf, hpre, hne⟩
  · exact Or.inl (List.append_eq_nil_iff.1 hnil).1
  · refine Or.inr ⟨f, hf, (List.prefix_append parts others).trans hpre, ?_⟩
    rintro rfl
    exact hne (hpre.eq_of_length_le (by simp)).symm

theorem resolve_append (here parts others : List Text) :
    files.resolve here (parts ++ others) =
      (files.resolve here parts).bind fun place => files.resolve place others := by
  induction parts generalizing here with
  | nil => rfl
  | cons part parts ih =>
    simp only [List.cons_append, resolve]
    split_ifs
    · rfl
    · rfl
    · exact ih here.dropLast
    · exact ih (here ++ [part])

/-- Where some parts lead depends only on what is a directory. -/
theorem resolve_congr (h : ∀ parts, files'.isDirectory parts = files.isDirectory parts)
    (here parts : List Text) : files'.resolve here parts = files.resolve here parts := by
  induction parts generalizing here with
  | nil => rfl
  | cons part parts ih => simp only [resolve, h, ih]

/-! ## Writing -/

section writing

variable {directory place : List Text} {name : Text}

/-- The files with the one at a place set. -/
def set (files : Files) (place : List Text) (bytes : List Nat) : Files :=
  files.filter (·.1 ≠ place) ++ [(place, bytes)]

theorem mem_set {bytes : List Nat} {f : List Text × List Nat} :
    f ∈ files.set place bytes ↔ (f ∈ files ∧ f.1 ≠ place) ∨ f = (place, bytes) := by
  simp [set]

/-- A file in a directory makes no other directory. -/
theorem isDirectory_set (hd : files.isDirectory directory = true)
    (hplace : place = directory ++ [name]) (bytes : List Nat) (parts : List Text) :
    (files.set place bytes).isDirectory parts = files.isDirectory parts := by
  rw [Bool.eq_iff_iff, isDirectory_iff]
  constructor
  · rintro (hnil | ⟨f, hf, hpre, hne⟩)
    · exact isDirectory_iff.2 (Or.inl hnil)
    · rcases mem_set.1 hf with ⟨hf, _⟩ | rfl
      · exact isDirectory_iff.2 (Or.inr ⟨f, hf, hpre, hne⟩)
      · -- What leads to the new file leads to its directory.
        simp only [hplace] at hpre hne
        rcases List.prefix_concat_iff.1 hpre with heq | hpre
        · exact absurd heq.symm hne
        · obtain ⟨others, rfl⟩ := hpre
          exact isDirectory_of_append hd
  · intro h
    rcases isDirectory_iff.1 h with hnil | ⟨f, hf, hpre, hne⟩
    · exact Or.inl hnil
    · by_cases hf' : f.1 = place
      · exact Or.inr ⟨(place, bytes), mem_set.2 (Or.inr rfl), hf' ▸ hpre, hf' ▸ hne⟩
      · exact Or.inr ⟨f, mem_set.2 (Or.inl ⟨hf, hf'⟩), hpre, hne⟩

theorem entry_set {bytes : List Nat} (hfile : (files.set place bytes).isDirectory place = false) :
    (files.set place bytes).entry place = some (.file bytes) := by
  have hfind : (files.set place bytes).find? (·.1 = place) = some (place, bytes) := by
    rw [set, List.find?_append, List.find?_eq_none.2]
    · simp
    · intro f hf
      simpa using (List.mem_filter.1 hf).2
  rw [entry, hfile, hfind]
  rfl

theorem disk_eq_entry {path : Path} (h : files.place path = some place) :
    files.disk path = files.entry place := by
  rw [disk, h]

/-- A file that is written into a directory is found where it was written. -/
theorem disk_write {path : Path} (hplace : files.place path = some (directory ++ [name]))
    (hd : files.isDirectory directory = true) (hfree : files.disk path ≠ some .directory)
    (text : String) :
    (files.write path text).disk path = some (.file (Text.encode text.toList)) := by
  have hsame := isDirectory_set hd (rfl : directory ++ [name] = directory ++ [name])
    (Text.encode text.toList)
  have hfile : files.isDirectory (directory ++ [name]) = false := by
    rw [disk_eq_entry hplace, entry] at hfree
    by_contra h
    rw [Bool.not_eq_false] at h
    exact hfree (if_pos h)
  have hwrite : files.write path text =
      files.set (directory ++ [name]) (Text.encode text.toList) := by
    rw [write, hplace]
    rfl
  have hplace' : (files.write path text).place path = some (directory ++ [name]) := by
    rw [← hplace, hwrite, place, place, resolve_congr hsame]
  rw [disk_eq_entry hplace', hwrite]
  exact entry_set (by rw [hsame, hfile])

/-- The parts before the last one of a file's path lead to a directory. -/
theorem directory_of_file {path : Path} {bytes : List Nat}
    (h : files.disk path = some (.file bytes)) :
    ∃ before last directory, path.root = "" ∧ path.parts = before ++ [last] ∧
      files.resolve [] before = some directory ∧ files.isDirectory directory = true := by
  rcases hplace : files.place path with _ | place
  · rw [disk, hplace] at h
    simp only at h
    split at h <;> cases h
  · rw [disk_eq_entry hplace] at h
    rw [Files.place] at hplace
    split at hplace
    · rename_i hroot
      rcases List.eq_nil_or_concat' path.parts with hnil | ⟨before, last, hparts⟩
      · rw [hnil] at hplace
        cases hplace
        cases h
      · rw [hparts, resolve_append] at hplace
        obtain ⟨directory, hresolve, hlast⟩ := Option.bind_eq_some_iff.1 hplace
        refine ⟨before, last, directory, hroot, hparts, hresolve, ?_⟩
        by_contra hd
        simp [resolve, hd] at hlast
    · cases hplace

/-- What is written beside a file is found there. -/
theorem disk_write_extend {path : Path} {bytes : List Nat}
    (h : files.disk path = some (.file bytes)) {suffix : String} (hlong : 2 < suffix.toList.length)
    (hfree : files.disk (path.extend suffix) ≠ some .directory) (text : String) :
    (files.write (path.extend suffix) text).disk (path.extend suffix) =
      some (.file (Text.encode text.toList)) := by
  obtain ⟨before, last, directory, hroot, hparts, hresolve, hd⟩ := directory_of_file h
  have hextend : path.extend suffix = { path with parts := before ++ [last ++ suffix] } := by
    simp [Path.extend, hparts]
  have hname : last ++ Text.ofString suffix ≠ ".." := by
    intro heq
    have hlength : (last ++ Text.ofString suffix).length = 2 := by
      rw [heq]
      rfl
    simp only [List.length_append, Text.ofString, Text.ofChars, List.length_map] at hlength
    omega
  have hplace : files.place (path.extend suffix) = some (directory ++ [last ++ suffix]) := by
    rw [hextend, place, if_pos hroot, resolve_append, hresolve]
    simp [resolve, hd, hname]
  exact disk_write hplace hd hfree text

end writing

end Files

end BellaLang.Command
