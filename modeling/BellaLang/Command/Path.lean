-- Paths of files and what a disk holds at them.
import BellaLang.Text.CodePoint
import BellaLang.Text.Utf8

namespace BellaLang.Command

/-! ## Paths -/

/-- A path: its root, which is empty for a path from the working directory, and its parts. -/
structure Path where
  root : String
  parts : List Text
  deriving DecidableEq, Repr

namespace Path

/-- The root with which a text starts. Two slashes are a root of their own; any other number
of them is one slash. -/
def rootOf (text : Text) : String :=
  match (text.takeWhile (· = .char '/')).length with
  | 0 => ""
  | 2 => "//"
  | _ => "/"

/-- The texts between the slashes of a text. -/
def pieces : Text → List Text
  | [] => [[]]
  | p :: text =>
    if p = .char '/' then [] :: pieces text
    else
      match pieces text with
      | piece :: rest => (p :: piece) :: rest
      | [] => [[p]]

/-- The path that a text names. Empty parts and single points say nothing and are dropped. -/
def ofText (text : Text) : Path :=
  ⟨rootOf text, (pieces text).filter fun piece => piece ≠ [] ∧ piece ≠ "."⟩

/-- The text of a path. -/
def text (p : Path) : Text :=
  if p.root = "" && p.parts.isEmpty then "."
  else p.root ++ Text.join "/" p.parts

/-- The path with something added to its last part. -/
def extend (p : Path) (suffix : String) : Path :=
  match p.parts.reverse with
  | [] => p
  | last :: before => { p with parts := ((last ++ suffix) :: before).reverse }

end Path

/-! ## Disks -/

/-- What stands at a path. -/
inductive Entry where
  | file (bytes : List Nat)
  | directory

/-- What a disk holds at each path. -/
abbrev Disk := Path → Option Entry

/-- Files under one directory, by the parts of their paths. -/
abbrev Files := List (List Text × List Nat)

namespace Files

/-- Whether the parts lead to a directory: the top one, or one that holds a file. -/
def isDirectory (files : Files) (parts : List Text) : Bool :=
  parts.isEmpty || files.any fun f => parts.isPrefixOf f.1 && f.1 != parts

/-- The place to which some parts lead from a directory. Two points lead back up, but not
above the top; whatever is passed on the way must be a directory. -/
def resolve (files : Files) : List Text → List Text → Option (List Text)
  | here, [] => some here
  | here, part :: parts =>
    if !files.isDirectory here then none
    else if part = ".." then
      if here.isEmpty then none else files.resolve here.dropLast parts
    else files.resolve (here ++ [part]) parts

/-- The place of a path from the top directory. -/
def place (files : Files) (path : Path) : Option (List Text) :=
  if path.root = "" then files.resolve [] path.parts else none

/-- What stands at a place. -/
def entry (files : Files) (place : List Text) : Option Entry :=
  if files.isDirectory place then some .directory
  else (files.find? (·.1 = place)).map fun f => .file f.2

/-- The disk on which the given files stand in the working directory. Above it there are
directories only. -/
def disk (files : Files) : Disk := fun path =>
  match files.place path with
  | some place => files.entry place
  | none => if path.parts.all (· = "..") then some .directory else none

/-- The files after writing a text to a path. -/
def write (files : Files) (path : Path) (text : String) : Files :=
  match files.place path with
  | some place => files.filter (·.1 ≠ place) ++ [(place, Text.encode text.toList)]
  | none => files

end Files

end BellaLang.Command
