-- Where an offset of a text stands: its line, counted in newlines, and its
-- column, counted in characters, both from one.

namespace BellaLang.Text

/-- A line and a column, both counted from one. -/
structure Position where
  line : Nat
  column : Nat
  deriving DecidableEq, Repr

/-- The position just after a text that starts at the given position. -/
def Position.after (p : Position) : List Char → Position
  | [] => p
  | c :: cs =>
    if c = '\n' then Position.after ⟨p.line + 1, 1⟩ cs
    else Position.after ⟨p.line, p.column + 1⟩ cs

/-- Going over two texts is going over the first and then over the second. -/
theorem Position.after_append (p : Position) (xs ys : List Char) :
    p.after (xs ++ ys) = (p.after xs).after ys := by
  fun_induction Position.after p xs with
  | case1 p => rfl
  | case2 p xs ih => simpa [Position.after] using ih
  | case3 p c xs hc ih => simpa [Position.after, hc] using ih

/-- The position of an offset of a text. -/
def Position.ofOffset (cs : List Char) (offset : Nat) : Position :=
  Position.after ⟨1, 1⟩ (cs.take offset)

end BellaLang.Text
