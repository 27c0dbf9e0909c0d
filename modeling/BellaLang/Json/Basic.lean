-- JSON values. Integers are exact and kept apart from doubles, and an object is
-- the ordered list of its members, in which a name stands at most once.
import BellaLang.Number.Text
import BellaLang.Text.Quoted

namespace BellaLang

/-- A JSON value. -/
inductive Json where
  | null
  | bool (b : Bool)
  | int (n : Int)
  | float (x : Number)
  | str (s : Text)
  | arr (items : List Json)
  | obj (members : List (Text × Json))
  deriving Inhabited

namespace Json

/-! ## Members -/

/-- The value of the member with the given name. -/
def member? (name : Text) (members : List (Text × Json)) : Option Json :=
  (members.find? (·.1 = name)).map (·.2)

/-- The members after setting one: a new name goes to the end, a known one keeps its place. -/
def setMember (name : Text) (value : Json) : List (Text × Json) → List (Text × Json)
  | [] => [(name, value)]
  | (key, old) :: rest =>
    if key = name then (key, value) :: rest else (key, old) :: setMember name value rest

theorem member?_setMember_self (name : Text) (value : Json) (members : List (Text × Json)) :
    member? name (setMember name value members) = some value := by
  fun_induction setMember name value members with
  | case1 => simp [member?]
  | case2 old rest => simp [member?]
  | case3 key old rest hne ih => simpa [member?, hne] using ih

theorem member?_setMember_ne {name other : Text} (h : other ≠ name) (value : Json)
    (members : List (Text × Json)) :
    member? other (setMember name value members) = member? other members := by
  fun_induction setMember name value members with
  | case1 => simp [member?, Ne.symm h]
  | case2 old rest => simp [member?, Ne.symm h]
  | case3 key old rest hne ih =>
    by_cases hk : key = other
    · simp [member?, hk]
    · simpa [member?, hk] using ih

/-! ## How a value is shown in a message -/

/-- The word for the sort of a value. -/
def sortName : Json → String
  | null => "NoneType"
  | bool _ => "bool"
  | int _ => "int"
  | float _ => "float"
  | str _ => "str"
  | arr _ => "list"
  | obj _ => "dict"

/-- An integer in decimal. -/
def intText (n : Int) : String :=
  String.ofList (Text.signedDecimal n)

/-- A text in quotes. -/
def quotedText (s : Text) : String :=
  String.ofList (Text.quoted s)

mutual

/-- A value as it is shown inside another one: texts are quoted. -/
def shown : Json → String
  | null => "None"
  | bool b => if b then "True" else "False"
  | int n => intText n
  | float x => x.literal .nested
  | str s => quotedText s
  | arr items => "[" ++ String.intercalate ", " (shownItems items) ++ "]"
  | obj members => "\x7b" ++ String.intercalate ", " (shownMembers members) ++ "\x7d"

/-- The items of a list, each as it is shown. -/
def shownItems : List Json → List String
  | [] => []
  | item :: items => shown item :: shownItems items

/-- The members of an object, each as it is shown. -/
def shownMembers : List (Text × Json) → List String
  | [] => []
  | (name, value) :: members => (quotedText name ++ ": " ++ shown value) :: shownMembers members

end

/-- A value as it stands in a message: a text is shown as it is. -/
def text : Json → Text
  | str s => s
  | other => other.shown

/-! ## Truth -/

/-- Whether a value counts as true: everything but null, false, zero and what is empty. -/
def truthy : Json → Bool
  | null => false
  | bool b => b
  | int n => n != 0
  | float x => x != 0
  | str s => !s.isEmpty
  | arr items => !items.isEmpty
  | obj members => !members.isEmpty

end Json

/-! ## Values as names -/

/-- What decides whether two values are the same name. -/
inductive Key where
  | null
  | text (s : Text)
  | whole (n : Int)
  | fraction (x : Number)
  deriving DecidableEq

/-- The key of a value: numbers are compared by value whatever their form, the truth values
count as one and zero, and lists and objects cannot be names. -/
def Json.key? : Json → Option Key
  | .null => some .null
  | .bool b => some (.whole (if b then 1 else 0))
  | .int n => some (.whole n)
  | .float x =>
    match x.toInt? with
    | some n => some (.whole n)
    | none => some (.fraction x)
  | .str s => some (.text s)
  | .arr _ => none
  | .obj _ => none

end BellaLang
