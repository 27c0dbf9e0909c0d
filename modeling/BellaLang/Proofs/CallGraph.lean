-- Which functions a program declares, and which functions their bodies call. Where
-- the calls go round in no cycle the functions have ranks: each one calls only
-- functions of a lower rank, and no rank is more than the number of functions.
import Mathlib.Data.Finset.Card
import Mathlib.Data.Finset.Filter
import Mathlib.Logic.Relation
import BellaLang.Node.Basic

namespace BellaLang.Node

/-! ## Functions and calls -/

mutual

/-- The functions that the statements of a tree declare, wherever they stand: their names and
bodies. -/
def declarations : Node → List (Json × Node)
  | .program inner => inner.declarations
  | .block statements => declarationsOfAll statements
  | .functionDeclaration name _ body => [(name, body)]
  | .whileStatement _ body => body.declarations
  | _ => []

def declarationsOfAll : List Node → List (Json × Node)
  | [] => []
  | node :: nodes => node.declarations ++ declarationsOfAll nodes

end

mutual

/-- The names that an expression calls as functions. -/
def callees : Node → List Key
  | .unary _ operand => operand.callees
  | .binary _ left right => left.callees ++ right.callees
  | .call callee args => callee.key?.toList ++ calleesOfAll args
  | .conditional test consequent alternate =>
    test.callees ++ (consequent.callees ++ alternate.callees)
  | .arrayLiteral elements => calleesOfAll elements
  | .subscript array index => array.callees ++ index.callees
  | _ => []

def calleesOfAll : List Node → List Key
  | [] => []
  | node :: nodes => node.callees ++ calleesOfAll nodes

end

mutual

/-- None of the statements of a tree is a loop. -/
def LoopFree : Node → Prop
  | .program inner => inner.LoopFree
  | .block statements => LoopFreeAll statements
  | .whileStatement _ _ => False
  | _ => True

def LoopFreeAll : List Node → Prop
  | [] => True
  | node :: nodes => node.LoopFree ∧ LoopFreeAll nodes

end

theorem mem_declarationsOfAll {d : Json × Node} {nodes : List Node} :
    d ∈ declarationsOfAll nodes ↔ ∃ node ∈ nodes, d ∈ node.declarations := by
  induction nodes with
  | nil => simp [declarationsOfAll]
  | cons node nodes ih => simp [declarationsOfAll, ih]

theorem mem_calleesOfAll {k : Key} {nodes : List Node} :
    k ∈ calleesOfAll nodes ↔ ∃ node ∈ nodes, k ∈ node.callees := by
  induction nodes with
  | nil => simp [calleesOfAll]
  | cons node nodes ih => simp [calleesOfAll, ih]

theorem loopFreeAll_iff {nodes : List Node} :
    LoopFreeAll nodes ↔ ∀ node ∈ nodes, node.LoopFree := by
  induction nodes with
  | nil => simp [LoopFreeAll]
  | cons node nodes ih => simp [LoopFreeAll, ih]

/-! ## The call graph -/

/-- The program declares a function of this name with this body. -/
def Declares (program : Node) (k : Key) (body : Node) : Prop :=
  ∃ name, (name, body) ∈ program.declarations ∧ name.key? = some k

/-- The names of the declared functions, each one once. -/
def functionNames (program : Node) : Finset Key :=
  (program.declarations.filterMap (·.1.key?)).toFinset

/-- A declaration of the first name has a body that calls the second one. -/
def Calls (program : Node) (k k' : Key) : Prop :=
  ∃ body, program.Declares k body ∧ k' ∈ body.callees

/-- No function calls itself, be it by way of other functions. -/
def Acyclic (program : Node) : Prop := ∀ k, ¬ Relation.TransGen program.Calls k k

section graph

variable {program body : Node} {k k' : Key}

theorem Declares.mem_functionNames (h : program.Declares k body) : k ∈ program.functionNames := by
  obtain ⟨name, hmem, hk⟩ := h
  rw [functionNames, List.mem_toFinset, List.mem_filterMap]
  exact ⟨(name, body), hmem, hk⟩

/-- Where calls lead from greater to smaller there is no cycle. -/
theorem acyclic_of_lt (measure : Key → Nat)
    (h : ∀ k k', program.Calls k k' → measure k' < measure k) : program.Acyclic := by
  intro k hk
  have hlt : ∀ {k'}, Relation.TransGen program.Calls k k' → measure k' < measure k := by
    intro k' hpath
    induction hpath with
    | single hcall => exact h _ _ hcall
    | tail _ hcall ih => exact (h _ _ hcall).trans ih
  exact (hlt hk).ne rfl

/-! ## Ranks -/

open Classical in
/-- The declared functions that a call of the name may lead to, its own among them. -/
noncomputable def reach (program : Node) (k : Key) : Finset Key :=
  program.functionNames.filter (Relation.ReflTransGen program.Calls k)

/-- How many functions a call of the name may lead to. -/
noncomputable def rank (program : Node) (k : Key) : Nat := (program.reach k).card

theorem mem_reach : k' ∈ program.reach k ↔
    k' ∈ program.functionNames ∧ Relation.ReflTransGen program.Calls k k' := by
  classical
  exact Finset.mem_filter

theorem rank_le (program : Node) (k : Key) : program.rank k ≤ program.functionNames.card :=
  Finset.card_le_card fun _ h => (mem_reach.1 h).1

theorem rank_pos (h : k ∈ program.functionNames) : 0 < program.rank k :=
  Finset.card_pos.2 ⟨k, mem_reach.2 ⟨h, .refl⟩⟩

/-- What a callee leads to its caller leads to as well, and to itself besides. -/
theorem rank_lt (hacyclic : program.Acyclic) (h : program.Calls k k') :
    program.rank k' < program.rank k := by
  obtain ⟨body, hdeclares, _⟩ := id h
  apply Finset.card_lt_card
  rw [Finset.ssubset_iff_of_subset]
  · refine ⟨k, mem_reach.2 ⟨hdeclares.mem_functionNames, .refl⟩, ?_⟩
    intro hmem
    exact hacyclic k (.head' h (mem_reach.1 hmem).2)
  · intro k'' hmem
    obtain ⟨hname, hpath⟩ := mem_reach.1 hmem
    exact mem_reach.2 ⟨hname, .head h hpath⟩

end graph

end BellaLang.Node
