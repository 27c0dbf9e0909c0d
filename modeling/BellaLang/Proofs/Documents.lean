-- The documents of trees. A tree is given back by the document that is written
-- for it, so what is read from a freer document and written again is its normal
-- form, and the documents that are written are the normal ones.
import BellaLang.Node.Document
import BellaLang.Proofs.Trees

namespace BellaLang.Node

/-! ## Members -/

theorem field_eq {name : String} {members : List (Text × Json)} {value : Json}
    (h : Json.member? name members = some value) :
    field name members = .ok ⟨value, sizeOf_member? h⟩ := by
  unfold field
  split
  · rename_i found hfound
    cases hfound.symm.trans h
    rfl
  · rename_i hfound
    cases hfound.symm.trans h

/-- A member that is there is handed on. -/
theorem field_bind {name : String} {members : List (Text × Json)} {value : Json} {α : Type}
    (h : Json.member? name members = some value)
    (f : { value : Json // sizeOf value < sizeOf members } → Except Malformed α) :
    (field name members >>= f) = f ⟨value, sizeOf_member? h⟩ := by
  rw [field_eq h]
  rfl

theorem ok_bind {α β : Type} (a : α) (f : α → Except Malformed β) : (Except.ok a >>= f) = f a :=
  rfl

/-! ## Reading what is written -/

theorem typeWord?_typed (type : String) (members : List (Text × Json)) :
    typeWord? (("type", .str type) :: members) = some type := by
  simp [typeWord?, Json.member?, Text.string_ofString]

theorem ofJsonList_toJsonItems {nodes : List Node}
    (h : ∀ n ∈ nodes, ofJson n.toJson = .ok n) : ofJsonList (toJsonItems nodes) = .ok nodes := by
  induction nodes with
  | nil => rw [toJsonItems, ofJsonList]
  | cons node nodes ih =>
    rw [toJsonItems, ofJsonList, h node List.mem_cons_self, ih fun n hn => h n (by simp [hn])]
    rfl

theorem ofJsonItems_toJsonItems {nodes : List Node}
    (h : ∀ n ∈ nodes, ofJson n.toJson = .ok n) :
    ofJsonItems (.arr (toJsonItems nodes)) = .ok nodes := by
  rw [ofJsonItems, ofJsonList_toJsonItems h]

/-- The members of every node are found where they were written, and read as they were. -/
theorem ofJson_toJson (node : Node) : ofJson node.toJson = .ok node := by
  induction node with
  | program b ih =>
    simp only [toJson, typed, ofJson, typeWord?_typed]
    rw [field_bind rfl, ih]
    rfl
  | block statements ih =>
    simp only [toJson, typed, ofJson, typeWord?_typed]
    rw [field_bind rfl, ofJsonItems_toJsonItems ih]
    rfl
  | variableDeclaration name expr ih =>
    simp only [toJson, typed, ofJson, typeWord?_typed]
    rw [field_bind rfl, field_bind rfl, ih]
    rfl
  | functionDeclaration name params body ih =>
    simp only [toJson, typed, ofJson, typeWord?_typed]
    rw [field_bind rfl, field_bind rfl, itemsOf, ok_bind, field_bind rfl, ih]
    rfl
  | assignment name expr ih =>
    simp only [toJson, typed, ofJson, typeWord?_typed]
    rw [field_bind rfl, field_bind rfl, ih]
    rfl
  | printStatement expr ih =>
    simp only [toJson, typed, ofJson, typeWord?_typed]
    rw [field_bind rfl, ih]
    rfl
  | whileStatement test body iht ihb =>
    simp only [toJson, typed, ofJson, typeWord?_typed]
    rw [field_bind rfl, iht, ok_bind, field_bind rfl, ihb]
    rfl
  | numeral value =>
    simp only [toJson, typed, ofJson, typeWord?_typed]
    rw [field_bind rfl]
    rfl
  | booleanLiteral value =>
    simp only [toJson, typed, ofJson, typeWord?_typed]
    rw [field_bind rfl]
    rfl
  | identifier name =>
    simp only [toJson, typed, ofJson, typeWord?_typed]
    rw [field_bind rfl]
    rfl
  | unary op operand ih =>
    simp only [toJson, typed, ofJson, typeWord?_typed]
    rw [field_bind rfl, field_bind rfl, ih]
    rfl
  | binary op left right ihl ihr =>
    simp only [toJson, typed, ofJson, typeWord?_typed]
    rw [field_bind rfl, field_bind rfl, ihl, ok_bind, field_bind rfl, ihr]
    rfl
  | call callee args ih =>
    simp only [toJson, typed, ofJson, typeWord?_typed]
    rw [field_bind rfl, field_bind rfl, ofJsonItems_toJsonItems ih]
    rfl
  | conditional test consequent alternate iht ihc iha =>
    simp only [toJson, typed, ofJson, typeWord?_typed]
    rw [field_bind rfl, iht, ok_bind, field_bind rfl, ihc, ok_bind, field_bind rfl, iha]
    rfl
  | arrayLiteral elements ih =>
    simp only [toJson, typed, ofJson, typeWord?_typed]
    rw [field_bind rfl, ofJsonItems_toJsonItems ih]
    rfl
  | subscript array index iha ihi =>
    simp only [toJson, typed, ofJson, typeWord?_typed]
    rw [field_bind rfl, iha, ok_bind, field_bind rfl, ihi]
    rfl

/-! ## Normal documents -/

/-- The document written for the tree that a document is read as. -/
def normalised (document : Json) : Except Malformed Json := (ofJson document).map toJson

theorem normalised_eq_ok_iff {document written : Json} :
    normalised document = .ok written ↔
      ∃ node, ofJson document = .ok node ∧ node.toJson = written := by
  unfold normalised
  rcases ofJson document with e | node
  · simp [Except.map]
  · simp [Except.map]

theorem normalised_toJson (node : Node) : normalised node.toJson = .ok node.toJson :=
  normalised_eq_ok_iff.2 ⟨node, ofJson_toJson node, rfl⟩

/-- Writing and reading a tree gives it back, whatever its names, operators and parameters are.
Reading and writing a document gives one that is read as the same tree and written in the same
way again, and the documents for which nothing changes are those of trees. -/
theorem documents_and_trees_give_each_other_back :
    (∀ node : Node, ofJson node.toJson = .ok node) ∧
    (∀ document written, normalised document = .ok written →
      ofJson written = ofJson document ∧ normalised written = .ok written) ∧
    ∀ document, (∃ node : Node, node.toJson = document) ↔ normalised document = .ok document := by
  refine ⟨ofJson_toJson, ?_, ?_⟩
  · intro document written h
    obtain ⟨node, hread, rfl⟩ := normalised_eq_ok_iff.1 h
    exact ⟨by rw [ofJson_toJson, hread], normalised_toJson node⟩
  · intro document
    constructor
    · rintro ⟨node, rfl⟩
      exact normalised_toJson node
    · intro h
      obtain ⟨node, _, hwritten⟩ := normalised_eq_ok_iff.1 h
      exact ⟨node, hwritten⟩

/-- A document in none of the written forms: a member too many, a text for a list, a number for
a truth value, and an integer for a numeral. -/
def looseDocument : Json :=
  .obj [("note", .null), ("type", .str "ConditionalExpression"),
    ("test", .obj [("type", .str "BooleanLiteral"), ("value", .int 7)]),
    ("consequent", .obj [("type", .str "Numeral"), ("value", .int 3)]),
    ("alternate", .obj [("type", .str "ArrayLiteral"), ("elements", .str [])])]

theorem ofJson_looseDocument :
    ofJson looseDocument =
      .ok (.conditional (.booleanLiteral true) (.numeral 3.0) (.arrayLiteral [])) := by
  have htest : ofJson (.obj [("type", .str "BooleanLiteral"), ("value", .int 7)]) =
      .ok (.booleanLiteral true) := by
    simp only [ofJson, typeWord?_typed]
    rw [field_bind rfl]
    rfl
  have hconsequent : ofJson (.obj [("type", .str "Numeral"), ("value", .int 3)]) =
      .ok (.numeral 3.0) := by
    have hthree : numberOf (.int 3) = .ok 3.0 := by
      have hfinite : Number.ofInt? 3 = some 3.0 := by decide
      simp only [numberOf, hfinite]
    simp only [ofJson, typeWord?_typed]
    rw [field_bind rfl, hthree]
    rfl
  have halternate : ofJson (.obj [("type", .str "ArrayLiteral"), ("elements", .str [])]) =
      .ok (.arrayLiteral []) := by
    simp only [ofJson, typeWord?_typed]
    rw [field_bind rfl, ofJsonItems]
    rfl
  have htype : typeWord? [("note", .null), ("type", .str "ConditionalExpression"),
      ("test", .obj [("type", .str "BooleanLiteral"), ("value", .int 7)]),
      ("consequent", .obj [("type", .str "Numeral"), ("value", .int 3)]),
      ("alternate", .obj [("type", .str "ArrayLiteral"), ("elements", .str [])])] =
      some "ConditionalExpression" := by
    rfl
  simp only [looseDocument, ofJson, htype]
  rw [field_bind rfl, htest, ok_bind, field_bind rfl, hconsequent, ok_bind, field_bind rfl,
    halternate]
  rfl

/-- A loose document is read as the tree of its normal form, which is another document. -/
theorem documents_and_trees_give_each_other_back_loosely :
    ∃ written, normalised looseDocument = .ok written ∧ ofJson written = ofJson looseDocument ∧
      normalised written = .ok written :=
  have h := normalised_eq_ok_iff.2 ⟨_, ofJson_looseDocument, rfl⟩
  ⟨_, h, documents_and_trees_give_each_other_back.2.1 _ _ h⟩

end BellaLang.Node
