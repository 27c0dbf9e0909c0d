-- What an expression sees of a store: the frame of the innermost call, and the
-- globals that it names or that the functions it may call name. Two stores that
-- agree there are the same to it, down to the notes it leaves in the trace, and
-- a parameter is the same to it as the number that the frame binds it to.
import BellaLang.Proofs.Expressions

namespace BellaLang

open BellaLang.Action

/-! ## The same in two stores -/

/-- Two actions only look, each at its own store, and come to the same: they have one result and
leave the same notes. -/
def Matches {α : Type} (s s' : Store) (x y : Action α) : Prop :=
  ∃ (result : Except Stop α) (notes : List Note), ∀ log : List Event,
    x ⟨s, log⟩ = (result, ⟨s, notes.map .noted ++ log⟩) ∧
    y ⟨s', log⟩ = (result, ⟨s', notes.map .noted ++ log⟩)

section rules

variable {α β : Type} {s s' : Store}

theorem matches_pure (a : α) : Matches s s' (pure a) (pure a) :=
  ⟨.ok a, [], fun _ => ⟨rfl, rfl⟩⟩

theorem matches_stop (e : Stop) : Matches s s' (stop e : Action α) (stop e) :=
  ⟨.error e, [], fun _ => ⟨rfl, rfl⟩⟩

theorem matches_ofExcept (result : Except Fault α) :
    Matches s s' (ofExcept result) (ofExcept result) := by
  rcases result with f | a
  · exact ⟨.error (.fault f), [], fun _ => ⟨rfl, rfl⟩⟩
  · exact ⟨.ok a, [], fun _ => ⟨rfl, rfl⟩⟩

theorem matches_query {f f' : Store → Except Stop α} (h : f s = f' s') :
    Matches s s' (query f) (query f') :=
  ⟨f s, [], fun _ => ⟨rfl, by rw [h]; rfl⟩⟩

theorem matches_note (t : Tracing) (n : Note) : Matches s s' (note t n) (note t n) := by
  unfold note
  split
  · split
    · exact matches_stop _
    · exact ⟨.ok (), [n], fun _ => ⟨rfl, rfl⟩⟩
  · exact matches_pure ()

theorem matches_bind {x y : Action α} {f g : α → Action β} (hxy : Matches s s' x y)
    (hfg : ∀ a, x.answer s = .ok a → Matches s s' (f a) (g a)) :
    Matches s s' (x >>= f) (y >>= g) := by
  obtain ⟨result, notes, h⟩ := hxy
  rcases result with e | a
  · refine ⟨.error e, notes, fun log => ?_⟩
    exact ⟨bind_error (h log).1, bind_error (h log).2⟩
  · have hanswer : x.answer s = .ok a := by rw [answer, (h []).1]
    obtain ⟨result', notes', h'⟩ := hfg a hanswer
    refine ⟨result', notes' ++ notes, fun log => ?_⟩
    rw [bind_ok (h log).1, bind_ok (h log).2, List.map_append, List.append_assoc]
    exact h' _

/-- The store with one more frame. -/
def Store.push (s : Store) (frame : Scope) : Store := { s with frames := frame :: s.frames }

theorem enter_of_bindAll {f : Function} {args : List Value} {frame : Scope}
    (h : Scope.bindAll [] f.params args = .ok frame) (s : Store) :
    s.enter f args = .ok (s.push frame) := by
  rw [Store.enter, h]
  rfl

theorem enter_of_bindAll_error {f : Function} {args : List Value} {e : Stop}
    (h : Scope.bindAll [] f.params args = .error e) (s : Store) : s.enter f args = .error e := by
  rw [Store.enter, h]
  rfl

/-- The frames that two calls push may lie on different stacks. -/
theorem matches_inside {f : Function} {args : List Value} {x y : Action α}
    (h : ∀ frame, Matches (s.push frame) (s'.push frame) x y) :
    Matches s s' (inside f args x) (inside f args y) := by
  rcases hframe : Scope.bindAll [] f.params args with e | frame
  · have hfails := enter_of_bindAll_error hframe
    refine ⟨.error e, [], fun log => ?_⟩
    exact ⟨inside_error (hfails s) x log, inside_error (hfails s') y log⟩
  · have henter := enter_of_bindAll hframe
    obtain ⟨result, notes, hinner⟩ := h frame
    refine ⟨result, notes, fun log => ?_⟩
    rw [inside_ok (henter s), inside_ok (henter s'), (hinner log).1, (hinner log).2]
    exact ⟨rfl, rfl⟩

end rules

/-! ## Names and numbers in their place -/

namespace Node

mutual

/-- The names in an expression, of variables and of called functions. What is no expression is
never evaluated, so its names do not count. -/
def names : Node → List Key
  | .identifier name => name.key?.toList
  | .unary _ operand => operand.names
  | .binary _ left right => left.names ++ right.names
  | .call callee args => callee.key?.toList ++ namesOfAll args
  | .conditional test consequent alternate =>
    test.names ++ (consequent.names ++ alternate.names)
  | .arrayLiteral elements => namesOfAll elements
  | .subscript array index => array.names ++ index.names
  | _ => []

/-- The names in some expressions. -/
def namesOfAll : List Node → List Key
  | [] => []
  | node :: nodes => node.names ++ namesOfAll nodes

end

mutual

/-- The tree in which every identifier whose name has a number is a numeral. Called functions
keep their names. -/
def substitute (number? : Key → Option Number) : Node → Node
  | .program inner => .program (inner.substitute number?)
  | .block statements => .block (substituteAll number? statements)
  | .variableDeclaration name expr => .variableDeclaration name (expr.substitute number?)
  | .functionDeclaration name params body =>
    .functionDeclaration name params (body.substitute number?)
  | .assignment name expr => .assignment name (expr.substitute number?)
  | .printStatement expr => .printStatement (expr.substitute number?)
  | .whileStatement test body =>
    .whileStatement (test.substitute number?) (body.substitute number?)
  | .numeral value => .numeral value
  | .booleanLiteral value => .booleanLiteral value
  | .identifier name =>
    match name.key?.bind number? with
    | some x => .numeral x
    | none => .identifier name
  | .unary op operand => .unary op (operand.substitute number?)
  | .binary op left right => .binary op (left.substitute number?) (right.substitute number?)
  | .call callee args => .call callee (substituteAll number? args)
  | .conditional test consequent alternate =>
    .conditional (test.substitute number?) (consequent.substitute number?)
      (alternate.substitute number?)
  | .arrayLiteral elements => .arrayLiteral (substituteAll number? elements)
  | .subscript array index => .subscript (array.substitute number?) (index.substitute number?)

/-- Some trees, each with the numbers in it. -/
def substituteAll (number? : Key → Option Number) : List Node → List Node
  | [] => []
  | node :: nodes => node.substitute number? :: substituteAll number? nodes

end

theorem substituteAll_eq_map (number? : Key → Option Number) (nodes : List Node) :
    substituteAll number? nodes = nodes.map (substitute number?) := by
  induction nodes with
  | nil => rfl
  | cons node nodes ih => rw [substituteAll, ih, List.map_cons]

/-- Where no name has a number, nothing is replaced. -/
theorem substitute_none (node : Node) : node.substitute (fun _ => none) = node := by
  have hall : ∀ nodes : List Node, (∀ n ∈ nodes, n.substitute (fun _ => none) = n) →
      substituteAll (fun _ => none) nodes = nodes := by
    intro nodes h
    rw [substituteAll_eq_map, List.map_congr_left h, List.map_id']
  induction node with
  | block statements ih => rw [substitute, hall statements ih]
  | call callee args ih => rw [substitute, hall args ih]
  | arrayLiteral elements ih => rw [substitute, hall elements ih]
  | identifier name =>
    rw [substitute]
    cases name.key? <;> rfl
  | _ => simp_all [substitute]

end Node

/-! ## Looking a name up -/

section names

variable {s s' : Store} {name : Json}

theorem get_congr (hframe : ∀ k ∈ name.key?, s.currentFrame.find? k = s'.currentFrame.find? k)
    (hglobals : ∀ k ∈ name.key?, s.globals.find? k = s'.globals.find? k) :
    s.get name = s'.get name := by
  unfold Store.get keyOf
  rcases hk : name.key? with _ | k
  · rfl
  · simp only [bind, Except.bind]
    rw [hframe k hk, hglobals k hk]

theorem get_of_frame {k : Key} {v : Value} (hk : name.key? = some k)
    (hv : s.currentFrame.find? k = some v) : s.get name = .ok v := by
  unfold Store.get keyOf
  rw [hk]
  simp only [bind, Except.bind]
  rw [hv]
  rfl

theorem getFunction_congr (hglobals : ∀ k ∈ name.key?, s.globals.find? k = s'.globals.find? k) :
    s.getFunction name = s'.getFunction name := by
  unfold Store.getFunction keyOf
  rcases hk : name.key? with _ | k
  · rfl
  · simp only [bind, Except.bind]
    rw [hglobals k hk]

theorem find?_of_getFunction {f : Function} (h : s.getFunction name = .ok f) :
    ∃ k, name.key? = some k ∧ s.globals.find? k = some (.function f) := by
  simp only [Store.getFunction, bind_eq_ok, keyOf_eq_ok] at h
  obtain ⟨k, hk, h⟩ := h
  split at h
  · rename_i g hg
    cases h
    exact ⟨k, hk, hg⟩
  · cases h

end names

/-! ## Expressions -/

/-- The stores hold the same globals for some names. -/
def Store.Share (names : Key → Prop) (s s' : Store) : Prop :=
  ∀ k, names k → s.globals.find? k = s'.globals.find? k

/-- The functions that some names are bound to name nothing else. -/
def Store.Closed (names : Key → Prop) (s : Store) : Prop :=
  ∀ k f, names k → s.globals.find? k = some (.function f) → ∀ k' ∈ f.body.names, names k'

/-- To a name, the frame of the first store shows its number, if it has one, and else what the
frame of the second store shows. -/
def Store.ShowsAs (number? : Key → Option Number) (s s' : Store) (k : Key) : Prop :=
  s.currentFrame.find? k =
    match number? k with
    | some x => some (.number x)
    | none => s'.currentFrame.find? k

section expressions

variable {t : Tracing} {call : Caller} {names : Key → Prop} {number? : Key → Option Number}
  {s s' : Store}

theorem matches_evaluateAllWith {nodes : List Node}
    (h : ∀ node ∈ nodes,
      Matches s s' (evaluateWith t call node) (evaluateWith t call (node.substitute number?))) :
    Matches s s' (evaluateAllWith t call nodes)
      (evaluateAllWith t call (Node.substituteAll number? nodes)) := by
  induction nodes with
  | nil => exact matches_pure []
  | cons node nodes ih =>
    rw [evaluateAllWith, Node.substituteAll, evaluateAllWith]
    apply matches_bind (h node (by simp))
    intro value _
    exact matches_bind (ih fun n hn => h n (by simp [hn])) fun values _ => matches_pure _

theorem matches_identifier {name : Json} (hshare : s.Share names s')
    (hnames : ∀ k ∈ name.key?, names k ∧ s.ShowsAs number? s' k) :
    Matches s s' (evaluateWith t call (.identifier name))
      (evaluateWith t call ((Node.identifier name).substitute number?)) := by
  rw [Node.substitute]
  rcases hk : name.key? with _ | k
  · exact matches_query (get_congr (by simp [hk]) (by simp [hk]))
  · obtain ⟨hmem, hshows⟩ := hnames k hk
    unfold Store.ShowsAs at hshows
    rw [Option.bind_some]
    rcases hx : number? k with _ | x
    · rw [hx] at hshows
      refine matches_query (get_congr ?_ ?_)
      · intro k' hk'
        cases hk.symm.trans hk'
        exact hshows
      · intro k' hk'
        cases hk.symm.trans hk'
        exact hshare k hmem
    · rw [hx] at hshows
      refine ⟨.ok (.number x), [], fun log => ⟨?_, rfl⟩⟩
      rw [evaluateWith, query, get_of_frame hk hshows]
      rfl

theorem mem_namesOfAll {k : Key} {nodes : List Node} :
    k ∈ Node.namesOfAll nodes ↔ ∃ node ∈ nodes, k ∈ node.names := by
  induction nodes with
  | nil => simp [Node.namesOfAll]
  | cons node nodes ih => simp [Node.namesOfAll, ih]

/-- An expression with numbers for some of its names comes to the same in the second store as the
expression itself in the first one. -/
theorem matches_evaluateWith (hshare : s.Share names s')
    (hcall : ∀ k f args, names k → s.globals.find? k = some (.function f) →
      Matches s s' (call f args) (call f args))
    {node : Node} (hnames : ∀ k ∈ node.names, names k ∧ s.ShowsAs number? s' k) :
    Matches s s' (evaluateWith t call node) (evaluateWith t call (node.substitute number?)) := by
  induction node with
  | numeral value => exact matches_pure _
  | booleanLiteral value => exact matches_pure _
  | identifier name =>
    apply matches_identifier hshare
    simpa [Node.names] using hnames
  | unary op operand ih =>
    rw [Node.substitute, evaluateWith, evaluateWith]
    exact matches_bind (ih hnames) fun value _ => matches_ofExcept _
  | binary op left right ihl ihr =>
    simp only [Node.names, List.mem_append, or_imp, forall_and] at hnames
    have hleft := ihl fun k hk => ⟨hnames.1.1 k hk, hnames.2.1 k hk⟩
    have hright := ihr fun k hk => ⟨hnames.1.2 k hk, hnames.2.2 k hk⟩
    rw [Node.substitute, evaluateWith, evaluateWith]
    apply matches_bind hleft
    intro a _
    rcases shortCircuit? op with _ | final
    · exact matches_bind hright fun b _ => matches_ofExcept _
    · apply matches_bind (matches_ofExcept _)
      intro test _
      split
      · exact matches_pure _
      · apply matches_bind hright
        intro b _
        exact matches_bind (matches_ofExcept _) fun result _ => matches_pure _
  | conditional test consequent alternate iht ihc iha =>
    rw [Node.substitute, evaluateWith, evaluateWith]
    apply matches_bind (iht fun k hk => hnames k (by simp [Node.names, hk]))
    intro value _
    apply matches_bind (matches_ofExcept _)
    intro holds _
    apply matches_bind (matches_note _ _)
    intro _ _
    split
    · exact ihc fun k hk => hnames k (by simp [Node.names, hk])
    · exact iha fun k hk => hnames k (by simp [Node.names, hk])
  | arrayLiteral elements ih =>
    have hall := matches_evaluateAllWith fun node hmem => ih node hmem fun k hk =>
      hnames k (mem_namesOfAll.2 ⟨node, hmem, hk⟩)
    rw [Node.substitute, evaluateWith, evaluateWith]
    exact matches_bind hall fun values _ => matches_pure _
  | subscript array index iha ihi =>
    rw [Node.substitute, evaluateWith, evaluateWith]
    apply matches_bind (iha fun k hk => hnames k (by simp [Node.names, hk]))
    intro target _
    apply matches_bind (ihi fun k hk => hnames k (by simp [Node.names, hk]))
    intro position _
    exact matches_ofExcept _
  | call callee args ih =>
    have hall := matches_evaluateAllWith fun node hmem => ih node hmem fun k hk =>
      hnames k (List.mem_append_right _ (mem_namesOfAll.2 ⟨node, hmem, hk⟩))
    have hcallee : ∀ k ∈ callee.key?, names k := fun k hk =>
      (hnames k (List.mem_append_left _ (by simpa using hk))).1
    rw [Node.substitute, evaluateWith, evaluateWith]
    apply matches_bind (matches_query (getFunction_congr fun k hk => hshare k (hcallee k hk)))
    intro f hf
    apply matches_bind hall
    intro values _
    -- The function is the one that a name of the expression is bound to.
    obtain ⟨k, hk, hbound⟩ := find?_of_getFunction hf
    exact hcall k f values (hcallee k hk) hbound
  | _ => exact matches_stop _

/-- A call goes on in a frame of its own, so of the two stores only the globals count. -/
theorem matches_invoke (depth : Nat) (hshare : s.Share names s') (hclosed : s.Closed names)
    {k : Key} {f : Function} (hk : names k) (hf : s.globals.find? k = some (.function f))
    (args : List Value) : Matches s s' (invoke t depth f args) (invoke t depth f args) := by
  induction depth generalizing s s' k f args with
  | zero => exact matches_stop _
  | succ depth ih =>
    rw [invoke]
    apply matches_bind (matches_ofExcept _)
    intro _ _
    apply matches_bind (matches_note _ _)
    intro _ _
    have hbody : ∀ frame, Matches (s.push frame) (s'.push frame)
        (evaluateWith t (invoke t depth) f.body) (evaluateWith t (invoke t depth) f.body) := by
      intro frame
      have hshare' : (s.push frame).Share names (s'.push frame) := hshare
      have hcalls : ∀ k g args, names k → (s.push frame).globals.find? k = some (.function g) →
          Matches (s.push frame) (s'.push frame) (invoke t depth g args) (invoke t depth g args) :=
        fun k g args hk hg => ih hshare' hclosed hk hg args
      have hnames : ∀ k' ∈ f.body.names, names k' ∧
          (s.push frame).ShowsAs (fun _ => none) (s'.push frame) k' :=
        fun k' hk' => ⟨hclosed k f hk hf k' hk', rfl⟩
      have hmatch := matches_evaluateWith (t := t) hshare' hcalls hnames
      rwa [Node.substitute_none] at hmatch
    apply matches_bind (matches_inside hbody)
    intro result _
    exact matches_bind (matches_note _ _) fun _ _ => matches_pure _

theorem matches_evaluate {node : Node} (hshare : s.Share names s') (hclosed : s.Closed names)
    (hnames : ∀ k ∈ node.names, names k ∧ s.ShowsAs number? s' k) (depth : Nat) :
    Matches s s' (evaluate t depth node) (evaluate t depth (node.substitute number?)) :=
  matches_evaluateWith hshare (fun _ _ args hk hf => matches_invoke depth hshare hclosed hk hf args)
    hnames

end expressions

/-- An expression sees the frame of the innermost call and the globals that it has names for. Take
some names, those of the expression among them, and with each name of a function those in its
body. In two stores with the same globals for these names, and with innermost frames that show the
same for the names of the expression, it comes to the same and leaves the same notes, whatever the
stores hold besides. -/
theorem an_expression_sees_only_what_it_names {names : Key → Prop} {e : Node} {s s' : Store}
    (hnames : ∀ k ∈ e.names, names k) (hclosed : s.Closed names) (hglobals : s.Share names s')
    (hframe : ∀ k ∈ e.names, s.currentFrame.find? k = s'.currentFrame.find? k) (t : Tracing)
    (depth : Nat) :
    ∃ (result : Except Stop Value) (notes : List Note), ∀ log : List Event,
      evaluate t depth e ⟨s, log⟩ = (result, ⟨s, notes.map .noted ++ log⟩) ∧
      evaluate t depth e ⟨s', log⟩ = (result, ⟨s', notes.map .noted ++ log⟩) := by
  have hseen : ∀ k ∈ e.names, names k ∧ s.ShowsAs (fun _ => none) s' k :=
    fun k hk => ⟨hnames k hk, hframe k hk⟩
  have hmatch := matches_evaluate (t := t) hglobals hclosed hseen depth
  rwa [Node.substitute_none] at hmatch

/-- A recursive call under two stacks of different height, among other globals in another
order. -/
theorem an_expression_sees_only_what_it_names_of_a_recursion :
    let name (x : String) : Node := .identifier (.str x)
    let body : Node := .conditional (.binary (.str "==") (name "n") (.numeral 0)) (name "y")
      (.call (.str "f") [.binary (.str "-") (name "n") (.numeral 1)])
    let f : Json × Value := (.str "f", .function ⟨.str "f", [.str "n"], body⟩)
    let y : Json × Value := (.str "y", .number 7)
    let s : Store := ⟨[f, y], [[(.str "x", .number 1)], [(.str "y", .number 3)]]⟩
    let s' : Store := ⟨[(.str "z", .boolean true), y, f],
      [[(.str "y", .number 5), (.str "x", .number 1)]]⟩
    let e : Node := .call (.str "f") [name "x"]
    let names : Key → Prop := (· ∈ [Key.text "f", .text "x", .text "n", .text "y"])
    (∀ k ∈ e.names, names k) ∧ s.Closed names ∧ s.Share names s' ∧
      (∀ k ∈ e.names, s.currentFrame.find? k = s'.currentFrame.find? k) ∧
      (evaluate ⟨3, true⟩ 2 e ⟨s, []⟩).2.trace =
        ["call f(1)", "conditional test -> false", "call f(0)", "conditional test -> true",
          "return f -> 7", "return f -> 7"].map Text.ofString ∧
      ∃ (result : Except Stop Value) (notes : List Note), ∀ log : List Event,
        evaluate ⟨3, true⟩ 2 e ⟨s, log⟩ = (result, ⟨s, notes.map .noted ++ log⟩) ∧
        evaluate ⟨3, true⟩ 2 e ⟨s', log⟩ = (result, ⟨s', notes.map .noted ++ log⟩) := by
  intro name body f y s s' e names
  have hnames : ∀ k ∈ e.names, names k := by
    decide
  have hcases : ∀ {k}, names k → k = .text "f" ∨ k = .text "x" ∨ k = .text "n" ∨ k = .text "y" := by
    intro k hk
    simpa [names] using hk
  have hclosed : s.Closed names := by
    intro k g hk hg
    rcases hcases hk with rfl | rfl | rfl | rfl <;> cases hg
    decide
  have hglobals : s.Share names s' := by
    intro k hk
    rcases hcases hk with rfl | rfl | rfl | rfl <;> rfl
  have hframe : ∀ k ∈ e.names, s.currentFrame.find? k = s'.currentFrame.find? k := by
    intro k hk
    rcases hcases (hnames k hk) with rfl | rfl | rfl | rfl
    case inr.inr.inr => exact absurd hk (by decide)
    all_goals rfl
  exact ⟨hnames, hclosed, hglobals, hframe, by decide +kernel,
    an_expression_sees_only_what_it_names hnames hclosed hglobals hframe _ _⟩

/-! ## Parameters as numbers -/

/-- The number that a parameter is bound to. -/
def numberOf : List Json → List Number → Key → Option Number
  | p :: ps, x :: xs, k => if p.key? = some k then some x else numberOf ps xs k
  | _, _, _ => none

theorem find?_zip_numbers (ps : List Json) (xs : List Number) (k : Key) :
    Scope.find? k (ps.zip (xs.map .number)) = (numberOf ps xs k).map .number := by
  fun_induction numberOf ps xs k with
  | case1 p ps x xs k h => simp [Scope.find?, h]
  | case2 p ps x xs k h ih => simpa [Scope.find?, h] using ih
  | case3 ps xs k h =>
    rcases ps with _ | ⟨p, ps⟩
    · rfl
    · rcases xs with _ | ⟨x, xs⟩
      · rfl
      · exact absurd rfl (h p ps x xs rfl)

section calls

variable {t : Tracing} {f : Function} {xs : List Number} {s : Store}

theorem checkCall_numbers (h : xs.length = f.arity) : checkCall f (xs.map .number) = .ok () := by
  rw [checkCall, if_pos (by rw [List.length_map, h])]
  exact checkArguments_numbers _ _ xs

/-- In the frame of a call the body is the body with the numbers in it, for a store without
frames. -/
theorem answer_body (hd : f.Distinct) (depth : Nat) :
    (s.enter f (xs.map .number) >>= (evaluate t depth f.body).answer) =
      (evaluate t depth (f.body.substitute (numberOf f.params xs))).answer ⟨s.globals, []⟩ := by
  let inner := s.push (f.params.zip (xs.map .number))
  have henter : s.enter f (xs.map .number) = .ok inner := Store.enter_eq hd _
  have hshows : ∀ k, inner.ShowsAs (numberOf f.params xs) ⟨s.globals, []⟩ k := by
    intro k
    change Scope.find? k (f.params.zip (xs.map .number)) = _
    rw [find?_zip_numbers]
    rcases numberOf f.params xs k with _ | x <;> rfl
  have hshare : inner.Share (fun _ => True) ⟨s.globals, []⟩ := fun _ _ => rfl
  have hclosed : inner.Closed (fun _ => True) := fun _ _ _ _ _ _ => trivial
  obtain ⟨result, notes, h⟩ :=
    matches_evaluate (t := t) hshare hclosed (fun k _ => ⟨trivial, hshows k⟩) depth
  rw [henter]
  change (evaluate t depth f.body).answer inner = _
  rw [answer, answer, (h []).1, (h []).2]

theorem answer_called (hname : 3 ≤ t.level → t.stored = true → f.name.text.Whole) :
    (note t (.called f.name (xs.map .number))).answer s = .ok () := by
  apply answer_note
  intro hlevel hstored
  have hargs : (Text.join ", " (Value.texts (xs.map .number))).Whole := by
    apply Text.whole_join (Text.whole_ofString _)
    intro y hy
    obtain ⟨v, hv, rfl⟩ := mem_texts.1 hy
    obtain ⟨x, _, rfl⟩ := List.mem_map.1 hv
    exact whole_text (.number x)
  exact Text.whole_append (whole_line (Text.whole_ofString _) (hname hlevel hstored)
    (Text.whole_ofString _) hargs) (Text.whole_ofString _)

theorem answer_returned {v : Value} (hname : 3 ≤ t.level → t.stored = true → f.name.text.Whole)
    (hv : 3 ≤ t.level → t.stored = true → v.text.Whole) :
    (note t (.returned f.name v)).answer s = .ok () := by
  apply answer_note
  intro hlevel hstored
  exact whole_line (Text.whole_ofString _) (hname hlevel hstored) (Text.whole_ofString _)
    (hv hlevel hstored)

end calls

/-- A call of a function with as many numbers as it has parameters, all of them different, comes to
what its body comes to when each identifier that is a parameter is the numeral of its number and no
call is under way, with the same globals, whatever frames there are. A callee keeps its name, even
the name of a parameter. Where the trace stores calls, it must be able to hold the lines of this
one. -/
theorem a_call_is_its_body_with_numbers_for_parameters {f : Function} (hd : f.Distinct)
    {xs : List Number} (hlen : xs.length = f.arity) (t : Tracing) (depth : Nat) (m : Machine) :
    let body := f.body.substitute (numberOf f.params xs)
    let result := (evaluate t depth body ⟨⟨m.store.globals, []⟩, m.log⟩).1
    (3 ≤ t.level → t.stored = true → f.name.text.Whole ∧ ∀ v, result = .ok v → v.text.Whole) →
      (invoke t (depth + 1) f (xs.map .number) m).1 = result := by
  intro body result hshown
  have hname := fun hl hs => (hshown hl hs).1
  have hresult : result = (evaluate t depth body).answer ⟨m.store.globals, []⟩ :=
    (looks_evaluate depth body).fst_eq _
  rw [(looks_invoke (depth + 1) f _).fst_eq, answer_invoke_succ, checkCall_numbers hlen,
    answer_called hname, answer_body hd, ← hresult]
  rcases hv : result with e | v
  · rfl
  · change ((note t (.returned f.name v)).answer m.store >>= fun _ => .ok v) = .ok v
    rw [answer_returned hname fun hl hs => (hshown hl hs).2 v hv]
    rfl

/-- A recursive function whose parameter has its own name: the identifiers are replaced and the
callee is not. -/
theorem a_call_is_its_body_with_numbers_for_parameters_of_a_namesake :
    let name : Node := .identifier (.str "f")
    let body : Node := .conditional (.binary (.str "==") name (.numeral 0)) (.numeral 1)
      (.binary (.str "*") name (.call (.str "f") [.binary (.str "-") name (.numeral 1)]))
    let f : Function := ⟨.str "f", [.str "f"], body⟩
    let m : Machine := ⟨⟨[(.str "f", .function f)], [[(.str "f", .number 9)], []]⟩, []⟩
    let replaced : Node := f.body.substitute (numberOf f.params [3])
    let result := (evaluate ⟨3, true⟩ 3 replaced ⟨⟨m.store.globals, []⟩, []⟩).1
    f.Distinct ∧ result.toOption.map (·.text) = some "6" ∧
      (invoke ⟨3, true⟩ 4 f [.number 3] m).1 = result := by
  intro name body f m replaced result
  have hd : f.Distinct := ⟨by decide, by decide⟩
  have hsix : result.toOption.map (·.text) = some "6" := by decide +kernel
  refine ⟨hd, hsix, ?_⟩
  have hlen : [(3 : Number)].length = f.arity := rfl
  apply a_call_is_its_body_with_numbers_for_parameters hd hlen ⟨3, true⟩ 3 m
  intro _ _
  refine ⟨Text.whole_ofString _, fun v hv => ?_⟩
  have hok : result = .ok v := hv
  have htext : v.text = ("6" : Text) := by
    rw [hok] at hsix
    exact Option.some.inj hsix
  rw [htext]
  exact Text.whole_ofString _

end BellaLang
