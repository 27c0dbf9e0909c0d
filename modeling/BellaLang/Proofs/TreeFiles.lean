-- What the command says of a tree file. Whatever text the file holds, the command reports
-- what is wrong with the text, or how the run of its tree ended. It does not report a defect
-- of the tree that the run comes upon and, before there is a tree, a numeral beyond all numbers
-- and a text that is nested too deeply for the host.
import BellaLang.Proofs.Leading
import BellaLang.Proofs.StoredTrees

namespace BellaLang

/-! ## Runs without a trace -/

section untraced

variable {t : Tracing}

theorem Note.level_pos (n : Note) : 0 < n.level := by
  cases n <;> exact Nat.succ_pos _

/-- Without a trace no note is refused. -/
theorem answer_note_untraced (ht : t.level = 0) (n : Note) (s : Store) :
    (Action.note t n).answer s = .ok () := by
  apply answer_note
  intro hlevel
  have hpos := n.level_pos
  omega

theorem answer_noteDefined_untraced (ht : t.level = 0) (name : Json) (params : List Json)
    (s : Store) : (noteDefined t name params).answer s = .ok () := by
  unfold noteDefined
  rw [if_neg]
  · rfl
  · simp [Tracing.takes, Note.level, ht]

end untraced

/-! ## The defects that a run comes upon -/

/-- The stop is for none but the given defects, and only a loop goes on for too long. -/
def Stop.Accounted (defects : List Defect) (loops : Prop) : Stop → Prop
  | .fault _ => True
  | .defect d => d ∈ defects
  | .tooDeep => True
  | .outOfFuel => loops

section accounted

variable {defects : List Defect} {loops : Prop}

theorem admits_accounted {ds : List Defect} (h : ds ⊆ defects) :
    Admits (Stop.Accounted defects loops) ds :=
  ⟨fun _ => trivial, fun _ hd => h hd⟩

theorem subset_of_admits {ds : List Defect} (h : Admits (Stop.Accounted defects loops) ds) :
    ds ⊆ defects :=
  fun d hd => h.defect d hd

/-- The defects of a function, those of its parameters among them, are among the given ones. -/
def Function.DefectsAmong (defects : List Defect) (f : Function) : Prop :=
  f.params.flatMap nameDefects ⊆ defects ∧ f.body.exprDefects ⊆ defects

theorem returns_untraced_call {t : Tracing} (ht : t.level = 0) (depth : Nat) {s : Store}
    (hs : s.EachFunction fun _ f => f.DefectsAmong defects) {k : Key} {f : Function}
    (hf : s.globals.find? k = some (.function f)) (args : List Value) :
    Walk.Returns s (fun _ => True) (Stop.Accounted defects loops) (fun _ => True)
      (followCall t depth f args) := by
  have hnote : ∀ n s, StopsOnly (Stop.Accounted defects loops) ((Action.note t n).answer s) := by
    intro n s
    rw [answer_note_untraced ht]
    exact stopsOnly_ok ()
  induction depth generalizing s k f args with
  | zero => exact Walk.leads_stop (fun _ _ => trivial) trivial
  | succ depth ih =>
    obtain ⟨hparams, hbody⟩ := hs k f hf
    apply returns_followCall trivial (fun _ => trivial) (fun n => hnote n s)
      (admits_accounted hparams)
    intro frame
    apply returns_followWith trivial (fun n => hnote n _) (admits_accounted hbody)
    intro k' _ g args' hg
    exact ih (s := s.push frame) hs hg args'

theorem steady_untraced {settings : Settings} (ht : settings.level = 0) :
    Steady settings (fun _ f => f.DefectsAmong defects) (fun _ => True)
      (Stop.Accounted defects loops) where
  way _ _ := trivial
  note n s := by
    rw [answer_note_untraced ht]
    exact stopsOnly_ok ()
  noteDefined name params s := by
    rw [answer_noteDefined_untraced ht]
    exact stopsOnly_ok ()
  value expr hdefects := by
    have hreturns : ∀ s : Store, s.AtTop (fun _ f => f.DefectsAmong defects) →
        Walk.Returns s (fun _ => True) (Stop.Accounted defects loops) (fun _ => True)
          (followValue settings expr) := by
      intro s hs
      apply returns_followWith trivial _ hdefects
      · intro k _ f args hf
        exact returns_untraced_call ht settings.depth hs.functions hf args
      · intro n
        rw [answer_note_untraced ht]
        exact stopsOnly_ok ()
    exact Walk.leads_of_returns hreturns (fun _ _ _ _ => trivial) fun _ h => h

theorem declarable_of_defects (node : Node) :
    Declarable (fun _ f => f.DefectsAmong defects) (Stop.Accounted defects loops) node := by
  intro name params body key _ _ hdefects
  have hsub := subset_of_admits hdefects
  constructor
  · intro d hd
    exact hsub (by simp [Node.statementDefects, hd])
  · intro d hd
    exact hsub (by simp [Node.statementDefects, hd])

/-- A run without a trace comes upon no defect but those of its program, and where there is no
loop it comes to an end. -/
theorem run_accounted {settings : Settings} (ht : settings.level = 0) (program : Node) :
    StopsOnly (Stop.Accounted program.programDefects (¬ program.LoopFree))
      (run settings program).1 := by
  have hled := leads_walkRun (steady_untraced ht) (declarable_of_defects program)
    (admits_accounted (List.Subset.refl _)) (fun hloop => hloop) .start (atTop_empty _)
  have hstop := hled.stop
  rw [tracks_walkRun] at hstop
  exact hstop

end accounted

/-! ## Nested texts -/

theorem Json.le_deepest (depth : Nat) (quoted : Bool) (cs : List Char) :
    depth ≤ deepest depth quoted cs := by
  fun_induction deepest depth quoted cs <;> omega

/-- Each open bracket is a character of the text. -/
theorem Json.deepest_le (depth : Nat) (quoted : Bool) (cs : List Char) :
    deepest depth quoted cs ≤ depth + cs.length := by
  fun_induction deepest depth quoted cs <;> simp only [List.length_cons, List.length_nil] <;> omega

theorem Json.nesting_le_length (text : List Char) : nesting text ≤ text.length := by
  have hle := deepest_le 0 false text
  rwa [Nat.zero_add] at hle

theorem Json.nesting_pos (rest : List Char) : 0 < nesting ('\x7b' :: rest) :=
  le_deepest 1 false rest

/-- What stands in a string is not nested. -/
example : Json.nesting "[[\"a]]\\\"[[[\"], \x7b\x7d]".toList = 2 := by decide

namespace Command

/-! ## Reports -/

/-- How the command ends after the run of a program, and what it says of the run. -/
inductive RunEnds (program : Node) : Ending → Text → Prop
  | finished (h : (run {} program).1 = .ok ()) : RunEnds program (.exit 0) []
  | fault {f : Fault} (h : (run {} program).1 = .error (.fault f)) :
      RunEnds program (.exit 1) ("Runtime error: " ++ (f.kind.name ++ ": " ++ f.detail) ++ "\n")
  | tooDeep (h : (run {} program).1 = .error .tooDeep) :
      RunEnds program (.exit 2) "Fatal error: maximum recursion depth exceeded\n"
  /-- The run came upon a defect that the program has. -/
  | defect {d : Defect} (h : (run {} program).1 = .error (.defect d))
      (hmem : d ∈ program.programDefects) : RunEnds program (.crash (.defect d)) []
  /-- The program has a loop, and its run did not end. -/
  | unended (h : (run {} program).1 = .error .outOfFuel) (hloop : ¬ program.LoopFree) :
      RunEnds program (.crash .outOfFuel) []

/-- What the command says of a document that it is to run as a tree. There is no report if the host
runs out of room before there is a tree to run. -/
inductive TreeReport (host : Host) (document : List Char) : Option Report → Prop
  | exhausted (hnested : host.room < Json.nesting document) : TreeReport host document none
  | notJson {e : Json.Refusal} (hread : Json.read document = .error e) :
      TreeReport host document
        (some (.failure 1 ("Error: invalid AST file: " ++ e.message document)))
  | notTree {json : Json} {e : Malformed} (hread : Json.read document = .ok json)
      (htree : Node.ofJson json = .error e) (hne : e ≠ .tooLarge) :
      TreeReport host document (some (.failure 1 ("Error: invalid AST file: " ++ e.message)))
  | numeralTooLarge {json : Json} (hread : Json.read document = .ok json)
      (htree : Node.ofJson json = .error .tooLarge) :
      TreeReport host document (some (.ofCrash .numeralTooLarge))
  | ran {json : Json} {program : Node} {ending : Ending} {errors : Text}
      (hread : Json.read document = .ok json) (htree : Node.ofJson json = .ok program)
      (hends : RunEnds program ending errors) :
      TreeReport host document
        (some { ending, errors, output := unlines (run {} program).2.printed })

section reports

variable {disk : Disk} {path : Path} {document : List Char}

/-- However a run ends, there is a report that says so and shows what was printed. -/
theorem runReport_eq (disk : Disk) (program : Node) :
    ∃ ending errors, RunEnds program ending errors ∧
      runReport disk 0 program =
        .ok { ending, errors, output := unlines (run {} program).2.printed } := by
  have haccounted := run_accounted (show ({} : Settings).level = 0 from rfl) program
  unfold runReport
  rcases hr : run {} program with ⟨e | u, m⟩ <;> rw [hr] at haccounted
  · have he := haccounted e rfl
    cases e with
    | fault f => exact ⟨_, _, .fault (congrArg Prod.fst hr), rfl⟩
    | defect d => exact ⟨_, _, .defect (congrArg Prod.fst hr) he, rfl⟩
    | tooDeep => exact ⟨_, _, .tooDeep (congrArg Prod.fst hr), rfl⟩
    | outOfFuel => exact ⟨_, _, .unended (congrArg Prod.fst hr) he, rfl⟩
  · exact ⟨_, _, .finished (congrArg Prod.fst hr), rfl⟩

/-- A text is read as a tree, or the report says why it is none. -/
theorem readTree_cases (host : Host) (htext : readText disk path = .ok document) :
    (∃ report, readTree disk path = .error report ∧ TreeReport host document (some report)) ∨
      ∃ json program, Json.read document = .ok json ∧ Node.ofJson json = .ok program ∧
        readTree disk path = .ok program := by
  rcases hread : Json.read document with e | json
  · left
    refine ⟨_, ?_, .notJson hread⟩
    simp only [readTree, htext, bind, Except.bind, hread]
  rcases htree : Node.ofJson json with e | program
  · left
    by_cases he : e = .tooLarge
    · subst he
      refine ⟨_, ?_, .numeralTooLarge hread htree⟩
      simp only [readTree, htext, bind, Except.bind, hread, htree]
    · refine ⟨_, ?_, .notTree hread htree he⟩
      simp only [readTree, htext, bind, Except.bind, hread, htree]
  · right
    refine ⟨json, program, rfl, htree, ?_⟩
    simp only [readTree, htext, bind, Except.bind, hread, htree]
    rfl

theorem respond_of_runReport {p : Text} {program : Node} {report : Report}
    (hargs : Options.ofArguments ["--ast", p] = .ok { runTree := some p }) (hne : p ≠ [])
    (hread : readTree disk (.ofText p) = .ok program)
    (hrun : runReport disk 0 program = .ok report) : respond disk ["--ast", p] = report := by
  simp only [respond, hargs, perform_runTree hne hread, hrun]

theorem treeDocument?_eq {p : Text}
    (hargs : Options.ofArguments ["--ast", p] = .ok { runTree := some p }) (hne : p ≠ [])
    (htext : readText disk (.ofText p) = .ok document) :
    treeDocument? disk ["--ast", p] = some document := by
  have hnone : given none = none := rfl
  simp only [treeDocument?, hargs, checkLimit, given_some hne, hnone, htext]
  rfl

/-- A host has room for every document that is nested no deeper than there is room for. -/
theorem respondOn_of_nesting_le {host : Host} {arguments : List Text}
    (hdocument : treeDocument? disk arguments = some document)
    (hle : Json.nesting document ≤ host.room) :
    respondOn host disk arguments = some (respond disk arguments) := by
  have hroom : ¬ host.exhaustedBy document = true := fun hexhausted =>
    absurd (host.nested document hexhausted) (by omega)
  rw [respondOn, hdocument, Option.any_some, if_neg hroom]

end reports

/-- The command says of every text in a tree file what is wrong with it, or how the run of its tree
ended; nothing is run if the text is no tree. It leaves to others what the run comes upon of the
defects of the tree: nodes of a wrong sort for their place, and names that cannot be names. So a
tree without such defects is run to its end or to a fault. Before there is a tree, it leaves to
others a numeral beyond all numbers, and a text that is nested too deeply for the host. -/
theorem a_tree_file_is_reported_but_for_defects {host : Host} {disk : Disk} {p : Text}
    {bytes : List Nat} {text : List Char}
    (hargs : Options.ofArguments ["--ast", p] = .ok { runTree := some p }) (hne : p ≠ [])
    (hentry : disk (.ofText p) = some (.file bytes)) (hdecode : Text.decode bytes = .ok text) :
    TreeReport host (Text.unifyLines text) (respondOn host disk ["--ast", p]) := by
  have htext := readText_eq hentry hdecode
  have hdocument := treeDocument?_eq hargs hne htext
  by_cases hexhausted : host.exhaustedBy (Text.unifyLines text) = true
  · rw [respondOn, hdocument, Option.any_some, if_pos hexhausted]
    exact .exhausted (host.nested _ hexhausted)
  rw [respondOn, hdocument, Option.any_some, if_neg hexhausted]
  rcases readTree_cases host htext with
    ⟨report, htree, hreport⟩ | ⟨json, program, hread, hnode, htree⟩
  · simp only [respond, hargs, perform_tree hne, htree]
    exact hreport
  · obtain ⟨ending, errors, hends, hrun⟩ := runReport_eq disk program
    rw [respond_of_runReport hargs hne htree hrun]
    exact .ran hread hnode hends

theorem plain_of_no_items : Json.Plain (.arr []) := .arr (by simp)

theorem entry_of_one (bytes : List Nat) :
    Files.disk [(["t.json"], bytes)] (.ofText "t.json") = some (.file bytes) := by
  rfl

theorem ofArguments_one : Options.ofArguments ["--ast", "t.json"] = .ok { runTree := "t.json" } :=
  ofArguments_runTree (by decide)

/-- A host that runs out of room as soon as a text is nested more deeply than it has room for. -/
def Host.limited (room : Nat) : Host where
  room
  exhaustedBy text := room < Json.nesting text
  nested _ h := of_decide_eq_true h

@[simp] theorem Host.room_limited (room : Nat) : (Host.limited room).room = room := rfl

/-- An expression in the place of a statement stops the run, which has printed a line by then. The
name that cannot be one stands in a body that is never evaluated. A host with no room does not get
to the run. -/
theorem a_tree_file_is_reported_but_for_defects_after_some_output :
    let program : Node := .program (.block [
      .functionDeclaration (.str "f") [.str "x"] (.identifier (.arr [])),
      .printStatement (.booleanLiteral true), .booleanLiteral false])
    let document := (program.toJson.write .indented).toList
    let disk := Files.disk [(["t.json"], Text.encode document)]
    program.programDefects = [.unusableName "list", .notStatement "BooleanLiteral"] ∧
      respondOn (.limited document.length) disk ["--ast", "t.json"] = some {
        ending := .crash (.defect (.notStatement "BooleanLiteral")), output := "true\n" } ∧
      respondOn (.limited 0) disk ["--ast", "t.json"] = none ∧
      ∀ room, TreeReport (.limited room) (Text.unifyLines document)
        (respondOn (.limited room) disk ["--ast", "t.json"]) := by
  intro program document disk
  have hplain : Json.Plain program.toJson := by
    have hname : Json.Plain (Node.identifier (.arr [])).toJson :=
      Node.plain_typed "Identifier" ["name"] rfl (by simp) (by simp [plain_of_no_items])
    have hboolean : ∀ b, Json.Plain (Node.booleanLiteral b).toJson := fun b =>
      Node.plain_typed "BooleanLiteral" ["value"] rfl (by simp) (by simp [Json.Plain.bool b])
    have hprint : Json.Plain (Node.printStatement (.booleanLiteral true)).toJson :=
      Node.plain_typed "PrintStatement" ["expr"] rfl (by simp) (by simp [hboolean])
    have hparams : Json.Plain (.arr [.str "x"]) := .arr (by simp [Node.plain_string "x"])
    have hfunction : Json.Plain
        (Node.functionDeclaration (.str "f") [.str "x"] (.identifier (.arr []))).toJson :=
      Node.plain_typed "FunctionDeclaration" ["name", "params", "body"] rfl (by simp)
        (by simp [Node.plain_string "f", hparams, hname])
    have hblock := Node.plain_block (show ∀ s ∈ [
        Node.functionDeclaration (.str "f") [.str "x"] (.identifier (.arr [])),
        .printStatement (.booleanLiteral true), .booleanLiteral false],
      Json.Plain s.toJson by simp [hfunction, hprint, hboolean])
    exact Node.plain_typed "Program" ["block"] rfl (by simp) (by simp [hblock])
  have hread := readTree_of_plain hplain (entry_of_one _)
  have hrun : ∀ disk, runReport disk 0 program = .ok {
      ending := .crash (.defect (.notStatement "BooleanLiteral")), output := "true\n" } :=
    fun _ => by with_unfolding_all rfl
  have hwrite : document = Json.writeAt .indented 0 program.toJson := String.toList_ofList
  have hunified : Text.unifyLines document = document := by
    rw [hwrite, Text.unifyLines_of_not_mem (Json.return_not_mem_writeAt hplain 0)]
  have hdocument := treeDocument?_eq ofArguments_one (by decide)
    (readText_eq (entry_of_one (Text.encode document)) (Text.decode_encode _))
  rw [hunified] at hdocument
  refine ⟨by decide, ?_, ?_, fun room => ?_⟩
  · have hroom : Json.nesting document ≤ (Host.limited document.length).room := by
      rw [Host.room_limited]
      exact Json.nesting_le_length document
    rw [respondOn_of_nesting_le hdocument hroom,
      respond_of_runReport ofArguments_one (by decide) hread (hrun _)]
  · obtain ⟨rest, hrest⟩ : ∃ rest, document = '\x7b' :: rest := ⟨_, hwrite.trans rfl⟩
    have hexhausted : (Host.limited 0).exhaustedBy document = true := by
      rw [hrest]
      exact decide_eq_true (Json.nesting_pos rest)
    rw [respondOn, hdocument, Option.any_some, if_pos hexhausted]
  · exact a_tree_file_is_reported_but_for_defects ofArguments_one (by decide) (entry_of_one _)
      (Text.decode_encode _)

/-- A tree file is not always reported: a block in the place of a program is left to others. -/
theorem a_block_in_a_tree_file_is_not_reported :
    let document := "\x7b\n  \"type\": \"Block\",\n  \"statements\": []\n\x7d"
    let disk := Files.disk [(["t.json"], Text.encode document.toList)]
    Text.decode (Text.encode document.toList) = .ok document.toList ∧
      Json.read document.toList = .ok (Node.block []).toJson ∧
      respond disk ["--ast", "t.json"] = .ofCrash (.defect (.notProgram "Block")) ∧
      ∀ status, (respond disk ["--ast", "t.json"]).ending ≠ .exit status := by
  intro document disk
  have hplain : Json.Plain (Node.block []).toJson := Node.plain_block (by simp)
  have hdocument : document = (Node.block []).toJson.write .indented := by
    with_unfolding_all rfl
  have hunified : Text.unifyLines document.toList = document.toList :=
    Text.unifyLines_of_not_mem (by decide)
  have hrespond : respond disk ["--ast", "t.json"] = .ofCrash (.defect (.notProgram "Block")) := by
    have hentry := entry_of_one (Text.encode document.toList)
    have hread := readTree_of_plain hplain (hdocument ▸ hentry)
    have hrun : ∀ disk, runReport disk 0 (.block []) =
        .ok (.ofCrash (.defect (.notProgram "Block"))) := fun _ => by with_unfolding_all rfl
    exact respond_of_runReport ofArguments_one (by decide) hread (hrun _)
  refine ⟨Text.decode_encode _, ?_, hrespond, ?_⟩
  · have hread := read_document hplain
    rwa [← hdocument, hunified] at hread
  · intro status h
    rw [hrespond] at h
    cases h

end Command

end BellaLang
