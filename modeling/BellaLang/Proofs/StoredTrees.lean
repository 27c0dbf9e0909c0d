-- Stored trees. The tree of a source file is written beside it as a document, and
-- the document is read back as the same tree, so running the stored tree leaves
-- what running the source leaves.
import BellaLang.Command.Respond
import BellaLang.Proofs.Disks
import BellaLang.Proofs.Documents
import BellaLang.Proofs.Encoding
import BellaLang.Proofs.Reading
import BellaLang.Proofs.Rereading

namespace BellaLang

/-! ## Documents of source trees -/

namespace Node

open Json

theorem toJsonItems_eq_map (nodes : List Node) : toJsonItems nodes = nodes.map toJson := by
  induction nodes with
  | nil => rfl
  | cons node nodes ih => rw [toJsonItems, ih, List.map_cons]

theorem plain_items {nodes : List Node} (h : ∀ n ∈ nodes, Plain n.toJson) :
    Plain (.arr (toJsonItems nodes)) := by
  refine .arr fun item hitem => ?_
  rw [toJsonItems_eq_map] at hitem
  obtain ⟨n, hn, rfl⟩ := List.mem_map.1 hitem
  exact h n hn

/-- The members of a node are its type and the named parts. -/
theorem plain_typed (type : String) (names : List String) {members : List (Text × Json)}
    (hnames : members.map (·.1) = names.map Text.ofString) (hunique : ("type" :: names).Nodup)
    (h : ∀ m ∈ members, Plain m.2) : Plain (typed type members) := by
  have hall : (("type", .str type) :: members : List (Text × Json)).map (·.1) =
      ("type" :: names).map Text.ofString := by
    rw [List.map_cons, List.map_cons, hnames]
  refine .obj ?_ ?_ ?_
  · intro m hm
    have hname := List.mem_map_of_mem (f := (·.1)) hm
    rw [hall] at hname
    obtain ⟨name, _, hname⟩ := List.mem_map.1 hname
    exact ⟨name.toList, hname.symm⟩
  · rw [hall]
    exact hunique.map fun _ _ h => Text.ofString_inj.1 h
  · exact List.forall_mem_cons.2 ⟨.str type.toList, h⟩

theorem plain_string (s : String) : Plain (.str s) := .str s.toList

theorem plain_name {reserved : List Source.Terminal} {name : Text}
    (h : Source.IsName reserved name) : Plain (.str name) := by
  obtain ⟨word, rfl, _⟩ := h
  exact .str word

/-- Expressions of source texts have plain documents: their names are words and their numbers have
no sign. -/
theorem plain_expr {e : Node} (h : e.IsExpr Source.vocabulary) : Plain e.toJson := by
  induction h with
  | numeral hx =>
    obtain ⟨_, spelled, _, rfl⟩ := hx
    have hvalue := Plain.float (unsigned_toNumber spelled)
    exact plain_typed "Numeral" ["value"] rfl (by simp) (by simp [hvalue])
  | booleanLiteral b =>
    exact plain_typed "BooleanLiteral" ["value"] rfl (by simp) (by simp [Plain.bool b])
  | identifier hx =>
    exact plain_typed "Identifier" ["name"] rfl (by simp) (by simp [plain_name hx])
  | unary hop h ih =>
    obtain ⟨u, rfl⟩ := hop
    exact plain_typed "UnaryExpression" ["op", "operand"] rfl (by simp)
      (by simp [plain_string, ih])
  | binary hop hl hr ihl ihr =>
    obtain ⟨b, rfl⟩ := hop
    exact plain_typed "BinaryExpression" ["op", "left", "right"] rfl (by simp)
      (by simp [plain_string, ihl, ihr])
  | call hc h ih =>
    exact plain_typed "CallExpression" ["callee", "args"] rfl (by simp)
      (by simp [plain_name hc, plain_items ih])
  | conditional ht hc ha iht ihc iha =>
    exact plain_typed "ConditionalExpression" ["test", "consequent", "alternate"] rfl (by simp)
      (by simp [iht, ihc, iha])
  | arrayLiteral h ih =>
    exact plain_typed "ArrayLiteral" ["elements"] rfl (by simp) (by simp [plain_items ih])
  | subscript ha hi iha ihi =>
    exact plain_typed "SubscriptExpression" ["array", "index"] rfl (by simp) (by simp [iha, ihi])

theorem plain_block {statements : List Node} (h : ∀ s ∈ statements, Plain s.toJson) :
    Plain (Node.block statements).toJson :=
  plain_typed "Block" ["statements"] rfl (by simp) (by simp [plain_items h])

theorem plain_statement {s : Node} (h : s.IsStatement Source.vocabulary) : Plain s.toJson := by
  induction h with
  | variableDeclaration hx h =>
    exact plain_typed "VariableDeclaration" ["name", "expr"] rfl (by simp)
      (by simp [plain_name hx, plain_expr h])
  | @functionDeclaration x ps body hx hp h =>
    have hparams : Plain (.arr (ps.map .str)) := by
      refine .arr fun item hitem => ?_
      obtain ⟨p, hmem, rfl⟩ := List.mem_map.1 hitem
      exact plain_name (hp p hmem)
    exact plain_typed "FunctionDeclaration" ["name", "params", "body"] rfl (by simp)
      (by simp [plain_name hx, hparams, plain_expr h])
  | assignment hx h =>
    exact plain_typed "Assignment" ["name", "expr"] rfl (by simp)
      (by simp [plain_name hx, plain_expr h])
  | printStatement h =>
    exact plain_typed "PrintStatement" ["expr"] rfl (by simp) (by simp [plain_expr h])
  | whileStatement ht h ih =>
    exact plain_typed "WhileStatement" ["test", "body"] rfl (by simp)
      (by simp [plain_expr ht, plain_block ih])

/-- The document of a tree that was read from a source text comes back as it was written. -/
theorem plain_program {program : Node} (h : program.IsProgram Source.vocabulary) :
    Plain program.toJson := by
  obtain ⟨h⟩ := h
  exact plain_typed "Program" ["block"] rfl (by simp)
    (by simp [plain_block fun s hs => plain_statement (h s hs)])

end Node

namespace Command

/-! ## Arguments -/

section arguments

variable {text : Text}

theorem ne_divider (h : text.head? ≠ some (.char '-')) : text ≠ "--" := by
  rintro rfl
  exact h rfl

/-- What does not start with a minus sign is no option. -/
theorem wordOf_plain (h : text.head? ≠ some (.char '-')) : wordOf text = .ok (.plain text) := by
  have hspellings : ∀ s ∈ Flag.spellings, s.1.head? = some (.char '-') := by decide
  have hnone : Flag.ofSpelling? text = none := by
    rw [Flag.ofSpelling?, Option.map_eq_none_iff, List.find?_eq_none]
    intro s hs heq
    exact h (by rw [← hspellings s hs, of_decide_eq_true heq])
  unfold wordOf
  rw [hnone]
  rcases text with _ | ⟨p, tail⟩
  · rfl
  · have hp : p ≠ .char '-' := by simpa using h
    simp [hp]

theorem wordsOf_plain (h : text.head? ≠ some (.char '-')) : wordsOf [text] = .ok [.plain text] := by
  rw [wordsOf, if_neg (ne_divider h), wordOf_plain h]
  rfl

theorem ofArguments_program (h : text.head? ≠ some (.char '-')) :
    Options.ofArguments [text] = .ok { program := some text } := by
  have hread : Progress.read {} [.plain text] = .ok { options.program := some text } := by
    simp [Progress.read, Progress.finish]
  unfold Options.ofArguments
  rw [wordsOf_plain h]
  simp only [hread]
  rfl

/-- An option that takes a value, and a plain argument as its value. -/
theorem ofArguments_value {spelling : Text} {flag : Flag} {options : Options}
    (hword : wordOf spelling = .ok (.option flag none)) (hne : spelling ≠ "--")
    (hvalue : flag.takesValue = true) (hset : Options.set {} flag (some text) = .ok options)
    (h : text.head? ≠ some (.char '-')) :
    Options.ofArguments [spelling, text] = .ok options := by
  have hwords : wordsOf [spelling, text] = .ok [.option flag none, .plain text] := by
    rw [wordsOf, if_neg hne, hword, wordsOf_plain h]
    rfl
  have htake : ∃ given, Progress.takeValue {} flag text = .ok { options, given } := by
    unfold Progress.takeValue
    rw [if_neg (ne_divider h)]
    simp only [hset]
    rcases flag.rival? with _ | rival
    · exact ⟨[], rfl⟩
    · exact ⟨[flag], rfl⟩
  obtain ⟨given, htake⟩ := htake
  unfold Options.ofArguments
  rw [hwords]
  simp only [Progress.read, hvalue, if_true, htake]
  rfl

theorem ofArguments_emitTree (h : text.head? ≠ some (.char '-')) :
    Options.ofArguments ["--emit-ast", text] = .ok { emitTree := some text } :=
  ofArguments_value rfl (by decide) rfl rfl h

theorem ofArguments_runTree (h : text.head? ≠ some (.char '-')) :
    Options.ofArguments ["--ast", text] = .ok { runTree := some text } :=
  ofArguments_value rfl (by decide) rfl rfl h

end arguments

/-! ## Files -/

/-- A file that a text names, with its bytes. -/
structure FileAt (disk : Disk) (p : Text) (bytes : List Nat) : Prop where
  name : Path.NamesFile p
  entry : disk (.ofText p) = some (.file bytes)

/-- The text of the file in which the tree of a source file is stored. -/
def treeText (p : Text) : Text := p ++ ".ast.json"

theorem FileAt.ofText_treeText {disk : Disk} {p : Text} {bytes : List Nat}
    (h : FileAt disk p bytes) : Path.ofText (treeText p) = treeFile (.ofText p) :=
  Path.ofText_append h.name ".ast.json" (by decide) (by decide)

/-- No file stands at the empty path. -/
theorem FileAt.ne_nil {disk : Disk} {p : Text} {bytes : List Nat} (h : FileAt disk p bytes) :
    p ≠ [] := by
  rintro rfl
  exact (h.name [] rfl).1 rfl

section reading

variable {disk : Disk} {path : Path} {cs : List Char} {program : Node}

/-- A file of text is read with its line ends unified. -/
theorem readText_eq {bytes : List Nat} (hentry : disk path = some (.file bytes))
    (hdecode : Text.decode bytes = .ok cs) : readText disk path = .ok (Text.unifyLines cs) := by
  unfold readText
  rw [hentry]
  simp only [hdecode]

theorem readProgram_eq {bytes : List Nat} (hentry : disk path = some (.file bytes))
    (hdecode : Text.decode bytes = .ok cs)
    (hparse : Source.parse (.ofChars (Text.unifyLines cs)) = .ok program) :
    readProgram disk path = .ok program := by
  simp only [readProgram, readText_eq hentry hdecode, bind, Except.bind, hparse]
  rfl

/-- The document of a tree is read from the text that is written for it. -/
theorem read_document (hplain : Json.Plain program.toJson) :
    Json.read (Text.unifyLines (program.toJson.write .indented).toList) = .ok program.toJson := by
  have hwrite : (program.toJson.write .indented).toList =
      Json.writeAt .indented 0 program.toJson := by
    rw [Json.write, String.toList_ofList]
  rw [hwrite, Text.unifyLines_of_not_mem (Json.return_not_mem_writeAt hplain 0),
    Json.read_writeAt Json.blank_indented hplain]

theorem readTree_of_plain (hplain : Json.Plain program.toJson)
    (hentry : disk path = some (.file (Text.encode (program.toJson.write .indented).toList))) :
    readTree disk path = .ok program := by
  simp only [readTree, readText_eq hentry (Text.decode_encode _), bind, Except.bind,
    read_document hplain, Node.ofJson_toJson]
  rfl

/-- The tree of a source text is read from the bytes of the document written for it. -/
theorem readTree_eq (hp : program.IsProgram Source.vocabulary)
    (hentry : disk path = some (.file (Text.encode (program.toJson.write .indented).toList))) :
    readTree disk path = .ok program :=
  readTree_of_plain (Node.plain_program hp) hentry

end reading

/-! ## The command -/

section command

variable {disk : Disk} {p : Text} {program : Node}

theorem given_some (h : p ≠ []) : given (some p) = some p := by
  simp [given, h]

theorem perform_program (hne : p ≠ []) (hread : readProgram disk (.ofText p) = .ok program) :
    perform disk { program := some p } = runReport disk 0 program := by
  unfold perform
  simp only [given_some hne]
  change (do
    let program ← readProgram disk (.ofText p)
    runReport disk 0 program) = _
  rw [hread]
  rfl

/-- A tree file is read and its tree is run without a trace. -/
theorem perform_tree (hne : p ≠ []) :
    perform disk { runTree := some p } = (do
      let tree ← readTree disk (.ofText p)
      runReport disk 0 tree) := by
  unfold perform
  simp only [given_some hne]
  rfl

theorem perform_runTree (hne : p ≠ []) (hread : readTree disk (.ofText p) = .ok program) :
    perform disk { runTree := some p } = runReport disk 0 program := by
  rw [perform_tree hne, hread]
  rfl

theorem perform_emitTree (hne : p ≠ []) :
    perform disk { emitTree := some p } = emitReport disk (.ofText p) := by
  unfold perform
  simp only [given_some hne]
  rfl

/-- Where no directory is in the way, the tree is written and its file is named. -/
theorem emitReport_eq {path : Path} (hread : readProgram disk path = .ok program)
    (hfree : disk (treeFile path) ≠ some .directory) :
    emitReport disk path = .ok {
      ending := .exit 0
      output := (treeFile path).text ++ "\n"
      writes := [(treeFile path, program.toJson.write .indented)] } := by
  have hcheck : checkWritable disk (treeFile path) = .ok () := by
    unfold checkWritable
    split
    · rename_i hdirectory
      exact absurd hdirectory hfree
    · rfl
  unfold emitReport
  rw [hread]
  change (do
    checkWritable disk (treeFile path)
    _) = _
  rw [hcheck]
  rfl

/-- The document of a tree stands in the tree file of a source file. -/
def HoldsTree (disk : Disk) (p : Text) (program : Node) : Prop :=
  disk (.ofText (treeText p)) =
    some (.file (Text.encode (program.toJson.write .indented).toList))

/-- Storing a tree and running it is as good as running its source. -/
structure RunsAsStored (disk : Disk) (p : Text) (program : Node) : Prop where
  /-- Storing the tree ends well, names the tree file and writes the document to it. -/
  stored : respond disk ["--emit-ast", p] = {
    ending := .exit 0
    output := (Path.ofText (treeText p)).text ++ "\n"
    writes := [(.ofText (treeText p), program.toJson.write .indented)] }
  /-- Among files in directories, the document is there once it is written. -/
  written : ∀ files : Files, disk = files.disk →
    HoldsTree (files.write (.ofText (treeText p)) (program.toJson.write .indented)).disk p program
  /-- Wherever the document is, it is read as the tree, down to the bits of its numerals. -/
  reread : ∀ after, HoldsTree after p program →
    readTree after (.ofText (treeText p)) = .ok program
  /-- Wherever the document is, running it leaves what running the source leaves. -/
  rerun : ∀ after, HoldsTree after p program →
    respond after ["--ast", treeText p] = respond disk [p]

theorem head_treeText (h : p.head? ≠ some (.char '-')) (hne : p ≠ []) :
    (treeText p).head? ≠ some (.char '-') := by
  obtain ⟨first, tail, rfl⟩ := List.exists_cons_of_ne_nil hne
  exact h

/-- The tree of a source file comes back from the file in which it is stored, whatever it is the
tree of, and running it leaves the same texts and the same status as running the source. Only a
directory in the place of the tree file prevents it from being stored. An infinite numeral is
stored as a word of its own. -/
theorem a_stored_tree_runs_as_its_source {bytes : List Nat} {text : List Char}
    (hfile : FileAt disk p bytes) (hplain : p.head? ≠ some (.char '-'))
    (hdecode : Text.decode bytes = .ok text)
    (hparse : Source.parse (.ofChars (Text.unifyLines text)) = .ok program)
    (hfree : disk (.ofText (treeText p)) ≠ some .directory) :
    RunsAsStored disk p program ∧ Json.write .indented (.float .infinity) = "Infinity" := by
  have hpath := hfile.ofText_treeText
  have hread := readProgram_eq hfile.entry hdecode hparse
  have htree := head_treeText hplain hfile.ne_nil
  have hne : treeText p ≠ [] := fun h => hfile.ne_nil (List.append_eq_nil_iff.1 h).1
  have hreread : ∀ after, HoldsTree after p program →
      readTree after (.ofText (treeText p)) = .ok program := fun after hafter =>
    readTree_eq (Source.parse_isProgram hparse) hafter
  refine ⟨⟨?_, ?_, hreread, ?_⟩, rfl⟩
  · unfold respond
    rw [ofArguments_emitTree hplain]
    simp only [perform_emitTree hfile.ne_nil]
    rw [hpath] at hfree ⊢
    rw [emitReport_eq hread hfree]
  · rintro files rfl
    rw [hpath] at hfree
    rw [HoldsTree, hpath]
    exact Files.disk_write_extend hfile.entry (by decide) hfree _
  · intro after hafter
    unfold respond
    rw [ofArguments_runTree htree, ofArguments_program hplain]
    simp only [perform_runTree hne (hreread after hafter), perform_program hfile.ne_nil hread]
    rfl

/-- A file with a numeral beyond all finite numbers, one that no double is equal to, and an
operation that fails. -/
theorem a_stored_tree_runs_as_its_source_of_an_infinite_numeral :
    let bytes := Text.encode "print 1e999 print -0.1 < [true]".toList
    let disk := Files.disk [(["p"], bytes)]
    let program : Node := .program (.block [.printStatement (.numeral .infinity),
      .printStatement (.binary (.str "<") (.unary (.str "-") (.numeral 0.1))
        (.arrayLiteral [.booleanLiteral true]))])
    FileAt disk "p" bytes ∧ disk (.ofText (treeText "p")) = none ∧
      RunsAsStored disk "p" program := by
  intro bytes disk program
  have hfile : FileAt disk "p" bytes := ⟨by decide, by rfl⟩
  have hfree : disk (.ofText (treeText "p")) = none := by rfl
  have hdecode : Text.decode bytes = .ok "print 1e999 print -0.1 < [true]".toList :=
    Text.decode_encode _
  have hparse : Source.parse (.ofChars (Text.unifyLines "print 1e999 print -0.1 < [true]".toList)) =
      .ok program := by
    have hinfinity : Number.Spelled.toNumber ⟨[1], [], some 999⟩ = .infinity := by decide +kernel
    simp only [program, ← hinfinity]
    with_unfolding_all rfl
  exact ⟨hfile, hfree,
    (a_stored_tree_runs_as_its_source hfile (by decide) hdecode hparse (by rw [hfree]; simp)).1⟩

/-- With a directory in the place of the tree file the tree of a source file is not stored. -/
theorem a_directory_prevents_storing :
    let bytes := Text.encode "print 1".toList
    let disk := Files.disk [(["p"], bytes), (["p.ast.json", "x"], [])]
    let program : Node := .program (.block [.printStatement (.numeral 1.0)])
    FileAt disk "p" bytes ∧ Text.decode bytes = .ok "print 1".toList ∧
      Source.parse (.ofChars (Text.unifyLines "print 1".toList)) = .ok program ∧
      ¬ RunsAsStored disk "p" program := by
  intro bytes disk program
  refine ⟨⟨by decide, by rfl⟩, Text.decode_encode _, by with_unfolding_all rfl, ?_⟩
  intro h
  have hwrites := congrArg Report.writes h.stored
  have hnone : (respond disk ["--emit-ast", "p"]).writes = [] := by
    with_unfolding_all rfl
  rw [hnone] at hwrites
  cases hwrites

end command

end Command

end BellaLang
