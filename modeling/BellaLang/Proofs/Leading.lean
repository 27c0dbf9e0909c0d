-- Where a walk leads and how it stops. A walk leads from stores with a property back to
-- such stores, through stores with another one, and it stops only for given reasons; if
-- that holds of the steps and of the calls, it holds of expressions and of whole runs.
import BellaLang.Proofs.CallGraph
import BellaLang.Proofs.Defects
import BellaLang.Proofs.Namespace
import BellaLang.Proofs.Walk

namespace BellaLang

/-! ## Reasons to stop -/

/-- A step without a result stopped for one of the given reasons. -/
def StopsOnly (E : Stop → Prop) {α : Type} (x : Except Stop α) : Prop := ∀ e, x = .error e → E e

/-- The reasons allow every fault and the given defects. -/
structure Admits (E : Stop → Prop) (defects : List Defect) : Prop where
  fault : ∀ f, E (.fault f)
  defect : ∀ d ∈ defects, E (.defect d)

theorem Admits.mono {E : Stop → Prop} {ds ds' : List Defect} (h : Admits E ds) (hsub : ds' ⊆ ds) :
    Admits E ds' :=
  ⟨h.fault, fun d hd => h.defect d (hsub hd)⟩

section stops

variable {α β : Type} {E : Stop → Prop} {name : Json} {s : Store}

theorem stopsOnly_ok (a : α) : StopsOnly E (.ok a) := fun _ h => by cases h

theorem stopsOnly_error {e : Stop} (he : E e) : StopsOnly E (.error e : Except Stop α) := by
  intro e' h
  cases h
  exact he

theorem stopsOnly_bind {x : Except Stop α} {f : α → Except Stop β} (hx : StopsOnly E x)
    (hf : ∀ a, StopsOnly E (f a)) : StopsOnly E (x >>= f) := by
  rcases x with e | a
  · exact stopsOnly_error (hx e rfl)
  · exact hf a

theorem stopsOnly_map {x : Except Stop α} (hx : StopsOnly E x) (f : α → β) :
    StopsOnly E (x.map f) := by
  rcases x with e | a
  · exact stopsOnly_error (hx e rfl)
  · exact stopsOnly_ok _

theorem stopsOnly_ofExcept (hfault : ∀ f, E (.fault f)) (result : Except Fault α) (s : Store) :
    StopsOnly E ((Action.ofExcept result).answer s) := by
  rcases result with f | a
  · exact stopsOnly_error (hfault f)
  · exact stopsOnly_ok a

/-- A name is refused as a defect of its own. -/
theorem stopsOnly_keyOf (h : Admits E (nameDefects name)) : StopsOnly E (keyOf name) := by
  unfold keyOf
  split
  · exact stopsOnly_ok _
  · rename_i hkey
    exact stopsOnly_error (h.defect _ (mem_nameDefects hkey))

theorem stopsOnly_get (h : Admits E (nameDefects name)) (s : Store) :
    StopsOnly E (s.get name) := by
  apply stopsOnly_bind (stopsOnly_keyOf h)
  intro key
  split
  · exact stopsOnly_ok _
  · split
    · exact stopsOnly_error (h.fault _)
    · exact stopsOnly_error (h.fault _)
    · exact stopsOnly_ok _

theorem stopsOnly_getFunction (h : Admits E (nameDefects name)) (s : Store) :
    StopsOnly E (s.getFunction name) := by
  apply stopsOnly_bind (stopsOnly_keyOf h)
  intro key
  split
  · exact stopsOnly_ok _
  · exact stopsOnly_error (h.fault _)

theorem stopsOnly_bindAll {params : List Json} (h : Admits E (params.flatMap nameDefects))
    (scope : Scope) (args : List Value) : StopsOnly E (scope.bindAll params args) := by
  fun_induction Scope.bindAll scope params args with
  | case1 scope param params arg args ih =>
    rw [List.flatMap_cons] at h
    apply stopsOnly_bind (stopsOnly_keyOf (h.mono (List.subset_append_left _ _)))
    intro key
    exact ih key (h.mono (List.subset_append_right _ _))
  | case2 => exact stopsOnly_ok _

theorem stopsOnly_checkParams {params : List Json} (h : Admits E (params.flatMap nameDefects))
    (function : Json) (seen : List Key) :
    StopsOnly E (Store.checkParams function seen params) := by
  induction params generalizing seen with
  | nil => exact stopsOnly_ok _
  | cons param params ih =>
    rw [List.flatMap_cons] at h
    rw [Store.checkParams]
    apply stopsOnly_bind (stopsOnly_keyOf (h.mono (List.subset_append_left _ _)))
    intro key
    split
    · exact stopsOnly_error (h.fault _)
    · exact ih (h.mono (List.subset_append_right _ _)) _

theorem stopsOnly_declareVariable (h : Admits E (nameDefects name)) (v : Value) (s : Store) :
    StopsOnly E (s.declareVariable name v) := by
  apply stopsOnly_bind (stopsOnly_keyOf h)
  intro key
  split
  · exact stopsOnly_error (h.fault _)
  · exact stopsOnly_ok _

/-- A taken name and a repeated parameter are faults; the rest are defects of the names. -/
theorem stopsOnly_declareFunction {params : List Json} (h : Admits E (nameDefects name))
    (hparams : Admits E (params.flatMap nameDefects)) (body : Node) (s : Store) :
    StopsOnly E (s.declareFunction name params body) := by
  apply stopsOnly_bind (stopsOnly_keyOf h)
  intro key
  split
  · exact stopsOnly_error (h.fault _)
  · exact stopsOnly_bind (stopsOnly_checkParams hparams name []) fun _ => stopsOnly_ok _

theorem stopsOnly_assign (h : Admits E (nameDefects name)) (v : Value) (s : Store) :
    StopsOnly E (s.assign name v) := by
  apply stopsOnly_bind (stopsOnly_keyOf h)
  intro key
  split
  · exact stopsOnly_error (h.fault _)
  · exact stopsOnly_error (h.fault _)
  · exact stopsOnly_ok _

end stops

/-! ## Where walks lead -/

namespace Walk

section leads

variable {α β : Type} {I W : Store → Prop} {E : Stop → Prop} {Q : α → Prop} {R : β → Prop}

/-- A walk has led from a store to one with a given property, through stores with another one; it
came to a result that meets the condition, or stopped for one of the given reasons. -/
structure Led (I W : Store → Prop) (E : Stop → Prop) (Q : α → Prop)
    (walked : (Except Stop α × Machine) × List Store) : Prop where
  way : ∀ s ∈ walked.2, W s
  store : I walked.1.2.store
  result : ∀ a, walked.1.1 = .ok a → Q a
  stop : StopsOnly E walked.1.1

/-- The walk leads from every store with a property back to such stores. -/
def Leads (I W : Store → Prop) (E : Stop → Prop) (Q : α → Prop) (w : Walk α) : Prop :=
  ∀ m, I m.store → Led I W E Q (w m)

/-- A walk that comes back to the store it started in. -/
abbrev Returns (s : Store) (W : Store → Prop) (E : Stop → Prop) (Q : α → Prop) (w : Walk α) :
    Prop := Leads (· = s) W E Q w

/-- A walk that leads somewhere leads to whatever that is among. -/
theorem Leads.mono {w : Walk α} {W' : Store → Prop} {E' : Stop → Prop} {Q' : α → Prop}
    (h : Leads I W E Q w) (hway : ∀ s, W s → W' s) (hstop : ∀ e, E e → E' e)
    (hresult : ∀ a, Q a → Q' a) : Leads I W' E' Q' w := by
  intro m hm
  have hled := h m hm
  exact ⟨fun s hs => hway s (hled.way s hs), hled.store, fun a ha => hresult a (hled.result a ha),
    fun e he => hstop e (hled.stop e he)⟩

theorem Leads.any {w : Walk α} (h : Leads I W E Q w) : Leads I W E (fun _ => True) w :=
  h.mono (fun _ h => h) (fun _ h => h) fun _ _ => trivial

/-- A walk that comes back to each of some stores leads from these to these. -/
theorem leads_of_returns {w : Walk α} {W' : Store → Store → Prop} {E' : Stop → Prop}
    (h : ∀ s, I s → Returns s (W' s) E' Q w) (hway : ∀ s s', I s → W' s s' → W s')
    (hstop : ∀ e, E' e → E e) : Leads I W E Q w := by
  intro m hm
  have hled := h m.store hm m rfl
  exact ⟨fun s hs => hway m.store s hm (hled.way s hs), hled.store ▸ hm, hled.result,
    fun e he => hstop e (hled.stop e he)⟩

/-- The way of the second walk is put behind that of the first one. -/
theorem leads_bind {w : Walk α} {next : α → Walk β} (hw : Leads I W E Q w)
    (hn : ∀ a, Q a → Leads I W E R (next a)) : Leads I W E R (w >>= next) := by
  intro m hm
  have hled := hw m hm
  rcases hr : w m with ⟨⟨e | a, m'⟩, way⟩
  · rw [hr] at hled
    rw [bind_error hr]
    refine ⟨hled.way, hled.store, ?_, stopsOnly_error (hled.stop e rfl)⟩
    intro a ha
    cases ha
  · rw [hr] at hled
    rw [bind_ok hr]
    have hnext := hn a (hled.result a rfl) m' hled.store
    refine ⟨?_, hnext.store, hnext.result, hnext.stop⟩
    intro s hs
    exact (List.mem_append.1 hs).elim (hled.way s) (hnext.way s)

/-- A step has one store on its way, the one that it leaves. -/
theorem leads_step {act : Action α} (hway : ∀ s, I s → W s)
    (hstore : ∀ m, I m.store → I (act m).2.store)
    (hresult : ∀ m a, I m.store → (act m).1 = .ok a → Q a)
    (hstop : ∀ m, I m.store → StopsOnly E (act m).1) : Leads I W E Q (step act) := by
  intro m hm
  refine ⟨?_, hstore m hm, fun a => hresult m a hm, hstop m hm⟩
  intro s hs
  rw [List.mem_singleton.1 hs]
  exact hway _ (hstore m hm)

theorem leads_looks (hway : ∀ s, I s → W s) {act : Action α} (hl : Action.Looks act)
    (hresult : ∀ s a, I s → act.answer s = .ok a → Q a)
    (hstop : ∀ s, I s → StopsOnly E (act.answer s)) : Leads I W E Q (step act) := by
  apply leads_step hway
  · intro m hm
    rw [hl.store_eq]
    exact hm
  · intro m a hm ha
    exact hresult m.store a hm ((hl.fst_eq m).symm.trans ha)
  · intro m hm
    rw [hl.fst_eq]
    exact hstop m.store hm

theorem leads_pure (hway : ∀ s, I s → W s) (a : α) :
    Leads I W E (fun _ => True) (step (pure a)) :=
  leads_looks hway (Action.looks_pure a) (fun _ _ _ _ => trivial) fun _ _ => stopsOnly_ok a

theorem leads_fault (hway : ∀ s, I s → W s) (hfault : ∀ f, E (.fault f))
    (result : Except Fault α) : Leads I W E (fun _ => True) (step (Action.ofExcept result)) :=
  leads_looks hway (Action.looks_ofExcept result) (fun _ _ _ _ => trivial) fun s _ =>
    stopsOnly_ofExcept hfault result s

theorem leads_stop (hway : ∀ s, I s → W s) {e : Stop} (he : E e) :
    Leads I W E Q (step (Action.stop e)) :=
  leads_looks hway (Action.looks_stop e) (fun _ _ _ ha => by cases ha) fun _ _ =>
    stopsOnly_error he

theorem leads_update (hway : ∀ s, I s → W s) {g : Store → Except Stop Store}
    (hstore : ∀ s s', I s → g s = .ok s' → I s') (hstop : ∀ s, StopsOnly E (g s)) :
    Leads I W E (fun _ => True) (step (Action.update g)) := by
  apply leads_step hway
  · intro m hm
    rcases hg : g m.store with e | s'
    · simp only [Action.update, hg]
      exact hm
    · simp only [Action.update, hg]
      exact hstore _ _ hm hg
  · exact fun _ _ _ _ => trivial
  · intro m _
    have hg := hstop m.store
    rcases hs : g m.store with e | s'
    · rw [hs] at hg
      simp only [Action.update, hs]
      exact stopsOnly_error (hg e rfl)
    · simp only [Action.update, hs]
      exact stopsOnly_ok ()

/-- A walk that leads from inside a call back to there comes back to the store before the call. -/
theorem returns_inside {s : Store} {w : Walk α} {f : Function} {args : List Value} (hs : W s)
    (hinner : ∀ frame, W (s.push frame)) (hparams : Admits E (f.params.flatMap nameDefects))
    (h : ∀ frame, Returns (s.push frame) W E Q w) : Returns s W E Q (inside f args w) := by
  rintro ⟨s, log⟩ rfl
  have hbind := stopsOnly_bindAll hparams [] args
  rcases hframe : Scope.bindAll [] f.params args with e | frame
  · rw [hframe] at hbind
    simp only [inside, enter_of_bindAll_error hframe]
    refine ⟨?_, rfl, ?_, stopsOnly_error (hbind e rfl)⟩
    · intro s' hs'
      rw [List.mem_singleton.1 hs']
      exact hs
    · intro a ha
      cases ha
  · have hled := h frame ⟨s.push frame, log⟩ rfl
    simp only [inside, enter_of_bindAll hframe]
    rw [hled.store]
    refine ⟨?_, rfl, hled.result, hled.stop⟩
    intro s' hs'
    rcases List.mem_append.1 hs' with hs' | hs'
    · rcases List.mem_cons.1 hs' with rfl | hs'
      · exact hinner frame
      · exact hled.way s' hs'
    · rw [List.mem_singleton.1 hs']
      exact hs

end leads

end Walk

open Walk

/-! ## Where expressions lead -/

section expressions

variable {t : Tracing} {walkF : Function → List Value → Walk Value} {s : Store}
  {W : Store → Prop} {E : Stop → Prop}

theorem returns_note (hs : W s) (hnote : ∀ n, StopsOnly E ((Action.note t n).answer s)) (n : Note) :
    Returns s W E (fun _ => True) (step (Action.note t n)) := by
  apply leads_looks (fun _ h => h ▸ hs) (Action.looks_note t n) fun _ _ _ _ => trivial
  rintro s rfl
  exact hnote n

theorem returns_query {α : Type} (hs : W s) {f : Store → Except Stop α}
    (hstop : StopsOnly E (f s)) : Returns s W E (fun a => f s = .ok a) (step (Action.query f)) := by
  apply leads_looks (fun _ h => h ▸ hs) (Action.looks_query f)
  · rintro s a rfl ha
    exact ha
  · rintro s rfl
    exact hstop

theorem returns_followAllWith (hs : W s) {nodes : List Node}
    (h : ∀ node ∈ nodes, Returns s W E (fun _ => True) (followWith t walkF node)) :
    Returns s W E (fun _ => True) (followAllWith t walkF nodes) := by
  have hway : ∀ s', s' = s → W s' := fun _ h => h ▸ hs
  induction nodes with
  | nil => exact leads_pure hway []
  | cons node nodes ih =>
    rw [followAllWith]
    apply leads_bind (h node (by simp))
    intro value _
    apply leads_bind (ih fun n hn => h n (by simp [hn]))
    intro values _
    exact leads_pure hway _

/-- An expression comes back to its store, and stops for no reason but those of its own defects
and of the functions that it names. -/
theorem returns_followWith (hs : W s) (hnote : ∀ n, StopsOnly E ((Action.note t n).answer s))
    {node : Node} (hdefects : Admits E node.exprDefects)
    (hcall : ∀ k ∈ node.callees, ∀ f args, s.globals.find? k = some (.function f) →
      Returns s W E (fun _ => True) (walkF f args)) :
    Returns s W E (fun _ => True) (followWith t walkF node) := by
  have hway : ∀ s', s' = s → W s' := fun _ h => h ▸ hs
  have hfault := hdefects.fault
  induction node with
  | numeral value => exact leads_pure hway _
  | booleanLiteral value => exact leads_pure hway _
  | identifier name => exact (returns_query hs (stopsOnly_get hdefects s)).any
  | unary op operand ih =>
    rw [followWith]
    apply leads_bind (ih hdefects hcall)
    intro value _
    exact leads_fault hway hfault _
  | binary op left right ihl ihr =>
    have hleft := ihl (hdefects.mono (by simp [Node.exprDefects])) fun k hk =>
      hcall k (by simp [Node.callees, hk])
    have hright := ihr (hdefects.mono (by simp [Node.exprDefects])) fun k hk =>
      hcall k (by simp [Node.callees, hk])
    rw [followWith]
    apply leads_bind hleft
    intro a _
    rcases shortCircuit? op with _ | final
    · apply leads_bind hright
      intro b _
      exact leads_fault hway hfault _
    · apply leads_bind (leads_fault hway hfault _)
      intro test _
      split
      · exact leads_pure hway _
      · apply leads_bind hright
        intro b _
        apply leads_bind (leads_fault hway hfault _)
        intro result _
        exact leads_pure hway _
  | conditional test consequent alternate iht ihc iha =>
    have htest := iht (hdefects.mono (by simp [Node.exprDefects])) fun k hk =>
      hcall k (by simp [Node.callees, hk])
    rw [followWith]
    apply leads_bind htest
    intro value _
    apply leads_bind (leads_fault hway hfault _)
    intro holds _
    apply leads_bind (returns_note hs hnote _)
    intro _ _
    split
    · exact ihc (hdefects.mono (by simp [Node.exprDefects])) fun k hk =>
        hcall k (by simp [Node.callees, hk])
    · exact iha (hdefects.mono (by simp [Node.exprDefects])) fun k hk =>
        hcall k (by simp [Node.callees, hk])
  | arrayLiteral elements ih =>
    have hall := returns_followAllWith hs fun node hmem =>
      ih node hmem (hdefects.mono (Node.exprDefects_subset hmem)) fun k hk =>
        hcall k (Node.mem_calleesOfAll.2 ⟨node, hmem, hk⟩)
    rw [followWith]
    apply leads_bind hall
    intro values _
    exact leads_pure hway _
  | subscript array index iha ihi =>
    have harray := iha (hdefects.mono (by simp [Node.exprDefects])) fun k hk =>
      hcall k (by simp [Node.callees, hk])
    have hindex := ihi (hdefects.mono (by simp [Node.exprDefects])) fun k hk =>
      hcall k (by simp [Node.callees, hk])
    rw [followWith]
    apply leads_bind harray
    intro target _
    apply leads_bind hindex
    intro position _
    exact leads_fault hway hfault _
  | call callee args ih =>
    have hname := hdefects.mono (List.subset_append_left _ _)
    have hargs := hdefects.mono (List.subset_append_right _ _)
    have hall := returns_followAllWith hs fun node hmem =>
      ih node hmem (hargs.mono (Node.exprDefects_subset hmem)) fun k hk =>
        hcall k (List.mem_append_right _ (Node.mem_calleesOfAll.2 ⟨node, hmem, hk⟩))
    rw [followWith]
    apply leads_bind (returns_query hs (stopsOnly_getFunction hname s))
    intro f hf
    apply leads_bind hall
    intro values _
    obtain ⟨k, hk, hbound⟩ := find?_of_getFunction hf
    exact hcall k (List.mem_append_left _ (by simp [hk])) f values hbound
  | _ => exact leads_stop hway (hdefects.defect _ (by simp [Node.exprDefects]))

/-- A call comes back to its store if the body of its function does, one call deeper. -/
theorem returns_followCall {depth : Nat} {f : Function} (hs : W s)
    (hinner : ∀ frame, W (s.push frame))
    (hnote : ∀ n, StopsOnly E ((Action.note t n).answer s))
    (hparams : Admits E (f.params.flatMap nameDefects))
    (hbody : ∀ frame, Returns (s.push frame) W E (fun _ => True)
      (followWith t (followCall t depth) f.body)) (args : List Value) :
    Returns s W E (fun _ => True) (followCall t (depth + 1) f args) := by
  have hway : ∀ s', s' = s → W s' := fun _ h => h ▸ hs
  rw [followCall]
  apply leads_bind (leads_fault hway hparams.fault _)
  intro _ _
  apply leads_bind (returns_note hs hnote _)
  intro _ _
  apply leads_bind (returns_inside hs hinner hparams hbody)
  intro result _
  apply leads_bind (returns_note hs hnote _)
  intro _ _
  exact leads_pure hway result

end expressions

/-! ## Where statements lead -/

/-- The state of a store between statements: no call is under way, and every function has the
property. -/
structure Store.AtTop (P : Key → Function → Prop) (s : Store) : Prop where
  sound : s.Sound
  functions : s.EachFunction P
  frames : s.frames = []

theorem atTop_empty (P : Key → Function → Prop) : Store.empty.AtTop P :=
  ⟨sound_empty, fun _ _ hf => (by cases hf), rfl⟩

section statements

variable {P : Key → Function → Prop} {W : Store → Prop} {E : Stop → Prop} {settings : Settings}
  {s s' : Store} {name : Json}

/-- A declaration or an assignment leaves only functions with the property. -/
theorem Changes.atTop {op : Operation} (h : Changes s op s') (hs : s.AtTop P) (hsound : s'.Sound)
    (htarget : op.target?.isSome) (hop : op.CarriesData)
    (hdeclared : ∀ name params body key, op = .declareFunction name params body →
      name.key? = some key → P key ⟨name, params, body⟩) : s'.AtTop P := by
  refine ⟨hsound, h.eachFunction hs.functions hop hdeclared, ?_⟩
  cases h with
  | declareVariable _ _ => exact hs.frames
  | declareFunction _ _ => exact hs.frames
  | assign _ _ _ => exact hs.frames
  | _ => cases htarget

theorem atTop_declareVariable (hs : s.AtTop P) {v : Value} (hv : v.Plain)
    (h : s.declareVariable name v = .ok s') : s'.AtTop P := by
  have hchanges : Changes s (.declareVariable name v) s' := changes_of_effect h
  exact hchanges.atTop hs (Store.sound_declareVariable hs.sound hv h) rfl hv.isData
    fun _ _ _ _ hop => by cases hop

theorem atTop_assign (hs : s.AtTop P) {v : Value} (hv : v.Plain)
    (h : s.assign name v = .ok s') : s'.AtTop P := by
  have hchanges : Changes s (.assign name v) s' := changes_of_effect h
  exact hchanges.atTop hs (Store.sound_assign hs.sound hv h) rfl hv.isData
    fun _ _ _ _ hop => by cases hop

/-- A new function has the property that all functions have. -/
theorem atTop_declareFunction (hs : s.AtTop P) {params : List Json} {body : Node}
    (hdeclared : ∀ key, name.key? = some key → P key ⟨name, params, body⟩)
    (h : (s.declareFunction name params body).map (·.2) = .ok s') : s'.AtTop P := by
  have hchanges : Changes s (.declareFunction name params body) s' := changes_of_effect h
  obtain ⟨⟨f, s''⟩, hdeclare, rfl⟩ := map_eq_ok.1 h
  apply hchanges.atTop hs (Store.sound_declareFunction hs.sound hdeclare) rfl trivial
  intro name' params' body' key hop
  cases hop
  exact hdeclared key

/-- What a run must do so that its statements lead where they should: its notes stop only for the
given reasons, and so do its expressions. -/
structure Steady (settings : Settings) (P : Key → Function → Prop) (W : Store → Prop)
    (E : Stop → Prop) : Prop where
  way : ∀ s : Store, s.AtTop P → W s
  note : ∀ n s, StopsOnly E ((Action.note settings.toTracing n).answer s)
  noteDefined : ∀ name params s,
    StopsOnly E ((noteDefined settings.toTracing name params).answer s)
  value : ∀ expr : Node, Admits E expr.exprDefects →
    Leads (Store.AtTop P) W E (fun _ => True) (followValue settings expr)

/-- The functions that a tree declares have the property, as far as their defects are allowed. -/
def Declarable (P : Key → Function → Prop) (E : Stop → Prop) (node : Node) : Prop :=
  ∀ name params body key, (name, body) ∈ node.declarations → name.key? = some key →
    Admits E (Node.functionDeclaration name params body).statementDefects →
      P key ⟨name, params, body⟩

theorem leads_note (h : Steady settings P W E) (n : Note) :
    Leads (Store.AtTop P) W E (fun _ => True) (step (Action.note settings.toTracing n)) :=
  leads_looks h.way (Action.looks_note _ n) (fun _ _ _ _ => trivial) fun s _ => h.note n s

theorem leads_followValue (h : Steady settings P W E) {expr : Node}
    (hdefects : Admits E expr.exprDefects) :
    Leads (Store.AtTop P) W E Value.Plain (followValue settings expr) := by
  intro m hm
  have hled := h.value expr hdefects m hm
  obtain ⟨_, _, hplain⟩ := keeps_followValue settings hm.sound expr m rfl
  exact ⟨hled.way, hled.store, hplain, hled.stop⟩

theorem leads_followTest (h : Steady settings P W E) {test : Node}
    (hdefects : Admits E test.exprDefects) :
    Leads (Store.AtTop P) W E (fun _ => True) (followTest settings test) := by
  rw [followTest]
  apply leads_bind (leads_followValue h hdefects)
  intro value _
  apply leads_bind (leads_fault h.way hdefects.fault _)
  intro holds _
  apply leads_bind (leads_note h _)
  intro _ _
  exact leads_pure h.way holds

theorem leads_followWhile {I : Store → Prop} (hway : ∀ s, I s → W s) (hfuel : E .outOfFuel)
    {test : Walk Bool} {body : Walk Unit} (ht : Leads I W E (fun _ => True) test)
    (hb : Leads I W E (fun _ => True) body) (rounds : Nat) :
    Leads I W E (fun _ => True) (followWhile rounds test body) := by
  induction rounds with
  | zero => exact leads_stop hway hfuel
  | succ rounds ih =>
    rw [followWhile]
    apply leads_bind ht
    intro holds _
    split
    · exact leads_bind hb fun _ _ => ih
    · exact leads_pure hway ()

theorem leads_followStatements {I : Store → Prop} (hway : ∀ s, I s → W s) {nodes : List Node}
    (h : ∀ node ∈ nodes, Leads I W E (fun _ => True) (followStatement settings node)) :
    Leads I W E (fun _ => True) (followStatements settings nodes) := by
  induction nodes with
  | nil =>
    rw [followStatements]
    exact leads_pure hway ()
  | cons node nodes ih =>
    rw [followStatements]
    exact leads_bind (h node (by simp)) fun _ _ => ih fun n hn => h n (by simp [hn])

/-- A statement or a block stops for no reason but those of its own defects and of its loops. -/
theorem leads_followStatement (h : Steady settings P W E) {node : Node}
    (hfunctions : Declarable P E node) (hloops : ¬ node.LoopFree → E .outOfFuel) :
    (Admits E node.statementDefects →
        Leads (Store.AtTop P) W E (fun _ => True) (followStatement settings node)) ∧
      (Admits E node.blockDefects →
        Leads (Store.AtTop P) W E (fun _ => True) (followBlock settings node)) := by
  induction node with
  | block statements ih =>
    simp only [followStatement, followBlock]
    refine ⟨fun hd => leads_stop h.way (hd.defect _ (by simp [Node.statementDefects])), ?_⟩
    intro hdefects
    apply leads_followStatements h.way
    intro node hmem
    refine (ih node hmem ?_ ?_).1 (hdefects.mono (Node.statementDefects_subset hmem))
    · exact fun name params body key hd =>
        hfunctions name params body key (Node.mem_declarationsOfAll.2 ⟨node, hmem, hd⟩)
    · exact fun hloop => hloops fun hfree => hloop (Node.loopFreeAll_iff.1 hfree node hmem)
  | variableDeclaration name expr =>
    simp only [followStatement, followBlock]
    refine ⟨?_, fun hd => leads_stop h.way (hd.defect _ (by simp [Node.blockDefects]))⟩
    intro hdefects
    apply leads_bind (leads_followValue h (hdefects.mono (List.subset_append_right _ _)))
    intro value hvalue
    have hname := hdefects.mono (List.subset_append_left _ _)
    apply leads_bind (leads_update h.way (fun _ _ hs h => atTop_declareVariable hs hvalue h)
      (stopsOnly_declareVariable hname value))
    intro _ _
    exact leads_note h _
  | functionDeclaration name params body =>
    simp only [followStatement, followBlock]
    refine ⟨?_, fun hd => leads_stop h.way (hd.defect _ (by simp [Node.blockDefects]))⟩
    intro hdefects
    have hname : Admits E (nameDefects name) := hdefects.mono (by simp [Node.statementDefects])
    have hparams : Admits E (params.flatMap nameDefects) :=
      hdefects.mono (by simp [Node.statementDefects])
    have hnew : ∀ key, name.key? = some key → P key ⟨name, params, body⟩ := fun key hkey =>
      hfunctions name params body key (by simp [Node.declarations]) hkey hdefects
    apply leads_bind (leads_update h.way (fun _ _ hs h => atTop_declareFunction hs hnew h)
      fun s => stopsOnly_map (stopsOnly_declareFunction hname hparams body s) _)
    intro _ _
    exact leads_looks h.way (looks_noteDefined _ _ _) (fun _ _ _ _ => trivial) fun s _ =>
      h.noteDefined name params s
  | assignment name expr =>
    simp only [followStatement, followBlock]
    refine ⟨?_, fun hd => leads_stop h.way (hd.defect _ (by simp [Node.blockDefects]))⟩
    intro hdefects
    apply leads_bind (leads_followValue h (hdefects.mono (List.subset_append_right _ _)))
    intro value hvalue
    have hname := hdefects.mono (List.subset_append_left _ _)
    apply leads_bind (leads_update h.way (fun _ _ hs h => atTop_assign hs hvalue h)
      (stopsOnly_assign hname value))
    intro _ _
    exact leads_note h _
  | printStatement expr =>
    simp only [followStatement, followBlock]
    refine ⟨?_, fun hd => leads_stop h.way (hd.defect _ (by simp [Node.blockDefects]))⟩
    intro hdefects
    apply leads_bind (leads_followValue h hdefects)
    intro value _
    exact leads_step h.way (fun _ hm => hm) (fun _ _ _ _ => trivial) fun _ _ => stopsOnly_ok ()
  | whileStatement test body _ ihb =>
    simp only [followStatement, followBlock]
    refine ⟨?_, fun hd => leads_stop h.way (hd.defect _ (by simp [Node.blockDefects]))⟩
    intro hdefects
    have hfuel : E .outOfFuel := hloops id
    have hbody := (ihb hfunctions fun _ => hfuel).2 (hdefects.mono (List.subset_append_right _ _))
    have htest := leads_followTest h (hdefects.mono (List.subset_append_left _ _))
    exact leads_followWhile h.way hfuel htest hbody settings.rounds
  | _ =>
    simp only [followStatement, followBlock]
    exact ⟨fun hd => leads_stop h.way (hd.defect _ (by simp [Node.statementDefects])),
      fun hd => leads_stop h.way (hd.defect _ (by simp [Node.blockDefects]))⟩

/-- A run stops for no reason but those of the defects of its program and of its loops. -/
theorem leads_walkRun (h : Steady settings P W E) {program : Node}
    (hfunctions : Declarable P E program) (hdefects : Admits E program.programDefects)
    (hloops : ¬ program.LoopFree → E .outOfFuel) :
    Leads (Store.AtTop P) W E (fun _ => True) (walkRun settings program) := by
  have hprogram : Leads (Store.AtTop P) W E (fun _ => True) (followProgram settings program) := by
    cases program with
    | program block =>
      have hblock : Declarable P E block := hfunctions
      exact (leads_followStatement h hblock hloops).2 hdefects
    | _ => exact leads_stop h.way (hdefects.defect _ (by simp [Node.programDefects]))
  rw [walkRun, followRun]
  apply leads_bind (leads_note h _)
  intro _ _
  apply leads_bind hprogram
  intro _ _
  exact leads_note h _

end statements

end BellaLang
