-- The calls under way in a run. A watch is a run that is told which calls are under
-- way, and where it stops it tells them. It ends as the run does, and the notes of the
-- calls lead from those under way before it to those under way after it.
import BellaLang.Proofs.Following
import BellaLang.Proofs.Observing
import BellaLang.Proofs.Sight
import BellaLang.Proofs.Unrolling

namespace BellaLang

/-! ## Notes of calls -/

theorem trace_eq (m : Machine) : m.trace = m.notes.map Note.text := by
  have hnoted : Event.noted? = fun e => e.note?.map Note.text := by
    funext e
    cases e <;> rfl
  rw [Machine.trace, Machine.notes, hnoted, ← List.map_filterMap, List.map_reverse]

/-- A call. -/
structure Call where
  function : Function
  args : List Value

/-- What notes of calls, oldest first, make of the calls under way, innermost first: a call begins
inside all those under way, and the innermost one is the next to end. -/
inductive Brackets : List Call → List Note → List Call → Prop
  | done (calls : List Call) : Brackets calls [] calls
  | called (c : Call) {calls calls' : List Call} {notes : List Note}
      (h : Brackets (c :: calls) notes calls') :
      Brackets calls (.called c.function.name c.args :: notes) calls'
  | returned (c : Call) (v : Value) {calls calls' : List Call} {notes : List Note}
      (h : Brackets calls notes calls') :
      Brackets (c :: calls) (.returned c.function.name v :: notes) calls'

section brackets

variable {calls calls' calls'' : List Call} {notes notes' : List Note}

theorem Brackets.append (h : Brackets calls notes calls') (h' : Brackets calls' notes' calls'') :
    Brackets calls (notes ++ notes') calls'' := by
  induction h with
  | done calls => exact h'
  | called c _ ih => exact .called c (ih h')
  | returned c v _ ih => exact .returned c v (ih h')

/-- The calls under way may all end. -/
theorem exists_brackets_nil (calls : List Call) : ∃ notes, Brackets calls notes [] := by
  induction calls with
  | nil => exact ⟨[], .done []⟩
  | cons c calls ih =>
    obtain ⟨notes, h⟩ := ih
    exact ⟨_, .returned c (.boolean true) h⟩

theorem Brackets.extends (h : Brackets calls notes calls') :
    ∃ rest, Brackets calls (notes ++ rest) [] := by
  obtain ⟨rest, hrest⟩ := exists_brackets_nil calls'
  exact ⟨rest, h.append hrest⟩

end brackets

/-! ## Watches -/

/-- Where a run stops: the reason, the calls under way, innermost first, and the store. -/
structure Raised where
  stop : Stop
  calls : List Call
  store : Store

/-- A part of a run that is told the calls under way: how it ends, or where it stops, and the state
that it leaves. -/
def Watch (α : Type) : Type := List Call → Machine → Except Raised α × Machine

namespace Watch

/-- One watch after the other, unless the first one stops. -/
def bind {α β : Type} (w : Watch α) (next : α → Watch β) : Watch β := fun calls m =>
  match w calls m with
  | (.ok a, m') => next a calls m'
  | (.error r, m') => (.error r, m')

/-- One action. -/
def step {α : Type} (act : Action α) : Watch α := fun calls m =>
  match act m with
  | (.ok a, m') => (.ok a, m')
  | (.error e, m') => (.error ⟨e, calls, m'.store⟩, m')

/-- A watch inside a call, which is under way from its beginning to its end. -/
def inside {α : Type} (f : Function) (args : List Value) (w : Watch α) : Watch α := fun calls m =>
  match m.store.enter f args with
  | .error e => (.error ⟨e, calls, m.store⟩, m)
  | .ok store =>
    let (result, m) := w (⟨f, args⟩ :: calls) { m with store }
    (result, { m with store := m.store.leave })

instance : Follower Watch where
  pure a := fun _ m => (.ok a, m)
  bind := bind
  step := step
  inside := inside

end Watch

/-- The watch of a whole run. -/
abbrev watchRun (s : Settings) (program : Node) : Watch Unit := followRun s program

/-! ## What a watch tells -/

/-- The frames of a store are those of some calls. -/
def Store.Holds (s : Store) (calls : List Call) : Prop :=
  calls.map (fun c => Scope.bindAll [] c.function.params c.args) = s.frames.map .ok

theorem Store.Holds.congr {s s' : Store} {calls : List Call} (h : s.Holds calls)
    (hframes : s'.frames = s.frames) : s'.Holds calls := by
  rwa [Store.Holds, hframes]

/-- What comes of a watch of an action. If it ends, so does the action, and the notes of calls lead
from the calls before it to those after it; if it stops, so does the action, and unless the tree
is at fault, they lead to the calls under way there, whose frames the store has. -/
inductive Tells {α : Type} (act : Action α) (before after : List Call) (m : Machine) :
    Except Raised α × Machine → Prop
  | ends {a : α} {m' : Machine} {notes : List Note} (hact : act m = (.ok a, m'))
      (hnotes : m'.notes = m.notes ++ notes) (hlevel : ∀ n ∈ notes, 2 ≤ n.level)
      (hbrackets : Brackets before (notes.filter Note.isCall) after)
      (hframes : m'.store.frames = m.store.frames) : Tells act before after m (.ok a, m')
  | stops {r : Raised} {m' : Machine} {notes : List Note} (hact : act m = (.error r.stop, m'))
      (hnotes : m'.notes = m.notes ++ notes) (hlevel : ∀ n ∈ notes, 2 ≤ n.level)
      (hraised : ¬ r.stop.IsDefect →
        Brackets before (notes.filter Note.isCall) r.calls ∧ r.store.Holds r.calls) :
      Tells act before after m (.error r, m')

/-- The watch does what the action does. Where it ends, the calls are under way that were so before
it, and where it stops, it tells those that are. -/
def Watches {α : Type} (w : Watch α) (act : Action α) : Prop :=
  ∀ calls m, m.store.Holds calls → Tells act calls calls m (w calls m)

section watches

open Watch

variable {α β : Type}

namespace Watch

theorem step_ok {act : Action α} {m m' : Machine} {a : α} (h : act m = (.ok a, m'))
    {calls : List Call} : step act calls m = (.ok a, m') := by
  rw [step, h]

theorem bind_ok {w : Watch α} {next : α → Watch β} {calls : List Call} {m m' : Machine} {a : α}
    (h : w calls m = (.ok a, m')) : (w >>= next) calls m = next a calls m' := by
  change Watch.bind w next calls m = _
  rw [Watch.bind, h]

theorem bind_error {w : Watch α} {next : α → Watch β} {calls : List Call} {m m' : Machine}
    {r : Raised} (h : w calls m = (.error r, m')) : (w >>= next) calls m = (.error r, m') := by
  change Watch.bind w next calls m = _
  rw [Watch.bind, h]

end Watch

theorem tells_bind {w : Watch α} {act : Action α} {next : α → Watch β} {f : α → Action β}
    {before between after calls : List Call} {m : Machine}
    (h : Tells act before between m (w calls m))
    (hn : ∀ a m', m'.store.frames = m.store.frames →
      Tells (f a) between after m' (next a calls m')) :
    Tells (act >>= f) before after m ((w >>= next) calls m) := by
  rcases hr : w calls m with ⟨r | a, m'⟩ <;> rw [hr] at h
  · rw [Watch.bind_error hr]
    cases h with
    | stops hact hnotes hlevel hraised =>
      exact .stops (Action.bind_error hact) hnotes hlevel hraised
  · rw [Watch.bind_ok hr]
    cases h with
    | @ends _ _ notes hact hnotes hlevel hbrackets hframes =>
      have hlevels : ∀ {notes' : List Note}, (∀ n ∈ notes', 2 ≤ n.level) →
          ∀ n ∈ notes ++ notes', 2 ≤ n.level :=
        fun hlevel' n hmem => (List.mem_append.1 hmem).elim (hlevel n) (hlevel' n)
      have h' := hn a m' hframes
      generalize next a calls m' = result at h'
      cases h' with
      | ends hact' hnotes' hlevel' hbrackets' hframes' =>
        refine .ends ((Action.bind_ok hact).trans hact') ?_ (hlevels hlevel') ?_
          (hframes'.trans hframes)
        · rw [hnotes', hnotes, List.append_assoc]
        · rw [List.filter_append]
          exact hbrackets.append hbrackets'
      | stops hact' hnotes' hlevel' hraised' =>
        refine .stops ((Action.bind_ok hact).trans hact') ?_ (hlevels hlevel') ?_
        · rw [hnotes', hnotes, List.append_assoc]
        · intro hdefect
          obtain ⟨hbrackets', hholds⟩ := hraised' hdefect
          rw [List.filter_append]
          exact ⟨hbrackets.append hbrackets', hholds⟩

theorem watches_bind {w : Watch α} {act : Action α} {next : α → Watch β} {f : α → Action β}
    (hw : Watches w act) (hn : ∀ a, Watches (next a) (f a)) :
    Watches (w >>= next) (act >>= f) := by
  intro calls m hm
  apply tells_bind (hw calls m hm)
  intro a m' hframes
  exact hn a calls m' (hm.congr hframes)

theorem watches_step {act : Action α} (h : act.Quiet) : Watches (step act) act := by
  intro calls m hm
  obtain ⟨hframes, notes, hnotes, hall⟩ := h m
  have hfilter : notes.filter Note.isCall = [] :=
    List.filter_eq_nil_iff.2 fun n hn => by simp [(hall n hn).2]
  rcases hr : act m with ⟨e | a, m'⟩ <;> rw [hr] at hframes hnotes <;> simp only [step, hr]
  · refine .stops hr hnotes (fun n hn => (hall n hn).1) fun _ => ?_
    rw [hfilter]
    exact ⟨.done calls, hm.congr hframes⟩
  · refine .ends hr hnotes (fun n hn => (hall n hn).1) ?_ hframes
    rw [hfilter]
    exact .done calls

/-! ### Calls -/

/-- The note of the beginning or of the end of a call. -/
theorem tells_note {t : Tracing} {n : Note} {before after calls : List Call} {m : Machine}
    (ht : 3 ≤ t.level) (hlevel : n.level = 3) (hcall : n.isCall = true)
    (h : Brackets before [n] after) :
    Tells (Action.note t n) before after m (step (Action.note t n) calls m) := by
  rcases note_cases t n m with hr | ⟨_, hlt⟩ | ⟨d, hr⟩
  · simp only [step, hr]
    refine .ends hr (notes_noted m n) (by simp [hlevel]) ?_ rfl
    simpa [hcall] using h
  · omega
  · simp only [step, hr]
    exact .stops hr (List.append_nil _).symm (by simp) fun hdefect => absurd trivial hdefect

/-- While the body of a call is evaluated, the call is under way. -/
theorem tells_inside {f : Function} {args : List Value} {w : Watch α} {act : Action α}
    {calls : List Call} {m : Machine} (h : Watches w act) (hm : m.store.Holds calls) :
    Tells (Action.inside f args act) (⟨f, args⟩ :: calls) (⟨f, args⟩ :: calls) m
      (Watch.inside f args w calls m) := by
  obtain ⟨s, log⟩ := m
  rcases hframe : Scope.bindAll [] f.params args with e | frame
  · obtain ⟨d, rfl⟩ := Walk.exists_defect_of_bindAll hframe
    have he := enter_of_bindAll_error hframe s
    simp only [Watch.inside, he]
    exact .stops (Action.inside_error he act log) (List.append_nil _).symm (by simp)
      fun hdefect => absurd trivial hdefect
  · have he := enter_of_bindAll hframe s
    have hinner : (s.push frame).Holds (⟨f, args⟩ :: calls) := by
      rw [Store.Holds, List.map_cons, hframe, hm]
      rfl
    have hbody := h (⟨f, args⟩ :: calls) ⟨s.push frame, log⟩ hinner
    have hact := Action.inside_ok he act log
    simp only [Watch.inside, he]
    rcases hr : w (⟨f, args⟩ :: calls) ⟨s.push frame, log⟩ with ⟨r | a, m'⟩ <;> rw [hr] at hbody
    · cases hbody with
      | stops hact' hnotes hlevel hraised =>
        rw [hact'] at hact
        exact .stops hact hnotes hlevel hraised
    · cases hbody with
      | ends hact' hnotes hlevel hbrackets hframes =>
        rw [hact'] at hact
        exact .ends hact hnotes hlevel hbrackets (congrArg List.tail hframes)

/-- The notes of a call stand around those of its body. -/
theorem watches_body {t : Tracing} (ht : 3 ≤ t.level) (f : Function) (args : List Value)
    {w : Watch Value} {act : Action Value} (h : Watches w act) :
    Watches
      (do step (Action.note t (.called f.name args))
          let result ← Watch.inside f args w
          step (Action.note t (.returned f.name result))
          step (pure result))
      (do Action.note t (.called f.name args)
          let result ← Action.inside f args act
          Action.note t (.returned f.name result)
          return result) := by
  intro calls m hm
  apply tells_bind (tells_note ht rfl rfl (.called ⟨f, args⟩ (.done _)))
  intro _ m₁ h₁
  apply tells_bind (tells_inside h (hm.congr h₁))
  intro result m₂ h₂
  apply tells_bind (tells_note ht rfl rfl (.returned ⟨f, args⟩ result (.done calls)))
  intro _ m₃ h₃
  exact watches_step (quiet_still fun _ => rfl) calls m₃ (hm.congr (h₃.trans (h₂.trans h₁)))

theorem simulates_watches {t : Tracing} (ht : 3 ≤ t.level) : Simulates Watches t where
  step := watches_step
  bind := watches_bind
  call f args _ _ h := watches_body ht f args h

end watches

/-! ## Runs -/

/-- How a run comes out that is watched from its start: it ends after the last note, or it stops
and tells the calls under way. -/
inductive Outcome (s : Settings) (program : Node) (notes : List Note) : Prop
  | ends (hrun : (run s program).1 = .ok ())
      (hwatch : watchRun s program [] .start = (.ok (), (run s program).2))
      (hnotes : (run s program).2.notes = .runStart :: (notes ++ [.runFinished]))
      (hbrackets : Brackets [] (notes.filter Note.isCall) [])
  | stops (r : Raised) (hrun : (run s program).1 = .error r.stop)
      (hwatch : watchRun s program [] .start = (.error r, (run s program).2))
      (hnotes : (run s program).2.notes = .runStart :: notes)
      (hbrackets : Brackets [] (notes.filter Note.isCall) r.calls)
      (hholds : r.store.Holds r.calls)

theorem exists_outcome {s : Settings} (hs : 3 ≤ s.level) {program : Node}
    (hdefect : ¬ EndsBy Stop.IsDefect (run s program).1) :
    ∃ notes, (∀ n ∈ notes, 2 ≤ n.level) ∧ Outcome s program notes := by
  have hnote : ∀ (n : Note) (m : Machine), n.level ≤ 3 →
      Action.note s.toTracing n m = (.ok (), { m with log := .noted n :: m.log }) ∨
        ∃ d, Action.note s.toTracing n m = (.error (.defect d), m) := by
    intro n m hn
    rcases note_cases s.toTracing n m with h | ⟨_, hlt⟩ | h
    · exact Or.inl h
    · omega
    · exact Or.inr h
  -- A note that is refused would end the run by a defect, so both notes are taken.
  rcases (hnote .runStart .start (by decide)).symm with ⟨d, hstart⟩ | hstart
  · have hrun : run s program = (.error (.defect d), .start) := Action.bind_error hstart
    rw [hrun] at hdefect
    exact absurd trivial hdefect
  have hstarted := (simulates_watches hs).program program [] ⟨.empty, [.noted .runStart]⟩ rfl
  rcases hr : (followProgram s program : Watch Unit) [] ⟨.empty, [.noted .runStart]⟩ with
    ⟨r | u, m⟩ <;> rw [hr] at hstarted
  · cases hstarted with
    | stops hact hnotes hlevel hraised =>
      have hrun : run s program = (.error r.stop, m) :=
        (Action.bind_ok hstart).trans (Action.bind_error hact)
      have hwatch : watchRun s program [] .start = (.error r, m) :=
        (Watch.bind_ok (Watch.step_ok hstart)).trans (Watch.bind_error hr)
      rw [hrun] at hdefect
      obtain ⟨hbrackets, hholds⟩ := hraised hdefect
      exact ⟨_, hlevel, .stops r (by rw [hrun]) (by rw [hwatch, hrun]) (by rw [hrun, hnotes]; rfl)
        hbrackets hholds⟩
  · cases hstarted with
    | ends hact hnotes hlevel hbrackets hframes =>
      rcases hnote .runFinished m (by decide) with hfinished | ⟨d, hfinished⟩
      · have hrun : run s program = (.ok (), { m with log := .noted .runFinished :: m.log }) :=
          (Action.bind_ok hstart).trans ((Action.bind_ok hact).trans hfinished)
        have hwatch : watchRun s program [] .start =
            (.ok (), { m with log := .noted .runFinished :: m.log }) :=
          (Watch.bind_ok (Watch.step_ok hstart)).trans
            ((Watch.bind_ok hr).trans (Watch.step_ok hfinished))
        refine ⟨_, hlevel, .ends (by rw [hrun]) (by rw [hwatch, hrun]) ?_ hbrackets⟩
        rw [hrun, notes_noted, hnotes]
        rfl
      · have hrun : run s program = (.error (.defect d), m) :=
          (Action.bind_ok hstart).trans ((Action.bind_ok hact).trans hfinished)
        rw [hrun] at hdefect
        exact absurd trivial hdefect

end BellaLang
