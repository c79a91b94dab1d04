import StepLisp.Proofs.History
import StepLisp.Proofs.Reach

/-!
# The ancestry of frames

Frames are created for calls only, inside of the frame that the closure was created in. So from
every frame that is in use one comes, from parent to parent, through frames of calls to the global
frame and the library frame of the session. No node is evaluated in the library frame itself, so
nothing is ever defined in it.

* `Heap.Rooted`, the frames with such an ancestry, and `Heap.Outwards`, the way to the outermost
  frame: `Rooted.outwards`, with `Heap.lineage` as the list of the frames on the way;
* `stable_rooted`: evaluation does not lead out of these frames;
* `Machine.Goes.kept`: frames that a machine does not work with stay as they are;
* `Machine.Uses` and `Workbench.Uses`, the frames in use, and `Workbench.Founded`, the invariant,
  with **`Founded.perform`** and `Founded.uses`;
* **`Workbench.frames_rooted`**: all frames in use have such an ancestry, and the library frame
  stays as it was.
-/

namespace StepLisp

namespace Heap

variable {h h' : Heap} {library global f : FrameId}

/-- The frame is the global frame inside of the library frame, or the frame of a call inside of such
a frame; each of them is younger than its parent. -/
inductive Rooted (h : Heap) (library global : FrameId) : FrameId → Prop where
  | global {frame : Frame} (hf : h.frame? global = some frame) (hk : frame.kind = .global)
      (hp : frame.parent = some library) (hlt : library.index < global.index) :
      Rooted h library global global
  | call {f p : FrameId} {frame : Frame} (hf : h.frame? f = some frame) (hk : frame.kind = .call)
      (hp : frame.parent = some p) (hlt : p.index < f.index) (hr : Rooted h library global p) :
      Rooted h library global f

/-- From a frame outwards, each frame of the list is the parent of the one before it, and the last
one has no parent. -/
inductive Outwards (h : Heap) : FrameId → List FrameId → Prop where
  | last {f : FrameId} {frame : Frame} (hf : h.frame? f = some frame) (hp : frame.parent = none) :
      Outwards h f [f]
  | parent {f p : FrameId} {fs : List FrameId} {frame : Frame} (hf : h.frame? f = some frame)
      (hp : frame.parent = some p) (ho : Outwards h p fs) : Outwards h f (f :: fs)

theorem lineage_last {frame : Frame} (hf : h.frame? f = some frame) (hp : frame.parent = none) :
    h.lineage f = [f] := by
  rw [lineage, hf]
  dsimp only
  rw [hp]

theorem lineage_parent {p : FrameId} {frame : Frame} (hf : h.frame? f = some frame)
    (hp : frame.parent = some p) (hlt : p.index < f.index) :
    h.lineage f = f :: h.lineage p := by
  rw [lineage, hf]
  dsimp only
  rw [hp]
  exact if_pos hlt

namespace Rooted

theorem lt (hr : h.Rooted library global f) : library.index < f.index := by
  induction hr with
  | global hf hk hp hlt => exact hlt
  | call hf hk hp hlt hr ih => exact Nat.lt_trans ih hlt

theorem ne_library (hr : h.Rooted library global f) : f ≠ library := by
  rintro rfl
  exact Nat.lt_irrefl _ hr.lt

theorem exists_frame (hr : h.Rooted library global f) : ∃ frame, h.frame? f = some frame := by
  cases hr with
  | global hf => exact ⟨_, hf⟩
  | call hf => exact ⟨_, hf⟩

theorem grows (hr : h.Rooted library global f) (hg : h.Grows h') : h'.Rooted library global f := by
  induction hr with
  | global hf hk hp hlt =>
    obtain ⟨frame', hf', hkind, hparent⟩ := hg _ _ hf
    exact .global hf' (hkind.trans hk) (hparent.trans hp) hlt
  | call hf hk hp hlt _ ih =>
    obtain ⟨frame', hf', hkind, hparent⟩ := hg _ _ hf
    exact .call hf' (hkind.trans hk) (hparent.trans hp) hlt ih

theorem enter {c : Closure} (args : List Value) (hr : h.Rooted library global c.scope) :
    (c.enter args h).2.Rooted library global (c.enter args h).1 := by
  obtain ⟨frame, hf⟩ := hr.exists_frame
  have hlt : c.scope.index < (c.enter args h).1.index := (Array.getElem?_eq_some_iff.mp hf).1
  have hnew : (c.enter args h).2.frame? (c.enter args h).1 =
      some ⟨.call, some c.scope, c.bindings args⟩ := by
    rw [Closure.enter, frame?_allocate, if_pos rfl]
  exact .call hnew rfl rfl hlt (hr.grows (.allocate h _))

/-- **The ancestry of a frame**: some calls, the global frame and the library frame. -/
theorem outwards {frame : Frame} (hl : h.frame? library = some frame) (hp : frame.parent = none)
    (hr : h.Rooted library global f) :
    ∃ calls, h.Outwards f (calls ++ [global, library]) ∧
      h.lineage f = calls ++ [global, library] ∧
      ∀ g ∈ calls, ∃ frame, h.frame? g = some frame ∧ frame.kind = .call := by
  induction hr with
  | global hf hk hp' hlt =>
    refine ⟨[], .parent hf hp' (.last hl hp), ?_, nofun⟩
    rw [lineage_parent hf hp' hlt, lineage_last hl hp]
    rfl
  | @call f p frame' hf hk hp' hlt hr ih =>
    obtain ⟨calls, ho, hlineage, hcalls⟩ := ih
    refine ⟨f :: calls, .parent hf hp' ho, ?_, List.forall_mem_cons.mpr ⟨⟨_, hf, hk⟩, hcalls⟩⟩
    rw [lineage_parent hf hp' hlt, hlineage]
    rfl

end Rooted

theorem libraryBindings_eq : libraryBindings =
    [("*", .primitive .multiply), ("+", .primitive .add), ("-", .primitive .subtract),
      ("/", .primitive .divide), ("<", .primitive .less)] := by
  rfl

/-- **Evaluation does not lead out of the rooted frames.** -/
theorem stable_rooted (library global : FrameId) :
    Stable (fun _ => True) (Rooted · library global) where
  child := fun _ _ => trivial
  grows := fun hg hf => hf.grows hg
  enter := fun args hc => hc.enter args

end Heap

/-! ## Frames that stay as they are -/

namespace Machine

variable {P : Node → Prop} {S : Heap → FrameId → Prop} {T : FrameId → Prop} {h h' : Heap}
  {m m' : Machine} {e : Option Event} {es : List Event} {k : Nat}

theorem Change.kept {S : FrameId → Prop} (hm : m.Over P S) (hS : ∀ f, S f → T f)
    (hT : ∀ f, ¬ T f → (h.frame? f).isSome) (hchange : Change h m e h' m') :
    Heap.Kept T h h' := by
  cases hchange with
  | value hc hi => cases hi <;> exact .refl T h
  | @define v x s rest hc hp =>
    exact .define (hS s (hm.cons hp).1) x v
  | @enter v n vs args s rest c hc hp hn ha =>
    refine .allocate (Classical.byContradiction fun hn => ?_)
    have hfresh : (h.frame? (c.enter args h).1).isSome := hT _ hn
    rw [Closure.enter, Heap.frame?_fresh] at hfresh
    cases hfresh
  | _ => exact .refl T h

theorem Runs.kept (hst : Stable P S) (hS : ∀ h f, S h f → T f) (hm : m.Over P (S h))
    (hh : h.Each (Closure.Over P (S h))) (hT : ∀ f, ¬ T f → (h.frame? f).isSome)
    (hr : Runs k h m es h' m') : Heap.Kept T h h' := by
  induction hr with
  | refl => exact .refl T _
  | @step _ h h₁ h' m m₁ m' e _ hchange _ ih =>
    obtain ⟨hm₁, hh₁⟩ := hchange.over hst hm hh
    have hk : Heap.Kept T h h₁ := hchange.kept hm (hS h) hT
    refine hk.trans (ih hm₁ hh₁ fun f hf => ?_)
    rw [hk f hf]
    exact hT f hf

theorem Goes.kept (hst : Stable P S) (hS : ∀ h f, S h f → T f) (hm : m.Over P (S h))
    (hh : h.Each (Closure.Over P (S h))) (hT : ∀ f, ¬ T f → (h.frame? f).isSome)
    (hg : m.Goes h es h' m') : Heap.Kept T h h' := by
  obtain ⟨k, m₁, hr, -⟩ := hg
  exact hr.kept hst hS hm hh hT

end Machine

/-! ## Frames in use -/

/-- The machine works with the frame: it is about to evaluate a node in it or has something to do in
it, it is to leave it, or it holds a value that captures it. -/
inductive Machine.Uses (m : Machine) (f : FrameId) : Prop where
  | evaluated {n : Node} (hc : m.control = .evaluate n f)
  | delivered {v : Value} (hc : m.control = .deliver v) (hv : v.Captures f)
  | finished {v : Value} (hc : m.control = .finished v) (hv : v.Captures f)
  | scope {p : Pending} (hp : p ∈ m.pending) (hs : p.scope? = some f)
  | frame {p : Pending} (hp : p ∈ m.pending) (hs : p.frame? = some f)
  | collected {n : Node} {vs : List Value} {s : FrameId} {v : Value}
      (hp : .collect n vs s ∈ m.pending) (hv : v ∈ vs) (hc : v.Captures f)

/-- The frame is in use: a stepper works with it or lists it inside of its first frame, or a value
captures it that is bound in a frame or that a node has. -/
inductive Workbench.Uses (w : Workbench) (f : FrameId) : Prop where
  | machine {k : Nat} {b : Parked} (hb : w.steppers[k]? = some b) (hf : b.machine.Uses f)
  | listed {k : Nat} {b : Parked} (hb : w.steppers[k]? = some b)
      (hf : f ∈ b.machine.frames.frames.tail)
  | bound {i : Nat} {s : Session} {g : FrameId} {frame : Frame} {x : String} {v : Value}
      (hs : w.sessions[i]? = some s) (hg : s.heap.frame? g = some frame)
      (hb : (x, v) ∈ frame.bindings) (hv : v.Captures f)
  | result {place : Place} {v : Value} (hr : w.results[place]? = some v) (hv : v.Captures f)

variable {P : Node → Prop} {S : FrameId → Prop}

theorem Value.Each.scope {v : Value} {f : FrameId} (hv : v.Each (Closure.Over P S))
    (hf : v.Captures f) : S f := by
  obtain ⟨c, hc, rfl⟩ := captures_iff.mp hf
  exact (hv c hc).2

theorem Machine.Over.uses {m : Machine} {f : FrameId} (hm : m.Over P S) (hf : m.Uses f) : S f := by
  cases hf with
  | evaluated hc => exact (hm.evaluate hc).2
  | delivered hc hv => exact (hm.deliver hc).scope hv
  | @finished v hc hv =>
    have hcontrol := hm.control
    rw [hc] at hcontrol
    exact Value.Each.scope hcontrol hv
  | @scope p hp hs =>
    have hpending := hm.pending p hp
    cases p with
    | branch a b s =>
      cases hs
      exact hpending.2.2
    | define x s =>
      cases hs
      exact hpending
    | collect n vs s =>
      cases hs
      exact hpending.2.2
    | _ => cases hs
  | @frame p hp hs =>
    have hpending := hm.pending p hp
    cases p with
    | leave g =>
      cases hs
      exact hpending
    | _ => cases hs
  | collected hp hv hc =>
    have hpending : Pending.Over P S (.collect _ _ _) := hm.pending _ hp
    exact (hpending.2.1 _ hv).scope hc

/-! ## The frames of a session -/

namespace Workbench

open Machine

variable {w : Workbench} {s s' : Session}

/-- All frames in use are rooted in the session `s`, whose library frame is as it was. -/
structure Founded (s : Session) (w : Workbench) : Prop where
  held : w.Over (fun _ => True) (Heap.Rooted · s.library s.global) s
  library : s.heap.frame? s.library = some ⟨.library, none, Heap.libraryBindings⟩
  global : ∃ frame, s.heap.frame? s.global = some frame ∧ frame.kind = .global ∧
    frame.parent = some s.library
  older : s.library.index < s.global.index

namespace Founded

theorem new : Founded .new .new where
  held := over_new
  library := rfl
  global := ⟨_, rfl, rfl, rfl⟩
  older := by decide

theorem rooted_global (hw : Founded s w) : s.heap.Rooted s.library s.global s.global := by
  obtain ⟨frame, hf, hk, hp⟩ := hw.global
  exact .global hf hk hp hw.older

theorem frame?_library (hw : Founded s w)
    (hs : Carried (fun _ => True) (Heap.Rooted · s.library s.global) s s') :
    s'.heap.frame? s.library = s.heap.frame? s.library := by
  rcases hs.heap with heq | ⟨m, es, m', hm, hg⟩
  · rw [heq]
  · refine hg.kept (Heap.stable_rooted s.library s.global) (fun _ _ hf => hf.ne_library) hm
      hw.held.heap (fun f hf => ?_) _ (not_not_intro rfl)
    rw [Decidable.not_not.mp hf, hw.library]
    rfl

/-- **Whatever is done, all frames in use stay rooted** in the session. -/
theorem perform (hw : Founded s w) {act : Act} (hact : act.Alone) :
    ∃ s', Founded s' (w.perform act) ∧ s.Later s' := by
  obtain ⟨s', hheld, hs⟩ := hw.held.moved (Heap.stable_rooted s.library s.global) hact
    (w.moved act) fun _ => ⟨fun _ _ => trivial, hw.rooted_global⟩
  have hl := hs.later
  obtain ⟨frame, hf, hk, hp⟩ := hw.global
  obtain ⟨frame', hf', hk', hp'⟩ := hl.heap _ _ hf
  refine ⟨s', ⟨?_, ?_, ⟨frame', ?_, hk'.trans hk, ?_⟩, ?_⟩, hl⟩
  · rwa [hs.library, hs.global]
  · rw [hs.library, hw.frame?_library hs, hw.library]
  · rw [hs.global, hf']
  · rw [hs.library, hp', hp]
  · rw [hs.library, hs.global]
    exact hw.older

theorem performAll (hw : Founded s w) {acts : List Act} (hacts : ∀ act ∈ acts, act.Alone) :
    ∃ s', Founded s' (w.performAll acts) ∧ s.Later s' := by
  refine performAll_keeps (I := fun w => ∃ s', Founded s' w ∧ s.Later s')
    (fun w act hact ⟨s₁, hw₁, hl⟩ => ?_) hacts ⟨s, hw, .refl s⟩
  obtain ⟨s', hw', hl'⟩ := hw₁.perform hact
  exact ⟨s', hw', hl.trans hl'⟩

/-- A frame in use is rooted; of a listed frame the coherence of the steppers tells that it is the
global frame or the frame of a call under way. -/
theorem uses {f : FrameId} (hw : Founded s w) (hc : w.Coheres) (hf : w.Uses f) :
    s.heap.Rooted s.library s.global f := by
  cases hf with
  | machine hb hf => exact (hw.held.steppers _ _ hb).2.uses hf
  | @listed k b hb hf =>
    rw [(hw.held.coherent hc hb).listed, List.tail_cons] at hf
    rcases List.mem_cons.mp hf with rfl | hf
    · exact hw.rooted_global
    · obtain ⟨p, hp, hframe⟩ := List.mem_filterMap.mp (List.mem_reverse.mp hf)
      exact (hw.held.steppers k b hb).2.uses (.frame hp hframe)
  | @bound i session g frame x v hs hg hb hv =>
    rw [hw.held.sessions] at hs
    obtain rfl : session = s := by simpa using Array.mem_of_getElem? hs
    exact (hw.held.heap g frame hg (x, v) hb).scope hv
  | result hr hv => exact (hw.held.results _ _ hr).scope hv

end Founded

/-- **The frames of a session are well-formed**, whatever is done with it: every frame in use leads
through frames of calls to the global frame and the library, which keep their places and bind what
they should. -/
theorem frames_rooted {acts more : List Act} (hacts : ∀ act ∈ acts, act.Alone)
    (hmore : ∀ act ∈ more, act.Alone) : ∃ s s',
    (Workbench.new.performAll acts).sessions = #[s] ∧
    (Workbench.new.performAll (acts ++ more)).sessions = #[s'] ∧
    (∀ f, (Workbench.new.performAll acts).Uses f → ∃ calls,
      s.heap.Outwards f (calls ++ [s.global, s.library]) ∧
      s.heap.lineage f = calls ++ [s.global, s.library] ∧
      ∀ g ∈ calls, ∃ frame, s.heap.frame? g = some frame ∧ frame.kind = .call) ∧
    (∃ frame, s.heap.frame? s.global = some frame ∧ frame.kind = .global) ∧
    s.heap.frame? s.library = some ⟨.library, none,
      [("*", .primitive .multiply), ("+", .primitive .add), ("-", .primitive .subtract),
        ("/", .primitive .divide), ("<", .primitive .less)]⟩ ∧
    (∀ (k : Nat) (b : Parked), (Workbench.new.performAll acts).steppers[k]? = some b →
      b.machine.frames.frames.head? = some s.library) ∧
    s.Later s' := by
  obtain ⟨s, hw, -⟩ := Founded.new.performAll hacts
  obtain ⟨s', hw', hl⟩ := hw.performAll hmore
  have hc : (Workbench.new.performAll acts).Coheres := Reachable.coheres ⟨acts, rfl⟩
  rw [performAll_append]
  refine ⟨s, s', hw.held.sessions, hw'.held.sessions, fun f hf => ?_, ?_, ?_, fun k b hb => ?_, hl⟩
  · exact (hw.uses hc hf).outwards hw.library rfl
  · obtain ⟨frame, hf, hk, -⟩ := hw.global
    exact ⟨frame, hf, hk⟩
  · rw [hw.library, Heap.libraryBindings_eq]
  · rw [(hw.held.coherent hc hb).listed]
    rfl

/-- The form `((lambda (x) (lambda (y) x)) ())` has a closure as its value, so the frame of its call
stays in use, even though the program fails that consists of this form alone. -/
theorem frames_rooted_returned : ∃ acts s calls, (∀ act ∈ acts, Act.Alone act) ∧
    (Workbench.new.performAll acts).sessions = #[s] ∧ (Workbench.new.performAll acts).Uses ⟨2⟩ ∧
    s.heap.lineage ⟨2⟩ = calls ++ [s.global, s.library] := by
  let node := fun id children => Node.expression ⟨0, ⟨id⟩⟩ default children
  let name := fun id x => Node.atom ⟨0, ⟨id⟩⟩ default (.identifier x)
  let inner := node 6 [name 7 "lambda", node 8 [name 9 "y"], name 10 "x"]
  let form := node 1 [node 2 [name 3 "lambda", node 4 [name 5 "x"], inner], node 11 []]
  let acts : List Act := [.program ⟨node 0 [form]⟩, .evaluate 0 0 5]
  let value := Value.closure ⟨⟨0, 1⟩, ["y"], name 10 "x", ⟨2⟩⟩
  have hresults : ∃ written,
      (Workbench.new.performAll acts).results = Results.recordAll ∅ ((form, value) :: written) :=
    ⟨_, rfl⟩
  have hvalue : (Workbench.new.performAll acts).results.of? form = some value := by
    obtain ⟨written, hresults⟩ := hresults
    rw [hresults, Results.of?_recordAll]
    rfl
  have huses : (Workbench.new.performAll acts).Uses ⟨2⟩ := .result hvalue (.closure _)
  have hacts : ∀ act ∈ acts, act.Alone := by simp [acts, Act.Alone]
  have hmore : ∀ act ∈ ([] : List Act), act.Alone := by simp
  obtain ⟨s, -, hs, -, hrooted, -⟩ := frames_rooted hacts hmore
  obtain ⟨calls, -, hlineage, -⟩ := hrooted ⟨2⟩ huses
  exact ⟨acts, s, calls, hacts, hs, huses, hlineage⟩

end Workbench

end StepLisp
