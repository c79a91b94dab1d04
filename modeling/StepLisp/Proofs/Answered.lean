import Mathlib.Tactic
import StepLisp.Proofs.Definitions
import StepLisp.Proofs.Effects
import StepLisp.Proofs.Reachable

/-!
# One change for each advance

Between two advances every stepper of a workbench stands behind its last answer, whatever was done
with the other programs, steppers and sessions meanwhile. So an advance shows one change at most.

* `Workbench.lastAnswer`, the last answer of a stepper to some acts;
* `Workbench.Settled`, the invariant, with `Settled.perform` and **`behind_lastAnswer`**;
* `Stepper.OneChange`, all that an advance shows;
* **`Workbench.oneChange`**: this holds of every advance.
-/

namespace StepLisp

/-- The global frame of the session is in its heap. -/
def Session.HasGlobal (s : Session) : Prop := ∃ frame, s.heap.frame? s.global = some frame

namespace Session.HasGlobal

theorem numbered (i : Nat) : (Session.numbered i).HasGlobal := ⟨_, rfl⟩

theorem later {s s' : Session} (hs : s.HasGlobal) (hl : s.Later s') : s'.HasGlobal := by
  obtain ⟨frame, hf⟩ := hs
  obtain ⟨frame', hf', -⟩ := hl.heap s.global frame hf
  exact ⟨frame', hl.global ▸ hf'⟩

end Session.HasGlobal

theorem Machine.Coherent.exists_innermost {library global : FrameId} {h : Heap} {m : Machine}
    (hm : m.Coherent library global h) (hg : ∃ frame, h.frame? global = some frame) :
    ∃ frame, h.frame? (innermost global m.pending) = some frame := by
  unfold innermost
  cases hcalls : calls m.pending with
  | nil => exact hg
  | cons f rest =>
    obtain ⟨frame, hf, -⟩ := hm.kinds f (by simp [hcalls])
    exact ⟨frame, hf⟩

namespace Workbench

open Machine

/-- No stepper is left in the midst of an advance. -/
def Act.Whole : Act → Prop
  | .change _ _ => False
  | _ => True

/-- The last answer of a stepper to the acts, if it gave one. -/
def lastAnswer (acts : List Act) (k : Nat) : Option Answer :=
  (answersOf k (Workbench.new.answers acts)).getLast?

variable {w w' : Workbench} {log : List (Nat × Answer)} {act : Act} {k : Nat} {s s' : Stepper}
  {a : Answer}

/-- Every stepper stands behind its last answer in the log, and no others have answered. -/
structure Settled (log : List (Nat × Answer)) (w : Workbench) : Prop where
  behind : ∀ (k : Nat) (b : Parked), w.steppers[k]? = some b →
    b.machine.Behind (answersOf k log).getLast?
  absent : ∀ k, w.steppers.size ≤ k → answersOf k log = []

namespace Settled

theorem of_eq (hw : w.Settled log) (hst : w'.steppers = w.steppers) : w'.Settled log := by
  obtain ⟨hbehind, habsent⟩ := hw
  exact ⟨hst ▸ hbehind, hst ▸ habsent⟩

theorem kept (hw : w.Settled log) (hm : w.Kept act w') : w'.Settled log where
  behind := fun k b hb => by
    cases hm.steppers k b hb with
    | kept hb₀ htree hsession hmachine =>
      rw [hmachine]
      exact hw.behind k _ hb₀
    | started hact hk ht hs hmachine =>
      rw [hmachine, hw.absent k (Nat.le_of_eq hk.symm)]
      exact .fresh rfl rfl
  absent := fun k hk => hw.absent k (Nat.le_trans hm.size hk)

theorem put (hw : w.Settled log) (hk : w.stepper? k = some s) (hm : s'.machine.Behind (some a))
    (heard : List String) : (w.put k s' heard).Settled (log ++ [(k, a)]) := by
  obtain ⟨b, t, session, hb, -, -, rfl⟩ := stepper?_eq_some.mp hk
  have hlt : k < w.steppers.size := (Array.getElem?_eq_some_iff.mp hb).1
  have hother : ∀ j, k ≠ j → answersOf j (log ++ [(k, a)]) = answersOf j log := fun j hj => by
    rw [answersOf_append, answersOf_cons_of_ne _ _ hj]
    exact List.append_nil _
  rw [Workbench.put, hb]
  refine ⟨fun j c hc => ?_, fun j hj => ?_⟩
  · rcases eq_or_of_getElem?_set hc with ⟨rfl, -, rfl⟩ | ⟨hkj, hc⟩
    · rw [answersOf_append, answersOf_cons_self, List.getLast?_append]
      exact hm
    · rw [hother j hkj]
      exact hw.behind j c hc
  · rw [Array.size_setIfInBounds] at hj
    rw [hother j (Nat.ne_of_lt (Nat.lt_of_lt_of_le hlt hj))]
    exact hw.absent j hj

theorem behind_stepper (hw : w.Settled log) (hk : w.stepper? k = some s) :
    s.machine.Behind (answersOf k log).getLast? := by
  obtain ⟨b, t, session, hb, -, -, rfl⟩ := stepper?_eq_some.mp hk
  exact hw.behind k b hb

end Settled

theorem Behind.advance_stepper {b : Option Answer} (hs : s.machine.Behind b) :
    s.advance.stepper.machine.Behind (some s.advance.answer) := by
  rw [s.advance_eq.2, s.advance_eq.1]
  exact hs.nested.advance _

theorem behind_follow {σ : Type} {listen : σ → List Event → Stepper → σ} {limit : Nat}
    {heard heard' : σ} {b : Option Answer} {outcome : Except Fault Value}
    (hs : s.machine.Behind b)
    (hf : Stepper.follow listen limit heard s = some (outcome, heard', s')) :
    s'.machine.Behind (some (.ofOutcome outcome)) := by
  induction limit generalizing s heard b with
  | zero => cases hf
  | succ limit ih =>
    have hnext := Behind.advance_stepper hs
    rw [Stepper.follow] at hf
    rcases hadv : s.advance with ⟨answer, events, s₁⟩
    rw [hadv] at hf hnext
    cases answer with
    | suspended n v => exact ih hnext hf
    | done v =>
      cases hf
      exact hnext
    | failed f =>
      cases hf
      exact hnext

/-- **An act leaves every stepper behind its last answer**, unless it stops in the midst of an
advance. -/
theorem Settled.perform (hw : w.Settled log) (hact : act.Whole) :
    (w.perform act).Settled (log ++ (w.answer? act).toList) := by
  -- only an advance and a run are answered, and all else leaves the machines as they are
  have hrest : w.answer? act = none → (act.stepper? = none ∨ w.Kept act (w.perform act)) →
      (w.perform act).Settled (log ++ (w.answer? act).toList) := by
    intro hnone hstays
    rw [hnone, Option.toList_none, List.append_nil]
    have hm := w.moved act
    generalize w.perform act = w' at hm hstays
    cases hm with
    | opened => exact hw.of_eq rfl
    | kept hkept => exact hw.kept hkept
    | goes hsome => exact hw.kept (hstays.resolve_left (by rw [hsome]; exact Option.some_ne_none _))
    | evaluated => exact hw.of_eq rfl
    | defined => exact hw.of_eq rfl
  cases act with
  | change k heard => exact hact.elim
  | takeHeard k => exact hrest rfl (.inr (w.kept_takeHeard k))
  | advance k =>
    rcases ha : w.advance k with _ | ⟨a, w'⟩
    · rw [Workbench.perform, answer?, ha]
      exact (List.append_nil log).symm ▸ hw
    · rw [Workbench.perform, answer?, ha]
      obtain ⟨c, s, hc, hk, rfl, rfl⟩ := advance_eq_some.mp ha
      exact hw.put hk (Behind.advance_stepper (hw.behind_stepper hk)) _
  | run k limit =>
    rcases hr : w.run k limit with _ | ⟨outcome, w'⟩
    · rw [Workbench.perform, answer?, hr]
      exact (List.append_nil log).symm ▸ hw
    · rw [Workbench.perform, answer?, hr]
      obtain ⟨b, hb, hr⟩ := Option.bind_eq_some_iff.mp hr
      obtain ⟨s, hk, hr⟩ := Option.bind_eq_some_iff.mp hr
      obtain ⟨⟨outcome, heard, s'⟩, hf, hr⟩ := Option.bind_eq_some_iff.mp hr
      cases hr
      exact hw.put hk (behind_follow (hw.behind_stepper hk) hf) heard
  | _ => exact hrest rfl (.inl rfl)

/-- **Every stepper stands behind its last answer**, if none was left in the midst of an advance. -/
theorem behind_lastAnswer {acts : List Act} (hacts : ∀ act ∈ acts, act.Whole)
    (hk : (Workbench.new.performAll acts).stepper? k = some s) :
    s.machine.Behind (lastAnswer acts k) := by
  have hnew : Workbench.new.Settled [] := ⟨fun k b hb => (by cases hb), fun _ _ => rfl⟩
  have hall : ∀ (w : Workbench) (log : List (Nat × Answer)), w.Settled log →
      (w.performAll acts).Settled (log ++ w.answers acts) := by
    clear hk
    induction acts with
    | nil =>
      intro w log hw
      rwa [answers, List.append_nil]
    | cons act acts ih =>
      obtain ⟨hact, hacts⟩ := List.forall_mem_cons.mp hacts
      intro w log hw
      rw [answers, ← List.append_assoc]
      exact ih hacts _ _ (hw.perform hact)
  exact (hall _ _ hnew).behind_stepper hk

end Workbench

/-! ## What an advance shows -/

theorem Results.of?_record_of_ne (r : Results) (v : Value) {n c : Node} (hc : c.place ≠ n.place) :
    (r.record n v).of? c = r.of? c := by
  rw [of?, record, Std.HashMap.getElem?_insert, if_neg (by simpa using hc.symm), of?]

/-- The frame `f'` is the frame `f` with the name `x` bound to `u`. -/
structure Frame.Rebound (f : Frame) (x : String) (u : Value) (f' : Frame) : Prop where
  kind : f'.kind = f.kind
  parent : f'.parent = f.parent
  bound : f'.bindings.find? x = some u
  others : ∀ y, y ≠ x → f'.bindings.find? y = f.bindings.find? y

theorem Frame.rebound_define (f : Frame) (x : String) (u : Value) :
    f.Rebound x u (f.define x u) where
  kind := rfl
  parent := rfl
  bound := (Bindings.find?_insert f.bindings x u x).trans (if_pos rfl)
  others := fun y hy => (Bindings.find?_insert f.bindings x u y).trans (if_neg hy)

namespace Stepper

/-- A node that gets a value is noted with it, counted, and becomes the current one; with any other
answer, nothing is noted. -/
def Writes (s : Stepper) : Prop :=
  match s.advance.answer with
  | .suspended n v =>
    suspensions s.advance.events = [(n, v)] ∧
      s.advance.stepper.results.of? n = some v ∧
      (∀ c : Node, c.place ≠ n.place → s.advance.stepper.results.of? c = s.results.of? c) ∧
      s.advance.stepper.machine.steps = s.machine.steps + 1 ∧
      s.advance.stepper.machine.current = some n
  | _ =>
    suspensions s.advance.events = [] ∧ s.advance.stepper.results = s.results ∧
      s.advance.stepper.machine.steps = s.machine.steps ∧
      s.advance.stepper.machine.current = s.machine.current

/-- The frames that were there stay as they are, unless a definition gets its value: then, in the
frame that is listed last, its name is bound to the value that was answered last. -/
def Binds (last : Option Answer) (s : Stepper) : Prop :=
  match s.advance.answer.definition? with
  | none => s.session.heap.Extends s.advance.stepper.session.heap
  | some (x, b) => ∃ u f frame frame', last = some (.suspended b u) ∧
      s.machine.frames.frames.getLast? = some f ∧ s.session.heap.frame? f = some frame ∧
      s.advance.stepper.session.heap.frame? f = some frame' ∧ frame.Rebound x u frame' ∧
      ∀ g, g ≠ f → s.advance.stepper.session.heap.frame? g = s.session.heap.frame? g

/-- **All that an advance shows**, of a stepper that has given the answer `last`. -/
structure OneChange (last : Option Answer) (s : Stepper) : Prop where
  writes : s.Writes
  binds : s.Binds last
  /-- One frame at most is entered or left. -/
  framings : (framings s.advance.events).length ≤ 1
  left : ∀ f, .left f ∈ s.advance.events → ∃ n v, s.advance.answer = .suspended n v

open Machine

variable {s : Stepper} {last : Option Answer}

theorem writes_advance (s : Stepper) : s.Writes := by
  obtain ⟨hlog, hwritten⟩ := Machine.advance_written s.session.heap s.machine
  rw [Writes, s.advance_events, s.advance_eq.2, s.advance_eq.1, hlog]
  revert hwritten
  cases (s.machine.advance s.session.heap).answer with
  | suspended n v =>
    refine fun hwritten => ⟨rfl, ?_, fun c hc => ?_, hwritten⟩
    · exact Std.HashMap.getElem?_insert_self
    · exact Results.of?_record_of_ne s.results v hc
  | _ => exact fun hwritten => ⟨rfl, rfl, hwritten⟩

/-- A definition is made in the frame that is listed last, since its work is to be done there. -/
theorem binds_advance (hm : s.machine.Behind last) (hc : s.Coherent) (hg : s.session.HasGlobal) :
    s.Binds last := by
  have hbound := (hm.effects s.session.heap).bound
  rw [Binds, s.advance_eq.2, s.advance_eq.1]
  revert hbound
  cases (s.machine.advance s.session.heap).answer.definition? with
  | none => exact id
  | some d =>
    rintro ⟨u, f, rest, hlast, hp, hheap⟩
    have hf : f = innermost s.session.global s.machine.pending := by
      rw [hp, innermost_cons rfl]
      exact (hp ▸ hc.scopes).head rfl
    obtain ⟨frame, hframe⟩ := hc.exists_innermost hg
    rw [← hf] at hframe
    refine ⟨u, f, frame, frame.define d.1 u, hlast, hf ▸ hc.getLast?_frames, hframe, ?_,
      frame.rebound_define d.1 u, fun g hgf => ?_⟩
    · show (s.machine.advance s.session.heap).heap.frame? f = _
      rw [hheap, Heap.frame?_define, if_pos rfl, hframe]
      rfl
    · show (s.machine.advance s.session.heap).heap.frame? g = _
      rw [hheap, Heap.frame?_define, if_neg hgf]

end Stepper

namespace Workbench

variable {k : Nat} {s : Stepper}

/-- **Each advance is one change that can be seen**, whatever was done before: one node gets a value
or none, only a definition that gets its value binds a name, and one frame at most is entered or
left. -/
theorem oneChange {acts : List Act} (hacts : ∀ act ∈ acts, act.Whole)
    (hk : (Workbench.new.performAll acts).stepper? k = some s) :
    s.OneChange (lastAnswer acts k) := by
  have hreachable : (Workbench.new.performAll acts).Reachable := ⟨acts, rfl⟩
  have hcoherent := hreachable.coheres.stepper hk
  have hbehind := behind_lastAnswer hacts hk
  have heffects := hbehind.effects s.session.heap
  have hglobal : s.session.HasGlobal := by
    obtain ⟨b, t, session, -, -, hsession, rfl⟩ := stepper?_eq_some.mp hk
    exact (Session.HasGlobal.numbered b.session).later (hreachable.grown _ _ hsession)
  exact
    { writes := s.writes_advance
      binds := Stepper.binds_advance hbehind hcoherent hglobal
      framings := heffects.framings
      left := heffects.left }

/-- In the program `(define x ())`, the value of `()` was answered first; when the definition gets
its value, then `x` has got this value in the global frame, where the frame had no such name. -/
theorem oneChange_definition : ∃ (acts : List Act) (s : Stepper) (n b : Node) (v u : Value)
    (f : FrameId) (frame frame' : Frame), (∀ act ∈ acts, act.Whole) ∧
    (Workbench.new.performAll acts).stepper? 0 = some s ∧ s.advance.answer = .suspended n v ∧
    s.advance.stepper.results.of? n = some v ∧
    s.advance.answer.definition? = some ("x", b) ∧ lastAnswer acts 0 = some (.suspended b u) ∧
    s.session.heap.frame? f = some frame ∧ frame.bindings.find? "x" = none ∧
    s.advance.stepper.session.heap.frame? f = some frame' ∧
    frame'.bindings.find? "x" = some u ∧ frame'.kind = frame.kind := by
  let name := fun id x => Node.atom ⟨0, ⟨id⟩⟩ default (.identifier x)
  let form := Node.expression ⟨0, ⟨1⟩⟩ default
    [name 2 "define", name 3 "x", .expression ⟨0, ⟨4⟩⟩ default []]
  let acts : List Act :=
    [.program ⟨.expression ⟨0, ⟨0⟩⟩ default [form]⟩, .start 0 0, .advance 0]
  have hacts : ∀ act ∈ acts, act.Whole := by simp [acts, Act.Whole]
  have hsome : (do
      let s ← (Workbench.new.performAll acts).stepper? 0
      let (x, _) ← s.advance.answer.definition?
      let f ← s.machine.frames.frames.getLast?
      let frame ← s.session.heap.frame? f
      some (x, frame.bindings.length)) = some ("x", 0) := by
    cbv
  obtain ⟨s, hk, hsome⟩ := Option.bind_eq_some_iff.mp hsome
  obtain ⟨⟨x, b⟩, hd, hsome⟩ := Option.bind_eq_some_iff.mp hsome
  obtain ⟨f, hf, hsome⟩ := Option.bind_eq_some_iff.mp hsome
  obtain ⟨frame, hframe, hsome⟩ := Option.bind_eq_some_iff.mp hsome
  obtain ⟨rfl, hempty⟩ := Prod.mk.inj (Option.some.inj hsome)
  obtain ⟨hwrites, hbinds, -, -⟩ := oneChange hacts hk
  rw [Stepper.Binds, hd] at hbinds
  obtain ⟨u, g, frame₀, frame', hlast, hg, hframe₀, hframe', hrebound, -⟩ := hbinds
  cases hf.symm.trans hg
  cases hframe.symm.trans hframe₀
  cases ha : s.advance.answer with
  | suspended n v =>
    rw [Stepper.Writes, ha] at hwrites
    refine ⟨acts, s, n, b, v, u, f, frame, frame', hacts, hk, ha, hwrites.2.1, ha ▸ hd, hlast,
      hframe, ?_, hframe', hrebound.bound, hrebound.kind⟩
    rw [List.eq_nil_of_length_eq_zero hempty]
    rfl
  | done v => rw [ha] at hd; cases hd
  | failed f => rw [ha] at hd; cases hd

end Workbench

end StepLisp
