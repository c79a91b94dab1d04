import StepLisp.Proofs.History
import StepLisp.Proofs.Visibility

/-!
# How the heap of a session comes about

The frame of a call binds the parameters to the arguments, one after the other, and the library
frame binds the primitives in this way. So the heap of a session comes about by the creation of
frames that bind nothing and by definitions, and what holds of all heaps that come about so holds of
every session.

* `Heap.After.allocate`: a frame that binds something comes about so;
* `Change.after` and `Runs.after`: what a machine does to its heap;
* `Workbench.Assembled`, a workbench with such a session, with `Assembled.perform`, and
  **`Workbench.assembled_performAll`**: so is the session, whatever is done with it.
-/

namespace StepLisp

namespace Heap

variable {acts : List Act} {h h' : Heap} {f : FrameId}

theorem define_allocate (h : Heap) (kind : FrameKind) (parent : Option FrameId) (bs : Bindings)
    (x : String) (v : Value) :
    (h.allocate ⟨kind, parent, bs⟩).2.define (h.allocate ⟨kind, parent, bs⟩).1 x v =
      (h.allocate ⟨kind, parent, bs.insert x v⟩).2 := by
  have hframes : ∀ (frames : Array Frame) (frame : Frame),
      (frames.push frame).modify frames.size (·.define x v) = frames.push (frame.define x v) := by
    intro frames frame
    refine Array.ext_getElem? fun i => ?_
    rw [Array.getElem?_modify, Array.getElem?_push, Array.getElem?_push]
    by_cases hi : i = frames.size
    · simp [hi]
    · simp [hi, Ne.symm hi]
  exact congrArg (Heap.mk · h.next) (hframes h.frames _)

/-- **A frame with bindings** is one that binds nothing at first. -/
theorem After.allocate (ha : After acts h) (kind : FrameKind) (parent : Option FrameId)
    (hp : ∀ p ∈ parent, (h.frame? p).isSome) (ds : List (String × Value)) :
    ∃ more, After (acts ++ more) (h.allocate ⟨kind, parent, .ofDefinitions ds⟩).2 := by
  induction ds using List.reverseRecOn with
  | nil => exact ⟨_, ha.create kind parent hp⟩
  | append_singleton ds d ih =>
    obtain ⟨more, hmore⟩ := ih
    rw [Bindings.ofDefinitions_concat, ← define_allocate]
    refine ⟨more ++ [.define (h.allocate ⟨kind, parent, .ofDefinitions ds⟩).1 d.1 d.2], ?_⟩
    rw [← List.append_assoc]
    refine hmore.define ?_ d.1 d.2
    rw [frame?_allocate, if_pos rfl]
    rfl

/-- The frames that are there. -/
def Present (h : Heap) (f : FrameId) : Prop := (h.frame? f).isSome

theorem stable_present : Stable (fun _ => True) Present where
  child := fun _ _ => trivial
  grows := by
    intro h h' f hg hf
    obtain ⟨frame, hframe⟩ := Option.isSome_iff_exists.mp hf
    obtain ⟨frame', hframe', -⟩ := hg f frame hframe
    exact Option.isSome_iff_exists.mpr ⟨frame', hframe'⟩
  enter := by
    intro h c args _
    rw [Present, Closure.enter, frame?_allocate, if_pos rfl]
    rfl

end Heap

namespace Machine

variable {acts : List Heap.Act} {h h' : Heap} {m m' : Machine} {e : Option Event} {es : List Event}
  {k : Nat}

open Heap (Present)

/-- **A change creates a frame, makes definitions, or leaves all frames as they are.** -/
theorem Change.after (ha : Heap.After acts h) (hm : m.Over (fun _ => True) h.Present)
    (hchange : Change h m e h' m') : ∃ more, Heap.After (acts ++ more) h' := by
  have hsame : Heap.After (acts ++ []) h := by rwa [List.append_nil]
  cases hchange with
  | value hc hi =>
    cases hi with
    | abstraction hf => exact ⟨[], hsame.makeClosure _ _ _⟩
    | _ => exact ⟨[], hsame⟩
  | define hc hp => exact ⟨_, ha.define (hm.cons hp).1 _ _⟩
  | @enter v n vs args s rest c hc hp hn hr =>
    obtain ⟨⟨-, hvs, -⟩, -⟩ := hm.cons hp
    obtain ⟨⟨-, hscope⟩, -⟩ := apply_each (each_concat hvs (hm.deliver hc)) hr
    refine ha.allocate .call (some c.scope) ?_ (c.params.zip args)
    rintro p ⟨⟩
    exact hscope
  | _ => exact ⟨[], hsame⟩

theorem Runs.after (ha : Heap.After acts h) (hm : m.Over (fun _ => True) h.Present)
    (hh : h.Each (Closure.Over (fun _ => True) h.Present)) (hr : Runs k h m es h' m') :
    ∃ more, Heap.After (acts ++ more) h' := by
  induction hr generalizing acts with
  | refl => exact ⟨[], by rwa [List.append_nil]⟩
  | @step _ h h₁ h' m m₁ m' e _ hchange _ ih =>
    obtain ⟨hm₁, hh₁⟩ := hchange.over Heap.stable_present hm hh
    obtain ⟨first, hfirst⟩ := hchange.after ha hm
    obtain ⟨more, hmore⟩ := ih hfirst hm₁ hh₁
    exact ⟨first ++ more, by rwa [List.append_assoc] at hmore⟩

theorem Goes.after (ha : Heap.After acts h) (hm : m.Over (fun _ => True) h.Present)
    (hh : h.Each (Closure.Over (fun _ => True) h.Present)) (hg : m.Goes h es h' m') :
    ∃ more, Heap.After (acts ++ more) h' := by
  obtain ⟨k, m₁, hr, -⟩ := hg
  exact hr.after ha hm hh

end Machine

namespace Workbench

open Machine

variable {w : Workbench} {s : Session} {deeds : List Heap.Act}

/-- The heap of the session `s`, which is the only one, comes about by the creations and definitions
`deeds`. -/
structure Assembled (deeds : List Heap.Act) (s : Session) (w : Workbench) : Prop where
  held : w.Over (fun _ => True) Heap.Present s
  after : Heap.After deeds s.heap
  global : s.heap.Present s.global

namespace Assembled

theorem new : ∃ deeds, Assembled deeds .new .new := by
  obtain ⟨first, hfirst⟩ := Heap.After.empty.allocate .library none nofun
    (Primitive.all.map fun p => (p.name, .primitive p))
  have hglobal := hfirst.create .global (some ⟨0⟩) (by rintro p ⟨⟩; rfl)
  exact ⟨_, over_new, hglobal, rfl⟩

/-- **Whatever is done, the heap comes about so.** -/
theorem perform (hw : Assembled deeds s w) {act : Act} (hact : act.Alone) :
    ∃ s' more, Assembled (deeds ++ more) s' (w.perform act) := by
  obtain ⟨s', hheld, hs⟩ := hw.held.moved Heap.stable_present hact (w.moved act)
    fun _ => ⟨fun _ _ => trivial, hw.global⟩
  have hglobal : s'.heap.Present s'.global := by
    rw [hs.global]
    exact Heap.stable_present.grows hs.later.heap hw.global
  rcases hs.heap with heq | ⟨m, es, m', hm, hg⟩
  · refine ⟨s', [], hheld, ?_, hglobal⟩
    rw [List.append_nil, heq]
    exact hw.after
  · obtain ⟨more, hmore⟩ := hg.after hw.after hm hw.held.heap
    exact ⟨s', more, hheld, hmore, hglobal⟩

end Assembled

/-- **The heap of a session comes about by creations and definitions**, whatever is done with the
session, its programs and its steppers. -/
theorem assembled_performAll {acts : List Act} (hacts : ∀ act ∈ acts, act.Alone) :
    ∃ deeds s, Assembled deeds s (Workbench.new.performAll acts) := by
  obtain ⟨deeds, hnew⟩ := Assembled.new
  refine performAll_keeps (I := fun w => ∃ deeds s, Assembled deeds s w)
    (fun w act hact ⟨deeds, s, hw⟩ => ?_) hacts ⟨deeds, .new, hnew⟩
  obtain ⟨s', more, hw'⟩ := hw.perform hact
  exact ⟨_, s', hw'⟩

end Workbench

end StepLisp
