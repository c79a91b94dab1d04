import StepLisp.Session.Stepper
import StepLisp.Proofs.Run

/-!
# Growth of the heap

Frames are never removed, and neither their kind nor their parent changes: an evaluation only binds
names in them and adds new frames.

* `Heap.frame?_allocate`, `Heap.frame?_define`: the frames after one change of the heap;
* `Heap.Grows`, the heap `h'` is a later state of `h`, with `Heap.Grows.allocate` and
  `Heap.Grows.define`;
* **`Machine.Change.grows`** and `Machine.Runs.grows`: whatever a machine does, its heap grows;
* `Session.Later`, a session at a later time.
-/

namespace StepLisp

namespace Heap

variable {h h' h'' : Heap} {f g : FrameId} {frame : Frame}

/-! ## The frames after one change -/

theorem frame?_allocate (h : Heap) (frame : Frame) (f : FrameId) :
    (h.allocate frame).2.frame? f =
      if f = (h.allocate frame).1 then some frame else h.frame? f := by
  obtain ⟨f⟩ := f
  unfold allocate frame?
  rw [Array.getElem?_push]
  by_cases hf : f = h.frames.size
  · rw [if_pos hf, if_pos (congrArg FrameId.mk hf)]
  · rw [if_neg hf, if_neg fun heq => hf (FrameId.mk.inj heq)]

theorem frame?_define (h : Heap) (g : FrameId) (x : String) (v : Value) (f : FrameId) :
    (h.define g x v).frame? f =
      if f = g then (h.frame? f).map (·.define x v) else h.frame? f := by
  obtain ⟨f⟩ := f
  obtain ⟨g⟩ := g
  unfold define frame?
  rw [Array.getElem?_modify]
  by_cases hfg : g = f
  · rw [if_pos hfg, if_pos (congrArg FrameId.mk hfg.symm)]
  · rw [if_neg hfg, if_neg fun heq => hfg (FrameId.mk.inj heq).symm]

theorem frame?_fresh (h : Heap) (frame : Frame) : h.frame? (h.allocate frame).1 = none :=
  Array.getElem?_size

/-! ## Growth -/

/-- The heap `h'` is a later state of the heap `h`. -/
def Grows (h h' : Heap) : Prop :=
  ∀ f frame, h.frame? f = some frame →
    ∃ frame', h'.frame? f = some frame' ∧ frame'.kind = frame.kind ∧ frame'.parent = frame.parent

namespace Grows

theorem refl (h : Heap) : h.Grows h := fun _ frame hf => ⟨frame, hf, rfl, rfl⟩

theorem trans (hg : h.Grows h') (hg' : h'.Grows h'') : h.Grows h'' := by
  intro f frame hf
  obtain ⟨frame', hf', hkind, hparent⟩ := hg f frame hf
  obtain ⟨frame'', hf'', hkind', hparent'⟩ := hg' f frame' hf'
  exact ⟨frame'', hf'', hkind'.trans hkind, hparent'.trans hparent⟩

theorem allocate (h : Heap) (new : Frame) : h.Grows (h.allocate new).2 := by
  intro f frame hf
  refine ⟨frame, ?_, rfl, rfl⟩
  rw [frame?_allocate, if_neg, hf]
  rintro rfl
  rw [frame?_fresh] at hf
  cases hf

theorem define (h : Heap) (g : FrameId) (x : String) (v : Value) : h.Grows (h.define g x v) := by
  intro f frame hf
  rw [frame?_define, hf]
  by_cases hfg : f = g
  · exact ⟨_, if_pos hfg, rfl, rfl⟩
  · exact ⟨_, if_neg hfg, rfl, rfl⟩

end Grows

end Heap

namespace Machine

variable {h h' : Heap} {m m' : Machine} {e : Option Event} {es : List Event} {k : Nat}

/-- **The heap of a machine grows with every change.** -/
theorem Change.grows (hm : Change h m e h' m') : h.Grows h' := by
  cases hm with
  | value hc hi => cases hi <;> exact .refl h
  | define hc hp => exact .define h _ _ _
  | enter hc hp hn ha => exact .allocate h _
  | _ => exact .refl h

theorem Runs.grows (hr : Runs k h m es h' m') : h.Grows h' := by
  induction hr with
  | refl => exact .refl _
  | step hm _ ih => exact hm.grows.trans ih

end Machine

/-- The session `s'` is the session `s` at a later time. -/
structure Session.Later (s s' : Session) : Prop where
  library : s'.library = s.library
  global : s'.global = s.global
  heap : s.heap.Grows s'.heap

namespace Session.Later

variable {s s' s'' : Session}

theorem refl (s : Session) : s.Later s := ⟨rfl, rfl, .refl _⟩

theorem trans (hl : s.Later s') (hl' : s'.Later s'') : s.Later s'' :=
  ⟨hl'.library.trans hl.library, hl'.global.trans hl.global, hl.heap.trans hl'.heap⟩

end Session.Later

end StepLisp
