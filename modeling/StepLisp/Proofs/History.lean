import StepLisp.Proofs.Contents
import StepLisp.Proofs.Reachable

/-!
# The history of a session

What a session, its programs and its steppers hold, whatever is done with them: the nodes and frames
in the machines, in the bindings and in the results are from stable sets, if they are so for every
program that is started or evaluated.

* `Results.Each`, a property of all closures in the results;
* `Workbench.Over`, all that a session, its steppers and the results hold is over sets of nodes and
  frames, where this session is used alone (`Act.Alone`);
* `Workbench.Carried`, what an act comes to for this session, with **`Over.moved`**: all stays over
  these sets.
-/

namespace StepLisp

theorem Machine.Goes.over {P : Node → Prop} {S : Heap → FrameId → Prop} {h h' : Heap}
    {m m' : Machine} {es : List Event} (hst : Stable P S) (hm : m.Over P (S h))
    (hh : h.Each (Closure.Over P (S h))) (hg : m.Goes h es h' m') :
    m'.Over P (S h') ∧ h'.Each (Closure.Over P (S h')) ∧
      ∀ w ∈ suspensions es, P w.1 ∧ w.2.Each (Closure.Over P (S h')) := by
  obtain ⟨k, m₁, hr, hend⟩ := hg
  obtain ⟨hm₁, hrest⟩ := hr.over hst hm hh
  refine ⟨?_, hrest⟩
  rcases hend with rfl | ⟨a, hs⟩
  · exact hm₁
  · exact hs.over hm₁

namespace Results

variable {Q Q' : Closure → Prop} {r : Results}

/-- All closures in the results of all nodes have the property `Q`. -/
def Each (Q : Closure → Prop) (r : Results) : Prop :=
  ∀ (place : Place) (v : Value), r[place]? = some v → v.Each Q

theorem each_empty : (∅ : Results).Each Q := by
  intro place v hv
  rw [Std.HashMap.getElem?_empty] at hv
  cases hv

theorem Each.mono (hr : r.Each Q) (hq : ∀ c, Q c → Q' c) : r.Each Q' :=
  fun place v hv => (hr place v hv).mono hq

theorem Each.recordAll {written : List (Node × Value)} (hr : r.Each Q)
    (hw : ∀ w ∈ written, w.2.Each Q) : (r.recordAll written).Each Q := by
  induction written with
  | nil => exact hr
  | cons w written ih =>
    obtain ⟨hv, hw⟩ := List.forall_mem_cons.mp hw
    intro place v hplace
    have hcons : (r.recordAll written).record w.1 w.2 = r.recordAll (w :: written) := rfl
    rw [← hcons, record, Std.HashMap.getElem?_insert] at hplace
    split at hplace
    · cases hplace
      exact hv
    · exact ih hw place v hplace

end Results

theorem Session.each_numbered {Q : Closure → Prop} (i : Nat) :
    (Session.numbered i).heap.Each Q := by
  have hempty : (Heap.numbered i).Each Q := by
    intro f frame hf
    cases hf
  exact (hempty.allocate Heap.each_libraryBindings).allocate Bindings.each_nil

theorem Session.each_new {Q : Closure → Prop} : Session.new.heap.Each Q := each_numbered 0

namespace Workbench

open Machine

/-- No other session is opened, and nothing is defined from outside. -/
def Act.Alone : Act → Prop
  | .newSession => False
  | .define _ _ _ _ => False
  | _ => True

/-- All that the session `s`, which is the only one, its steppers and the results hold is over the
nodes `P` and the frames `S`. -/
structure Over (P : Node → Prop) (S : Heap → FrameId → Prop) (s : Session) (w : Workbench) :
    Prop where
  sessions : w.sessions = #[s]
  heap : s.heap.Each (Closure.Over P (S s.heap))
  steppers : ∀ (k : Nat) (b : Parked), w.steppers[k]? = some b →
    b.session = 0 ∧ b.machine.Over P (S s.heap)
  results : w.results.Each (Closure.Over P (S s.heap))

/-- What an act comes to for the only session: its heap stays, or a machine goes on in it. -/
structure Carried (P : Node → Prop) (S : Heap → FrameId → Prop) (s s' : Session) : Prop where
  library : s'.library = s.library
  global : s'.global = s.global
  heap : s'.heap = s.heap ∨ ∃ (m : Machine) (es : List Event) (m' : Machine),
    m.Over P (S s.heap) ∧ m.Goes s.heap es s'.heap m'

variable {P P' : Node → Prop} {S : Heap → FrameId → Prop} {w w' : Workbench} {s s' : Session}
  {st st' : Stepper} {t : Tree} {k : Nat} {act : Act}

theorem Carried.later (hs : Carried P S s s') : s.Later s' := by
  refine ⟨hs.library, hs.global, ?_⟩
  rcases hs.heap with heq | ⟨m, es, m', -, hg⟩
  · exact heq ▸ .refl s.heap
  · exact hg.grows

theorem over_new : Workbench.new.Over P S .new where
  sessions := rfl
  heap := Session.each_new
  steppers := by
    intro k b hb
    cases hb
  results := Results.each_empty

theorem AllAlike.singleton {a : Array Session} (h : AllAlike #[s] a) :
    ∃ s', a = #[s'] ∧ s.Alike s' := by
  obtain ⟨s', rfl⟩ := Array.size_eq_one_iff.mp h.size
  obtain ⟨s₀, hs₀, halike⟩ := h.alike 0 s' rfl
  cases hs₀
  exact ⟨s', rfl, halike⟩

namespace Over

theorem mono (hw : w.Over P S s) (hP : ∀ n, P n → P' n) : w.Over P' S s where
  sessions := hw.sessions
  heap := hw.heap.mono fun _ hc => hc.mono hP fun _ => id
  steppers := fun k b hb =>
    ⟨(hw.steppers k b hb).1, (hw.steppers k b hb).2.mono hP fun _ => id⟩
  results := hw.results.mono fun _ hc => hc.mono hP fun _ => id

theorem getD_sessions (hw : w.Over P S s) : w.sessions.getD 0 .new = s := by
  rw [hw.sessions]
  rfl

theorem set_sessions (hw : w.Over P S s) (s' : Session) :
    w.sessions.setIfInBounds 0 s' = #[s'] := by
  rw [hw.sessions]
  rfl

theorem of_getElem? {i : Nat} (hw : w.Over P S s) (hs : w.sessions[i]? = some s') :
    i = 0 ∧ s = s' := by
  rw [hw.sessions] at hs
  obtain ⟨hi, hs⟩ := Array.getElem?_eq_some_iff.mp hs
  obtain rfl : i = 0 := Nat.lt_one_iff.mp hi
  exact ⟨rfl, hs⟩

theorem coherent {b : Parked} (hw : w.Over P S s) (hc : w.Coheres) (hb : w.steppers[k]? = some b) :
    b.machine.Coherent s.library s.global s.heap := by
  obtain ⟨s', hs, hm⟩ := hc k b hb
  rwa [← (hw.of_getElem? hs).2] at hm

theorem stepper (hw : w.Over P S s) (hk : w.stepper? k = some st) :
    st.session = s ∧ st.machine.Over P (S s.heap) := by
  obtain ⟨b, t, s', hb, -, hs, rfl⟩ := stepper?_eq_some.mp hk
  exact ⟨(hw.of_getElem? hs).2.symm, (hw.steppers k b hb).2⟩

theorem kept (hw : w.Over P S s) (hm : w.Kept act w')
    (hroots : act.stepper? = none → (∀ t ∈ w.trees, P t.root) ∧ S s.heap s.global) :
    ∃ s', w'.Over P S s' ∧ s.Alike s' := by
  obtain ⟨s', hsessions, halike⟩ := (hw.sessions ▸ hm.sessions).singleton
  refine ⟨s', ⟨hsessions, ?_, fun k b hb => ?_, ?_⟩, halike⟩
  · rw [halike.heap]
    exact hw.heap
  · rw [halike.heap]
    cases hm.steppers k b hb with
    | kept hb₀ htree hsession hmachine =>
      rw [hsession, hmachine]
      exact hw.steppers k _ hb₀
    | started hact hk ht hs hmachine =>
      obtain ⟨hzero, rfl⟩ := hw.of_getElem? hs
      obtain ⟨hP, hS⟩ := hroots hact
      rw [hmachine]
      exact ⟨hzero, over_start (hP _ (Array.mem_of_getElem? ht)) hS⟩
  · rw [halike.heap, hm.results]
    exact hw.results

theorem goes {m m' : Machine} {es : List Event} {h' : Heap} (hst : Stable P S) (hw : w.Over P S s)
    (hm : m.Over P (S s.heap)) (hg : m.Goes s.heap es h' m') :
    m'.Over P (S h') ∧ h'.Each (Closure.Over P (S h')) ∧
      (∀ (k : Nat) (b : Parked), w.steppers[k]? = some b →
        b.session = 0 ∧ b.machine.Over P (S h')) ∧
      (w.results.recordAll (suspensions es).reverse).Each (Closure.Over P (S h')) := by
  obtain ⟨hm', hh', hlog⟩ := hg.over hst hm hw.heap
  have hS : ∀ f, S s.heap f → S h' f := fun _ => hst.grows hg.grows
  have hresults : w.results.Each (Closure.Over P (S h')) :=
    hw.results.mono fun _ hc => hc.mono (fun _ => id) hS
  refine ⟨hm', hh', fun k b hb => ?_, hresults.recordAll fun w hw => ?_⟩
  · obtain ⟨hzero, hb⟩ := hw.steppers k b hb
    exact ⟨hzero, hb.mono (fun _ => id) hS⟩
  · exact (hlog w (List.mem_reverse.mp hw)).2

theorem put {es : List Event} (hst : Stable P S) (hw : w.Over P S s) (hk : w.stepper? k = some st)
    (hg : st.Goes es st') (heard : List String) : ∃ h', Carried P S s { s with heap := h' } ∧
      (w.put k st' heard).Over P S { s with heap := h' } := by
  obtain ⟨b, t, s', hb, -, hs, rfl⟩ := stepper?_eq_some.mp hk
  obtain ⟨hzero, hm⟩ := hw.steppers k b hb
  obtain ⟨-, rfl⟩ := hw.of_getElem? hs
  cases hg with
  | @moved h' m' hg =>
    obtain ⟨hm', hh', hsteppers, hresults⟩ := hw.goes hst hm hg
    refine ⟨h', ⟨rfl, rfl, .inr ⟨_, _, m', hm, hg⟩⟩, ?_⟩
    rw [Workbench.put, hb]
    dsimp only
    rw [hzero]
    refine ⟨hw.set_sessions _, hh', fun j c hc => ?_, hresults⟩
    rcases eq_or_of_getElem?_set hc with ⟨-, -, rfl⟩ | ⟨-, hc⟩
    · exact ⟨rfl, hm'⟩
    · exact hsteppers j c hc

/-- **Whatever is done, all that is held stays over these sets**, if the roots of the programs are,
where one is started or evaluated. -/
theorem moved (hst : Stable P S) (hw : w.Over P S s) (hact : act.Alone) (hm : w.Moved act w')
    (hroots : act.stepper? = none → (∀ t ∈ w.trees, P t.root) ∧ S s.heap s.global) :
    ∃ s', w'.Over P S s' ∧ Carried P S s s' := by
  cases hm with
  | opened => exact hact.elim
  | kept hkept =>
    obtain ⟨s', hw', halike⟩ := hw.kept hkept hroots
    exact ⟨s', hw', halike.library, halike.global, .inl halike.heap⟩
  | goes _ hk hg heard =>
    obtain ⟨h', hcarried, hw'⟩ := hw.put hst hk hg heard
    exact ⟨_, hw', hcarried⟩
  | @evaluated act i s₀ t es h' m' hnone hs ht hg =>
    obtain ⟨rfl, rfl⟩ := hw.of_getElem? hs
    obtain ⟨hP, hS⟩ := hroots hnone
    have hstart : (Machine.start t.root s.library s.global).Over P (S s.heap) :=
      over_start (hP t ht) hS
    obtain ⟨-, hh', hsteppers, hresults⟩ := hw.goes hst hstart hg
    exact ⟨{ s with heap := h' }, ⟨hw.set_sessions _, hh', hsteppers, hresults⟩, rfl, rfl,
      .inr ⟨_, es, m', hstart, hg⟩⟩
  | defined => exact hact.elim

end Over

end Workbench

end StepLisp
