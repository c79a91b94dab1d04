import Mathlib.Data.List.Induction
import Mathlib.Logic.Function.Basic
import StepLisp.Proofs.Equality
import StepLisp.Proofs.History
import StepLisp.Proofs.Origins

/-!
# Which closure it is

Each time that a lambda is evaluated a closure is created, with a number that no closure has had
before, in no session. So all closures that there ever were stand in the lists of what the sessions
created, at the place of their numbers, and two of them are equal only if they are the same one.

* `Closure.Listed`, a closure at its place, and `Machine.creates`, what a machine creates next;
* `Change.lists` and `Runs.lists`: a machine lists what it creates;
* `Workbench.Has`, the closures that there are at some time, and `Workbench.Held`, those that there
  were at any time;
* `Workbench.Lists` with one lemma for each thing that an act can come to, and
  **`Workbench.lists_performAll`**: all closures are listed, whatever is done;
* **`Value.equality_laws`**, all about the equality of values.
-/

namespace StepLisp

/-! ## Closures in the order of their creation -/

/-- The closure is in the list of its session, at the place of its number. -/
def Closure.Listed (made : Nat → List Closure) (c : Closure) : Prop :=
  (made c.number.session)[c.number.index]? = some c

/-- The session `i` has created some more closures. -/
def extend (made : Nat → List Closure) (i : Nat) (more : List Closure) : Nat → List Closure :=
  Function.update made i (made i ++ more)

section Extend

variable {made : Nat → List Closure} {i j : Nat} {more later : List Closure} {c d : Closure}

theorem extend_self : extend made i more i = made i ++ more := Function.update_self ..

theorem extend_of_ne (hj : j ≠ i) : extend made i more j = made j := Function.update_of_ne hj ..

theorem extend_nil : extend made i [] = made := by
  rw [extend, List.append_nil, Function.update_eq_self]

theorem extend_extend : extend (extend made i more) i later = extend made i (more ++ later) := by
  rw [extend, extend_self, extend, Function.update_idem, List.append_assoc]
  rfl

namespace Closure.Listed

theorem extend (hc : c.Listed made) (i : Nat) (more : List Closure) :
    c.Listed (extend made i more) := by
  by_cases hi : c.number.session = i
  · obtain ⟨hlt, -⟩ := List.getElem?_eq_some_iff.mp hc
    rw [Listed, hi, extend_self, ← hi]
    exact (List.getElem?_append_left hlt).trans hc
  · rwa [Listed, extend_of_ne hi]

theorem eq_iff (hc : c.Listed made) (hd : d.Listed made) : c.number = d.number ↔ c = d := by
  refine ⟨fun hs => ?_, congrArg Closure.number⟩
  rw [Listed, hs] at hc
  exact Option.some.inj (hc.symm.trans hd)

end Closure.Listed

end Extend

/-- The heap is that of the session `i`, which has created the closures that are listed for it, and
all closures that are bound in it are listed. -/
structure Heap.Lists (i : Nat) (made : Nat → List Closure) (h : Heap) : Prop where
  next : h.next = ⟨i, (made i).length⟩
  each : h.Each (Closure.Listed made)

namespace Machine

variable {made : Nat → List Closure} {Q Q' : Closure → Prop} {h h' : Heap} {m m' : Machine}
  {e : Option Event} {es : List Event} {i k : Nat}

theorem Each.mono (hm : m.Each Q) (hq : ∀ c, Q c → Q' c) : m.Each Q' := by
  obtain ⟨hcontrol, hpending⟩ := hm
  refine ⟨?_, fun p hp => ?_⟩
  · cases hc : m.control with
    | deliver v =>
      rw [hc] at hcontrol
      exact Value.Each.mono hcontrol hq
    | finished v =>
      rw [hc] at hcontrol
      exact Value.Each.mono hcontrol hq
    | _ => trivial
  · have hp' := hpending p hp
    cases p with
    | collect n vs s => exact fun v hv => (hp' v hv).mono hq
    | _ => trivial

/-- The closure that the machine creates with its next change, if it evaluates a lambda. -/
def creates (h : Heap) (m : Machine) : List Closure :=
  match m.control with
  | .evaluate n s =>
    match Form.ofNode n with
    | .ok (.abstraction ps b) => [(h.makeClosure ps b s).1]
    | _ => []
  | _ => []

theorem creates_of_abstraction {n : Node} {s : FrameId} {ps : List String} {b : Node}
    (hc : m.control = .evaluate n s) (hf : Form.ofNode n = .ok (.abstraction ps b)) :
    m.creates h = [(h.makeClosure ps b s).1] := by
  rw [creates, hc]
  dsimp only
  rw [hf]

theorem Change.next_eq (hchange : Change h m e h' m') :
    h'.next = ⟨h.next.session, h.next.index + (m.creates h).length⟩ := by
  unfold creates
  cases hchange with
  | value hc hi => cases hi <;> simp [*, Heap.makeClosure, ClosureId.next]
  | opened hc ho => cases ho <;> simp [*]
  | define hc hp => simp [hc, Heap.define]
  | enter hc hp hn ha => simp [hc, Closure.enter, Heap.allocate]
  | _ => simp [*]

/-- **A change lists the closure that it creates**, behind those before it. -/
theorem Change.lists (hh : h.Lists i made) (hm : m.Each (Closure.Listed made))
    (hchange : Change h m e h' m') : h'.Lists i (extend made i (m.creates h)) ∧
      m'.Each (Closure.Listed (extend made i (m.creates h))) := by
  have hq : ∀ c : Closure, c.Listed made → c.Listed (extend made i (m.creates h)) := fun c hc =>
    hc.extend i _
  obtain ⟨hm', hh'⟩ := hchange.each (hm.mono hq) (hh.each.mono hq) fun n s ps b hc hf => by
    rw [creates_of_abstraction hc hf, Closure.Listed, Heap.makeClosure, hh.next, extend_self]
    exact List.getElem?_concat_length
  refine ⟨⟨?_, hh'⟩, hm'⟩
  rw [hchange.next_eq, hh.next, extend_self, List.length_append]

theorem Change.each_suspended {n : Node} {v : Value} (hm : m.Each Q)
    (hchange : Change h m (some (.suspended n v)) h' m') : v.Each Q := by
  cases hchange with
  | suspend hc hp => exact hm.deliver hc

/-- **A run lists the closures that it creates.** -/
theorem Runs.lists (hh : h.Lists i made) (hm : m.Each (Closure.Listed made))
    (hr : Runs k h m es h' m') : ∃ more, h'.Lists i (extend made i more) ∧
      m'.Each (Closure.Listed (extend made i more)) ∧
      ∀ w ∈ suspensions es, w.2.Each (Closure.Listed (extend made i more)) := by
  induction hr generalizing made with
  | refl => exact ⟨[], by rwa [extend_nil], by rwa [extend_nil], nofun⟩
  | @step _ h h₁ h' m m₁ m' e _ hchange hr ih =>
    obtain ⟨hh₁, hm₁⟩ := hchange.lists hh hm
    obtain ⟨more, hh', hm', hlog⟩ := ih hh₁ hm₁
    rw [extend_extend] at hh' hm' hlog
    refine ⟨m.creates h ++ more, hh', hm', ?_⟩
    rw [suspensions_append]
    refine List.forall_mem_append.mpr ⟨fun w hw => ?_, hlog⟩
    rcases silent_or_suspended e with he | ⟨n, v, rfl⟩
    · rw [show suspensions e.toList = [] from he] at hw
      cases hw
    · obtain rfl := List.mem_singleton.mp hw
      exact (hchange.each_suspended hm).mono fun c hc => hc.extend i _

theorem Goes.lists (hh : h.Lists i made) (hm : m.Each (Closure.Listed made))
    (hg : m.Goes h es h' m') : ∃ more, h'.Lists i (extend made i more) ∧
      m'.Each (Closure.Listed (extend made i more)) ∧
      ∀ w ∈ suspensions es, w.2.Each (Closure.Listed (extend made i more)) := by
  obtain ⟨k, m₁, hr, hend⟩ := hg
  obtain ⟨more, hh', hm₁, hlog⟩ := hr.lists hh hm
  refine ⟨more, hh', ?_, hlog⟩
  rcases hend with rfl | ⟨a, hs⟩
  · exact hm₁
  · exact hs.each hm₁

end Machine

/-! ## The closures of a workbench -/

namespace Workbench

open Machine

/-- The closure is there: it is in a binding, in what a stepper works with, or in a result. -/
inductive Has (w : Workbench) (c : Closure) : Prop where
  | bound {i : Nat} {s : Session} {f : FrameId} {frame : Frame} {x : String} {v : Value}
      (hs : w.sessions[i]? = some s) (hf : s.heap.frame? f = some frame)
      (hb : (x, v) ∈ frame.bindings) (hc : v.Holds c)
  | delivered {k : Nat} {b : Parked} {v : Value} (hb : w.steppers[k]? = some b)
      (hv : b.machine.control = .deliver v) (hc : v.Holds c)
  | finished {k : Nat} {b : Parked} {v : Value} (hb : w.steppers[k]? = some b)
      (hv : b.machine.control = .finished v) (hc : v.Holds c)
  | collected {k : Nat} {b : Parked} {n : Node} {vs : List Value} {f : FrameId} {v : Value}
      (hb : w.steppers[k]? = some b) (hp : .collect n vs f ∈ b.machine.pending) (hv : v ∈ vs)
      (hc : v.Holds c)
  | result {place : Place} {v : Value} (hr : w.results[place]? = some v) (hc : v.Holds c)

/-- The closure was there at some time while the acts were done. -/
def Held (acts : List Act) (c : Closure) : Prop :=
  ∃ before, before <+: acts ∧ (Workbench.new.performAll before).Has c

/-- What is defined from outside holds closures only that were there before. -/
def Own (acts : List Act) : Prop :=
  ∀ before i f x v, before ++ [.define i f x v] <+: acts → v.Each (Held before)

/-- All closures that are there have the property `Q`. -/
structure Each (Q : Closure → Prop) (w : Workbench) : Prop where
  sessions : ∀ (i : Nat) (s : Session), w.sessions[i]? = some s → s.heap.Each Q
  steppers : ∀ (k : Nat) (b : Parked), w.steppers[k]? = some b → b.machine.Each Q
  results : w.results.Each Q

/-- The closures `made` are those that the sessions have created, and all closures that are there
are listed among them. -/
structure Lists (made : Nat → List Closure) (w : Workbench) : Prop where
  next : ∀ (i : Nat) (s : Session), w.sessions[i]? = some s → s.heap.next = ⟨i, (made i).length⟩
  unmade : ∀ i, w.sessions.size ≤ i → made i = []
  each : w.Each (Closure.Listed made)

variable {made : Nat → List Closure} {Q Q' : Closure → Prop} {w w' : Workbench} {s : Session}
  {st st' : Stepper} {es : List Event} {act : Act} {i k : Nat} {c : Closure}

namespace Each

theorem mono (hw : w.Each Q) (hq : ∀ c, Q c → Q' c) : w.Each Q' where
  sessions := fun i s hs => (hw.sessions i s hs).mono hq
  steppers := fun k b hb => (hw.steppers k b hb).mono hq
  results := hw.results.mono hq

theorem has (hw : w.Each Q) (hc : w.Has c) : Q c := by
  cases hc with
  | bound hs hf hb hc => exact hw.sessions _ _ hs _ _ hf _ hb c hc
  | @delivered k b v hb hv hc =>
    have hcontrol := (hw.steppers k b hb).control
    rw [hv] at hcontrol
    exact hcontrol c hc
  | @finished k b v hb hv hc =>
    have hcontrol := (hw.steppers k b hb).control
    rw [hv] at hcontrol
    exact hcontrol c hc
  | @collected k b n vs f v hb hp hv hc =>
    have hpending : Pending.Each Q (.collect n vs f) := (hw.steppers k b hb).pending _ hp
    exact hpending v hv c hc
  | result hr hc => exact hw.results _ _ hr c hc

theorem kept (hw : w.Each Q) (hm : w.Kept act w') : w'.Each Q where
  sessions := fun i s' hs' => by
    obtain ⟨s, hs, halike⟩ := hm.sessions.alike i s' hs'
    rw [halike.heap]
    exact hw.sessions i s hs
  steppers := fun k b hb => by
    cases hm.steppers k b hb with
    | kept hb₀ htree hsession hmachine =>
      rw [hmachine]
      exact hw.steppers k _ hb₀
    | started hact hk ht hs hmachine =>
      rw [hmachine]
      exact .start _ _ _
  results := by
    rw [hm.results]
    exact hw.results

end Each

namespace Lists

theorem new : Lists (fun _ => []) .new where
  next := fun i s hs => by
    obtain ⟨rfl, rfl⟩ := of_new hs
    rfl
  unmade := fun _ _ => rfl
  each :=
    { sessions := fun i s hs => by
        obtain ⟨-, rfl⟩ := of_new hs
        exact Session.each_new
      steppers := fun k b hb => by cases hb
      results := Results.each_empty }

theorem opened (hw : Lists made w) : Lists made w.newSession.2 := by
  refine ⟨fun i s hs => ?_, fun i hi => ?_, ⟨fun i s hs => ?_, hw.each.steppers, hw.each.results⟩⟩
  · rcases of_newSession hs with ⟨hi, rfl⟩ | hs
    · rw [hw.unmade i hi.ge]
      rfl
    · exact hw.next i s hs
  · rw [newSession, Array.size_push] at hi
    exact hw.unmade i (Nat.le_of_succ_le hi)
  · rcases of_newSession hs with ⟨-, rfl⟩ | hs
    · exact Session.each_numbered i
    · exact hw.each.sessions i s hs

theorem kept (hw : Lists made w) (hm : w.Kept act w') : Lists made w' where
  next := fun i s' hs' => by
    obtain ⟨s, hs, halike⟩ := hm.sessions.alike i s' hs'
    rw [halike.heap]
    exact hw.next i s hs
  unmade := fun i hi => hw.unmade i (hm.sessions.size ▸ hi)
  each := hw.each.kept hm

theorem goes {m m' : Machine} {h' : Heap} (hw : Lists made w) (hs : w.sessions[i]? = some s)
    (hm : m.Each (Closure.Listed made)) (hg : m.Goes s.heap es h' m') :
    ∃ more, m'.Each (Closure.Listed (extend made i more)) ∧
      Lists (extend made i more)
        { w with
          sessions := w.sessions.setIfInBounds i { s with heap := h' }
          results := w.results.recordAll (suspensions es).reverse } := by
  obtain ⟨more, hh', hm', hlog⟩ := hg.lists ⟨hw.next i s hs, hw.each.sessions i s hs⟩ hm
  have hi : i < w.sessions.size := (Array.getElem?_eq_some_iff.mp hs).1
  have heach := hw.each.mono fun c hc => hc.extend i more
  refine ⟨more, hm', fun j s' hs' => ?_, fun j hj => ?_, fun j s' hs' => ?_, heach.steppers, ?_⟩
  · rcases eq_or_of_getElem?_set hs' with ⟨rfl, -, rfl⟩ | ⟨hij, hs'⟩
    · exact hh'.next
    · rw [extend_of_ne hij.symm]
      exact hw.next j s' hs'
  · rw [Array.size_setIfInBounds] at hj
    rw [extend_of_ne (Nat.ne_of_gt (Nat.lt_of_lt_of_le hi hj))]
    exact hw.unmade j hj
  · rcases eq_or_of_getElem?_set hs' with ⟨-, -, rfl⟩ | ⟨-, hs'⟩
    · exact hh'.each
    · exact heach.sessions j s' hs'
  · exact heach.results.recordAll fun w hw => hlog w (List.mem_reverse.mp hw)

theorem put (hw : Lists made w) (hk : w.stepper? k = some st) (hg : st.Goes es st')
    (heard : List String) : ∃ i more, Lists (extend made i more) (w.put k st' heard) := by
  obtain ⟨b, t, s, hb, -, hs, rfl⟩ := stepper?_eq_some.mp hk
  cases hg with
  | @moved h' m' hg =>
    obtain ⟨more, hm', hw'⟩ := hw.goes hs (hw.each.steppers k b hb) hg
    refine ⟨b.session, more, ?_⟩
    rw [Workbench.put, hb]
    refine ⟨hw'.next, hw'.unmade, hw'.each.sessions, fun j c hc => ?_, hw'.each.results⟩
    rcases eq_or_of_getElem?_set hc with ⟨-, -, rfl⟩ | ⟨-, hc⟩
    · exact hm'
    · exact hw'.each.steppers j c hc

theorem define (hw : Lists made w) {v : Value} (hv : v.Each (Closure.Listed made)) (i : Nat)
    (f : FrameId) (x : String) : Lists made (w.define i f x v) := by
  have hsession : ∀ (j : Nat) (s : Session), (w.define i f x v).sessions[j]? = some s →
      ∃ s₀, w.sessions[j]? = some s₀ ∧ (s = s₀ ∨ s = s₀.define f x v) := by
    intro j s hs
    rw [Workbench.define, Array.getElem?_modify] at hs
    split at hs
    · obtain ⟨s₀, hs₀, rfl⟩ := Option.map_eq_some_iff.mp hs
      exact ⟨s₀, hs₀, .inr rfl⟩
    · exact ⟨s, hs, .inl rfl⟩
  refine ⟨fun j s hs => ?_, fun j hj => ?_, ⟨fun j s hs => ?_, hw.each.steppers, hw.each.results⟩⟩
  · obtain ⟨s₀, hs₀, rfl | rfl⟩ := hsession j s hs
    · exact hw.next j s hs₀
    · exact hw.next j s₀ hs₀
  · rw [Workbench.define, Array.size_modify] at hj
    exact hw.unmade j hj
  · obtain ⟨s₀, hs₀, rfl | rfl⟩ := hsession j s hs
    · exact hw.each.sessions j s hs₀
    · exact (hw.each.sessions j s₀ hs₀).define hv

/-- **Whatever is done, all closures are listed** in the order of their creation. -/
theorem moved (hw : Lists made w) (hm : w.Moved act w')
    (hdefine : ∀ i f x v, act = .define i f x v → v.Each (Closure.Listed made)) :
    ∃ i more, Lists (extend made i more) w' := by
  have hsame : ∀ {w'}, Lists made w' → ∃ i more, Lists (extend made i more) w' := fun hw' =>
    ⟨0, [], by rwa [extend_nil]⟩
  cases hm with
  | opened => exact hsame hw.opened
  | kept hkept => exact hsame (hw.kept hkept)
  | goes hact hk hg heard => exact hw.put hk hg heard
  | evaluated hact hs ht hg =>
    obtain ⟨more, -, hw'⟩ := hw.goes hs (.start _ _ _) hg
    exact ⟨_, more, hw'⟩
  | defined i f x v => exact hsame (hw.define (hdefine i f x v rfl) i f x)

end Lists

/-- **All closures that there ever were are listed**, whatever was done. -/
theorem lists_performAll {acts : List Act} (hacts : Own acts) :
    ∃ made, Lists made (Workbench.new.performAll acts) ∧ ∀ c, Held acts c → c.Listed made := by
  induction acts using List.reverseRecOn with
  | nil =>
    refine ⟨_, .new, fun c => ?_⟩
    rintro ⟨before, hbefore, hc⟩
    obtain rfl := List.prefix_nil.mp hbefore
    exact Lists.new.each.has hc
  | append_singleton acts act ih =>
    obtain ⟨made, hw, hheld⟩ := ih fun before i f x v hbefore =>
      hacts before i f x v (hbefore.trans (List.prefix_append acts [act]))
    obtain ⟨i, more, hw'⟩ := hw.moved (moved _ act) fun i f x v hact => by
      subst hact
      exact (hacts acts i f x v (List.prefix_refl _)).mono hheld
    rw [performAll_concat]
    refine ⟨_, hw', fun c => ?_⟩
    rintro ⟨before, hbefore, hc⟩
    rcases List.prefix_concat_iff.mp hbefore with rfl | hbefore
    · rw [performAll_concat] at hc
      exact hw'.each.has hc
    · exact (hheld c ⟨before, hbefore, hc⟩).extend i more

/-- A closure that is created has not been there before. -/
theorem Lists.fresh (hw : Lists made w) (hk : w.stepper? k = some st) {c d : Closure}
    (hc : c ∈ st.machine.creates st.session.heap) (hd : d.Listed made) : c.number ≠ d.number := by
  obtain ⟨b, t, s, hb, -, hs, rfl⟩ := stepper?_eq_some.mp hk
  have hnumber : c.number = ⟨b.session, (made b.session).length⟩ := by
    rw [← hw.next b.session s hs]
    unfold creates at hc
    split at hc
    · split at hc
      · rw [List.mem_singleton.mp hc]
        rfl
      · cases hc
    · cases hc
  intro heq
  obtain ⟨hlt, -⟩ := List.getElem?_eq_some_iff.mp hd
  rw [← heq, hnumber] at hlt
  exact Nat.lt_irrefl _ hlt

end Workbench

open Workbench in
/-- **The laws of equality.** It is symmetric, transitive and, but for what is not a number,
reflexive; and of the closures that were there at any time in any session each is equal to itself
alone, and none of them to a closure that is created. -/
theorem Value.equality_laws :
    (∀ v w : Value, v.same w = true → w.same v = true) ∧
    (∀ u v w : Value, u.same v = true → v.same w = true → u.same w = true) ∧
    (∀ v : Value, v.same v = true ↔ ¬ v.HasNaN) ∧
    (∀ c w, (closure c).same w = true ↔ ∃ d, w = .closure d ∧ c.number = d.number) ∧
    (∀ p w, (primitive p).same w = true ↔ ∃ q, w = .primitive q ∧ p.name = q.name) ∧
    (∀ vs w, (list vs).same w = true ↔
      ∃ ws, w = .list ws ∧ List.Forall₂ (fun v w => v.same w = true) vs ws) ∧
    ∀ acts, Own acts →
      (∀ c d, Held acts c → Held acts d → ((closure c).same (closure d) = true ↔ c = d)) ∧
      ∀ k st c d, (Workbench.new.performAll acts).stepper? k = some st →
        c ∈ st.machine.creates st.session.heap → Held acts d →
        (closure c).same (closure d) = false := by
  refine ⟨fun v w => same_symm, fun u v w => same_trans, same_self_iff, fun c w => closure_same,
    fun p w => primitive_same, fun vs w => ?_, fun acts hacts => ?_⟩
  · simp only [list_same, sameAll_iff]
  · obtain ⟨made, hw, hheld⟩ := lists_performAll hacts
    refine ⟨fun c d hc hd => ?_, fun k st c d hk hc hd => ?_⟩
    · rw [← (hheld c hc).eq_iff (hheld d hd), same, beq_iff_eq]
    · rw [same, beq_eq_false_iff_ne]
      exact hw.fresh hk hc (hheld d hd)

open Workbench in
/-- Zero and negative zero are equal, also inside of lists, but no list is equal to itself with
something that is not a number deep inside of it. And the program `lambda () ()` has different
closures as its values in two sessions. -/
theorem Value.equality_laws_nested :
    let zero := list [.void, list [.number 0.0]]
    let negativeZero := list [.void, list [.number (-0.0)]]
    (zero.same negativeZero = true ∧ negativeZero.same zero = true ∧ zero.same zero = true ∧
      ¬ (list [.number 1.0, list [.number nan]]).same (list [.number 1.0, list [.number nan]])) ∧
    ∃ acts c d, Own acts ∧ Held acts c ∧ Held acts d ∧ d = { c with number := ⟨1, 0⟩ } ∧
      (closure c).same (closure d) = false := by
  obtain ⟨hsymm, htrans, hself, -, -, -, hclosures⟩ := equality_laws
  have hzero : (list [.void, list [.number 0.0]]).same (list [.void, list [.number (-0.0)]]) := by
    decide +kernel
  have hback := hsymm _ _ hzero
  refine ⟨⟨hzero, hback, htrans _ _ _ hzero hback, fun hnan => (hself _).mp hnan ?_⟩, ?_⟩
  · have hn : nan.isNaN = true := by decide +kernel
    exact .item (.tail _ (.head _)) (.item (.head _) (.number hn))
  · let node := fun id => Node.expression ⟨0, ⟨id⟩⟩ default []
    let name := Node.atom ⟨0, ⟨1⟩⟩ default (.identifier "lambda")
    let t : Tree := ⟨.expression ⟨0, ⟨0⟩⟩ default [name, node 2, node 3]⟩
    let first : List Act := [.program t, .newSession, .evaluate 0 0 1]
    let acts := first ++ [.evaluate 0 1 1]
    let c : Closure := ⟨⟨0, 0⟩, [], node 3, ⟨1⟩⟩
    let d : Closure := ⟨⟨1, 0⟩, [], node 3, ⟨1⟩⟩
    have hacts : Own acts := by
      intro before i f x v hbefore
      have hmem := hbefore.sublist.subset (List.mem_append_right before (List.mem_singleton_self _))
      simp [acts, first] at hmem
    have hresult : ∀ (r : Results) (c : Closure),
        (r.recordAll [(t.root, .closure c)])[t.root.place]? = some (.closure c) :=
      fun r c => Std.HashMap.getElem?_insert_self
    have hfirst : (Workbench.new.performAll first).results =
        Results.recordAll ∅ [(t.root, .closure c)] := rfl
    have hsecond : (Workbench.new.performAll acts).results =
        (Results.recordAll ∅ [(t.root, .closure c)]).recordAll [(t.root, .closure d)] := rfl
    have hc : Held acts c := ⟨first, List.prefix_append _ _,
      .result (hfirst ▸ hresult ∅ c) (.closure c)⟩
    have hd : Held acts d := ⟨acts, List.prefix_refl _,
      .result (hsecond ▸ hresult _ d) (.closure d)⟩
    have hne : c ≠ d := by simp [c, d]
    refine ⟨acts, c, d, hacts, hc, hd, rfl, ?_⟩
    exact Bool.eq_false_iff.mpr fun hsame => hne (((hclosures acts hacts).1 c d hc hd).mp hsame)

end StepLisp
