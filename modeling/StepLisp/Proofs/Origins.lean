import StepLisp.Proofs.Ledger

/-!
# The origins of closures

A closure is created when a lambda gets its value, and then the machine pauses at this lambda. So
whatever holds of the closures that are there, and of those from the lambdas that are answered,
holds of all closures that are ever called.

* `Machine.Each`, a property of all closures that a machine works with;
* `Change.each` and **`Machine.each_advance`**: it stays, if it holds of the closures from the
  lambda that is answered;
* `Stepper.each_after`: after several advances, and of all bodies that were entered.
-/

namespace StepLisp

variable {Q : Closure → Prop}

/-- All closures in what a machine does next have the property `Q`. -/
def Control.Each (Q : Closure → Prop) : Control → Prop
  | .deliver v => v.Each Q
  | .finished v => v.Each Q
  | _ => True

/-- All closures in a piece of work have the property `Q`. -/
def Pending.Each (Q : Closure → Prop) : Pending → Prop
  | .collect _ vs _ => ∀ v ∈ vs, v.Each Q
  | _ => True

namespace Machine

/-- All closures that a machine works with have the property `Q`. -/
structure Each (Q : Closure → Prop) (m : Machine) : Prop where
  control : m.control.Each Q
  pending : ∀ p ∈ m.pending, p.Each Q

variable {h h' : Heap} {m m' : Machine} {e : Option Event} {a : Answer}

namespace Each

theorem start (root : Node) (library global : FrameId) :
    (Machine.start root library global).Each Q :=
  ⟨trivial, nofun⟩

theorem deliver {v : Value} (hm : m.Each Q) (hc : m.control = .deliver v) : v.Each Q := by
  have hcontrol := hm.control
  rwa [hc] at hcontrol

theorem cons {p : Pending} {rest : List Pending} (hm : m.Each Q) (hp : m.pending = p :: rest) :
    p.Each Q ∧ ∀ q ∈ rest, q.Each Q := List.forall_mem_cons.mp (hp ▸ hm.pending)

theorem collected {v : Value} {n : Node} {vs : List Value} {s : FrameId} {rest : List Pending}
    (hm : m.Each Q) (hc : m.control = .deliver v) (hp : m.pending = .collect n vs s :: rest) :
    ∀ w ∈ vs ++ [v], w.Each Q := each_concat (hm.cons hp).1 (hm.deliver hc)

end Each

theorem Immediate.each {n : Node} {s : FrameId} {v : Value} (hh : h.Each Q)
    (hQ : ∀ ps b, Form.ofNode n = .ok (.abstraction ps b) → Q (h.makeClosure ps b s).1)
    (hi : Immediate h n s v h') : v.Each Q ∧ h'.Each Q := by
  cases hi with
  | number hf => exact ⟨Value.each_number _, hh⟩
  | identifier hf hv => exact ⟨hh.lookup hv, hh⟩
  | abstraction hf => exact ⟨Value.each_closure.mpr (hQ _ _ hf), hh⟩
  | empty hf => exact ⟨Value.each_list.mpr nofun, hh⟩

theorem Opens.each {n child : Node} {s : FrameId} {p : Pending} (ho : Opens n s child p) :
    p.Each Q := by
  cases ho with
  | application hf => exact fun v hv => nomatch hv
  | _ => trivial

/-- **A change brings in no other closure** than one from the lambda that is evaluated. -/
theorem Change.each (hm : m.Each Q) (hh : h.Each Q)
    (hQ : ∀ n s ps b, m.control = .evaluate n s → Form.ofNode n = .ok (.abstraction ps b) →
      Q (h.makeClosure ps b s).1)
    (hchange : Change h m e h' m') : m'.Each Q ∧ h'.Each Q := by
  cases hchange with
  | value hc hi =>
    obtain ⟨hv, hh'⟩ := hi.each hh fun ps b hf => hQ _ _ ps b hc hf
    exact ⟨⟨hv, List.forall_mem_cons.mpr ⟨trivial, hm.pending⟩⟩, hh'⟩
  | opened hc ho =>
    refine ⟨⟨trivial, ?_⟩, hh⟩
    exact List.forall_mem_cons.mpr ⟨ho.each, List.forall_mem_cons.mpr ⟨trivial, hm.pending⟩⟩
  | branch hc hp => exact ⟨⟨trivial, (hm.cons hp).2⟩, hh⟩
  | define hc hp => exact ⟨⟨Value.each_void, (hm.cons hp).2⟩, hh.define (hm.deliver hc)⟩
  | collect hc hp hn =>
    exact ⟨⟨trivial, List.forall_mem_cons.mpr ⟨hm.collected hc hp, (hm.cons hp).2⟩⟩, hh⟩
  | apply hc hp hn ha => exact ⟨⟨apply_each (hm.collected hc hp) ha, (hm.cons hp).2⟩, hh⟩
  | enter hc hp hn ha =>
    obtain ⟨-, hargs⟩ := apply_each (hm.collected hc hp) ha
    refine ⟨⟨trivial, List.forall_mem_cons.mpr ⟨trivial, (hm.cons hp).2⟩⟩, ?_⟩
    exact hh.allocate (Closure.each_bindings hargs)
  | leave hc hp => exact ⟨⟨hm.deliver hc, (hm.cons hp).2⟩, hh⟩
  | suspend hc hp => exact ⟨⟨hm.deliver hc, (hm.cons hp).2⟩, hh⟩
  | finish hc hp => exact ⟨⟨hm.deliver hc, hm.pending⟩, hh⟩

theorem Stop.each (hm : m.Each Q) (hs : Stop h m a m') : m'.Each Q := by
  cases hs with
  | done hc => exact hm
  | halted hc => exact hm
  | malformed hc hf => exact ⟨trivial, List.forall_mem_cons.mpr ⟨trivial, hm.pending⟩⟩
  | unbound hc hf hv => exact ⟨trivial, List.forall_mem_cons.mpr ⟨trivial, hm.pending⟩⟩
  | refused hc hp hn ha => exact ⟨trivial, (hm.cons hp).2⟩

theorem Each.body (hm : m.Each Q) (hchange : Change h m e h' m') {b : Node}
    (hb : e.bind (Event.body? m') = some b) : ∃ c, Q c ∧ c.body = b := by
  cases hchange with
  | @enter v n vs args s rest c hc hp hn ha =>
    cases hb
    exact ⟨c, (apply_each (hm.collected hc hp) ha).1, rfl⟩
  | _ => cases hb

theorem node?_of_abstraction {n : Node} {s : FrameId} {ps : List String} {b : Node}
    (hc : m.control = .evaluate n s) (hf : Form.ofNode n = .ok (.abstraction ps b)) :
    (m.advance h).answer.node? = some n := by
  rw [advance_of_silent (.value hc (.abstraction hf)) silent_none,
    advance_of_suspend (.suspend rfl rfl)]
  rfl

/-- **An advance brings in no other closure** than one from the lambda that is answered. -/
theorem each_advance (hm : m.Each Q) (hh : h.Each Q)
    (hQ : ∀ n ps b, (m.advance h).answer.node? = some n →
      Form.ofNode n = .ok (.abstraction ps b) → ∀ i s, Q ⟨i, ps, b, s⟩) :
    (m.advance h).machine.Each Q ∧ (m.advance h).heap.Each Q ∧
      ∀ b ∈ m.bodies h, ∃ c, Q c ∧ c.body = b := by
  -- along the recursion of the advance, one silent change after the other
  induction h, m using Machine.advance.induct with
  | case1 h m a m' h' ht =>
    rw [advance_of_pause ht, bodies_of_pause ht]
    rcases pause_cases ht with ⟨n, v, rfl, hchange⟩ | ⟨rfl, hs⟩
    · cases hchange with
      | suspend hc hp => exact ⟨⟨hm.deliver hc, (hm.cons hp).2⟩, hh, by simp⟩
    · exact ⟨hs.each hm, hh, by simp⟩
  | case2 h m m' h' e ht ih =>
    have hchange := change_of_proceed ht
    obtain ⟨hm', hh'⟩ := hchange.each hm hh fun n s ps b hc hf =>
      hQ n ps b (node?_of_abstraction hc hf) hf _ _
    rw [advance_of_proceed ht] at hQ ⊢
    rw [bodies_of_proceed ht]
    obtain ⟨hmachine, hheap, hbodies⟩ := ih hm' hh' hQ
    refine ⟨hmachine, hheap, fun b hb => ?_⟩
    rcases List.mem_append.mp hb with hb | hb
    · exact hm.body hchange (Option.mem_toList.mp hb)
    · exact hbodies b hb

end Machine

/-- **After several advances** all closures have the property `Q`, if those have it from the lambdas
that were answered. -/
theorem Stepper.each_after {s : Stepper} (hm : s.machine.Each Q) (hh : s.session.heap.Each Q)
    {k : Nat} (hQ : ∀ n ∈ s.pauses k, ∀ ps b, Form.ofNode n = .ok (.abstraction ps b) →
      ∀ i f, Q ⟨i, ps, b, f⟩) :
    ((s.after k).machine.Each Q ∧ (s.after k).session.heap.Each Q) ∧
      ∀ b ∈ s.entries k, ∃ c, Q c ∧ c.body = b := by
  induction k with
  | zero => exact ⟨⟨hm, hh⟩, nofun⟩
  | succ k ih =>
    rw [pauses_succ] at hQ
    obtain ⟨⟨hm', hh'⟩, hentries⟩ := ih fun n hn => hQ n (List.mem_append_left _ hn)
    obtain ⟨hans, hst⟩ := (s.after k).advance_eq
    obtain ⟨hmachine, hheap, hbodies⟩ := Machine.each_advance hm' hh' fun n ps b hn =>
      hQ n (List.mem_append_right _ (Option.mem_toList.mpr (hans ▸ hn))) ps b
    rw [entries_succ, Stepper.after, hst]
    exact ⟨⟨hmachine, hheap⟩, List.forall_mem_append.mpr ⟨hentries, hbodies⟩⟩

end StepLisp
