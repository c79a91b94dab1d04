import StepLisp.Proofs.Growth

/-!
# The nesting of the pending work

The pending work of a machine is the way from the root of a program down to the node that is
evaluated now: each piece of work stands on the annotation of the node that it belongs to, and waits
for the value of a part of this node, or of the body of a closure that the node calls.

* `Awaits`, the pending work that waits for the value of a node;
* `Machine.Nested`, the invariant, with **`Nested.change`** and `Nested.stop`;
* `Machine.Paused` and `Machine.Behind`, where a machine stands behind an answer, with
  **`Nested.advance`**: behind its own answer.
-/

namespace StepLisp

/-- In an evaluation of `root`, the pending work waits for the value of the node `n`. -/
inductive Awaits (root : Node) : Node → List Pending → Prop where
  | root : Awaits root root []
  | condition {n c a b : Node} {s : FrameId} {rest : List Pending}
      (hf : Form.ofNode n = .ok (.conditional c a b)) (h : Awaits root n rest) :
      Awaits root c (.branch a b s :: .annotate n :: rest)
  /-- The branch that was taken is in the place of the whole. -/
  | taken {n c a b : Node} {rest : List Pending} (v : Value)
      (hf : Form.ofNode n = .ok (.conditional c a b)) (h : Awaits root n rest) :
      Awaits root (if v.isTruthy then a else b) (.annotate n :: rest)
  | defined {n b : Node} {x : String} {s : FrameId} {rest : List Pending}
      (hf : Form.ofNode n = .ok (.definition x b)) (h : Awaits root n rest) :
      Awaits root b (.define x s :: .annotate n :: rest)
  | part {n child : Node} {cs : List Node} {vs : List Value} {s : FrameId} {rest : List Pending}
      (hf : Form.ofNode n = .ok (.application cs)) (hc : cs[vs.length]? = some child)
      (h : Awaits root n rest) : Awaits root child (.collect n vs s :: .annotate n :: rest)
  | body {n : Node} {cs : List Node} {vs args : List Value} {c : Closure} {f : FrameId}
      {rest : List Pending} (hf : Form.ofNode n = .ok (.application cs))
      (hl : vs.length = cs.length) (ha : apply vs = .ok (.enter c args)) (h : Awaits root n rest) :
      Awaits root c.body (.leave f :: .annotate n :: rest)

namespace Machine

variable {h h' : Heap} {m m' : Machine} {e : Option Event} {a : Answer} {n : Node} {v : Value}
  {s : FrameId} {p : Pending} {rest : List Pending} {k : Nat} {es : List Event}

/-- The node `n` has just got the value `v`, and the pending work waits for it. -/
structure Paused (m : Machine) (n : Node) (v : Value) : Prop where
  control : m.control = .deliver v
  current : m.current = some n
  awaits : Awaits m.root n m.pending

/-- **The pending work fits what the machine does next.** -/
inductive Nested (m : Machine) : Prop where
  | evaluating {n : Node} {s : FrameId} (hc : m.control = .evaluate n s)
      (ha : Awaits m.root n m.pending)
  /-- The node `n` is about to get the value. -/
  | valued {n : Node} {v : Value} {rest : List Pending} (hc : m.control = .deliver v)
      (hp : m.pending = .annotate n :: rest) (ha : Awaits m.root n rest)
  | paused {n : Node} {v : Value} (hm : m.Paused n v)
  | finished {v : Value} (hc : m.control = .finished v) (hp : m.pending = [])
  | halted (hc : m.control = .halted)

namespace Nested

theorem start (root : Node) (library global : FrameId) :
    (Machine.start root library global).Nested :=
  .evaluating rfl .root

theorem evaluate (hm : m.Nested) (hc : m.control = .evaluate n s) : Awaits m.root n m.pending := by
  cases hm with
  | evaluating hc' ha =>
    cases hc.symm.trans hc'
    exact ha
  | valued hc' => cases hc.symm.trans hc'
  | paused hm => cases hc.symm.trans hm.control
  | finished hc' => cases hc.symm.trans hc'
  | halted hc' => cases hc.symm.trans hc'

/-- Work other than an annotation is found on top only behind a pause. -/
theorem deliver (hm : m.Nested) (hc : m.control = .deliver v) (hp : m.pending = p :: rest)
    (hne : ∀ n, p ≠ .annotate n) : ∃ n, Awaits m.root n (p :: rest) := by
  cases hm with
  | evaluating hc' => cases hc.symm.trans hc'
  | valued hc' hp' => exact absurd (List.cons.inj (hp.symm.trans hp')).1 (hne _)
  | paused hm => exact ⟨_, hp ▸ hm.awaits⟩
  | finished hc' => cases hc.symm.trans hc'
  | halted hc' => cases hc.symm.trans hc'

theorem annotate (hm : m.Nested) (hc : m.control = .deliver v)
    (hp : m.pending = .annotate n :: rest) : Awaits m.root n rest := by
  cases hm with
  | evaluating hc' => cases hc.symm.trans hc'
  | valued hc' hp' ha =>
    cases hp.symm.trans hp'
    exact ha
  | paused hm =>
    have ha := hm.awaits
    rw [hp] at ha
    cases ha with
    | taken _ _ ha => exact ha
  | finished hc' => cases hc.symm.trans hc'
  | halted hc' => cases hc.symm.trans hc'

/-- **The nesting is preserved by every change.** -/
theorem change (hm : m.Nested) (hchange : Change h m e h' m') : m'.Nested := by
  cases hchange with
  | value hc hi => exact .valued rfl rfl (hm.evaluate hc)
  | opened hc ho =>
    have ha := hm.evaluate hc
    cases ho with
    | condition hf => exact .evaluating rfl (.condition hf ha)
    | definition hf => exact .evaluating rfl (.defined hf ha)
    | application hf => exact .evaluating rfl (.part hf rfl ha)
  | branch hc hp =>
    obtain ⟨n, ha⟩ := hm.deliver hc hp nofun
    cases ha with
    | condition hf ha => exact .evaluating rfl (.taken _ hf ha)
  | define hc hp =>
    obtain ⟨n, ha⟩ := hm.deliver hc hp nofun
    cases ha with
    | defined hf ha => exact .valued rfl rfl ha
  | collect hc hp hn =>
    obtain ⟨n, ha⟩ := hm.deliver hc hp nofun
    cases ha with
    | part hf _ ha =>
      rw [Form.ofNode_eq_application hf] at hn
      exact .evaluating rfl (.part hf hn ha)
  | apply hc hp hn happly =>
    obtain ⟨n, ha⟩ := hm.deliver hc hp nofun
    cases ha with
    | part hf _ ha => exact .valued rfl rfl ha
  | enter hc hp hn happly =>
    obtain ⟨n, ha⟩ := hm.deliver hc hp nofun
    cases ha with
    | part hf hi ha =>
      rw [Form.ofNode_eq_application hf, List.getElem?_eq_none_iff, List.length_append] at hn
      have hlt := (List.getElem?_eq_some_iff.mp hi).1
      refine .evaluating rfl (.body hf ?_ happly ha)
      rw [List.length_append]
      exact Nat.le_antisymm hlt hn
  | leave hc hp =>
    obtain ⟨n, ha⟩ := hm.deliver hc hp nofun
    cases ha with
    | body hf _ _ ha => exact .valued rfl rfl ha
  | suspend hc hp => exact .paused ⟨rfl, rfl, hm.annotate hc hp⟩
  | finish hc hp => exact .finished rfl hp

theorem stop (hm : m.Nested) (hs : Stop h m a m') : m'.Nested := by
  cases hs with
  | done hc => exact hm
  | halted hc => exact hm
  | malformed hc hf => exact .halted rfl
  | unbound hc hf hv => exact .halted rfl
  | refused hc hp hn ha => exact .halted rfl

end Nested

/-! ## Behind an answer -/

/-- The machine stands where its last answer has left it; if it gave none yet, at its start. -/
inductive Behind (m : Machine) : Option Answer → Prop where
  | fresh {s : FrameId} (hc : m.control = .evaluate m.root s) (hp : m.pending = []) : Behind m none
  | suspended {n : Node} {v : Value} (hm : m.Paused n v) : Behind m (some (.suspended n v))
  | done {v : Value} (hc : m.control = .finished v) (hp : m.pending = []) :
      Behind m (some (.done v))
  | failed {f : Fault} (hc : m.control = .halted) : Behind m (some (.failed f))

theorem Behind.nested {a : Option Answer} (hm : m.Behind a) : m.Nested := by
  cases hm with
  | fresh hc hp => exact .evaluating hc (hp ▸ .root)
  | suspended hm => exact .paused hm
  | done hc hp => exact .finished hc hp
  | failed hc => exact .halted hc

/-- **An advance leaves the machine behind its answer.** -/
theorem Nested.advance (hm : m.Nested) (h : Heap) :
    (m.advance h).machine.Behind (some (m.advance h).answer) := by
  -- along the recursion of the advance, one silent change after the other
  induction h, m using Machine.advance.induct with
  | case1 h m a m' h' ht =>
    rw [advance_of_pause ht]
    rcases pause_cases ht with ⟨n, v, rfl, hchange⟩ | ⟨rfl, hs⟩
    · cases hchange with
      | suspend hc hp => exact .suspended ⟨rfl, rfl, hm.annotate hc hp⟩
    · cases hs with
      | done hc =>
        cases hm with
        | finished _ hp => exact .done hc hp
        | evaluating hc' => cases hc.symm.trans hc'
        | valued hc' => cases hc.symm.trans hc'
        | paused hm => cases hc.symm.trans hm.control
        | halted hc' => cases hc.symm.trans hc'
      | halted hc => exact .failed hc
      | malformed | unbound | refused => exact .failed rfl
  | case2 h m m' h' e ht ih =>
    have hchange := change_of_proceed ht
    rw [advance_of_proceed ht]
    exact ih (hm.change hchange)

end Machine

end StepLisp
