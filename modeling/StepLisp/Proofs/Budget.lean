import StepLisp.Proofs.History
import StepLisp.Proofs.Ledger

/-!
# The way to the next answer

An advance goes through silent changes up to an answer. How many transitions this takes is bounded
by a number that is read off the machine: the sizes of the nodes that may be entered on the way, and
the pending work that the value is handed through, down to the next annotation. In a program the
pending work is nested, so the bound does not grow with the depth of the calls.

* `Machine.budget`, the number of transitions that suffice, with **`Change.budget_lt`**: every
  silent change takes at least one of them;
* `Runs.lt_budget`: no silent run is longer;
* `Machine.advanceWithin`, an advance that gives up after a number of transitions, and
  `advanceWithin_eq`: within the budget it does not;
* `Within.budget_le`: over nodes of bounded size the budget is bounded;
* **`Stepper.advance_returns`**: every advance comes to its answer.
-/

namespace StepLisp

/-- The size of the body that is entered when the value is called. -/
def Value.bodySize : Value → Nat
  | .closure c => c.body.size
  | _ => 0

/-- The size of the body that is entered when the collected values are called together with a last
one, which has a body of size `body`. -/
def calledSize (body : Nat) : List Value → Nat
  | [] => body
  | v :: _ => v.bodySize

theorem bodySize_of_apply {vs : List Value} {w : Value} (ha : apply vs = .ok (.value w)) :
    w.bodySize = 0 := by
  unfold apply at ha
  split at ha
  · rename_i p args
    cases ha
    cases p <;> rfl
  · split at ha <;> cases ha
  · cases ha
    rfl

theorem calledSize_of_apply {vs args : List Value} {v : Value} {c : Closure}
    (ha : apply (vs ++ [v]) = .ok (.enter c args)) : calledSize v.bodySize vs = c.body.size := by
  unfold apply at ha
  split at ha
  · cases ha
  · rename_i c' args' hvs
    split at ha
    · cases ha
      cases vs with
      | nil =>
        cases hvs
        rfl
      | cons w ws =>
        cases hvs
        rfl
    · cases ha
  · cases ha

namespace Machine

/-! ## The budget -/

/-- How many transitions suffice to hand a value to the pending work, and through it, up to the next
answer, if the body of the value has the size `body`. -/
def handing (body : Nat) : List Pending → Nat
  | [] => 2
  | .annotate _ :: _ => 1
  | .branch a b _ :: _ => max a.size b.size + 2
  | .define _ _ :: rest => handing 0 rest + 1
  | .collect n vs _ :: rest => max (max n.size (calledSize body vs + 1)) (handing 0 rest) + 1
  | .leave _ :: rest => handing body rest + 1

/-- How many transitions suffice up to the next answer. -/
def budget (m : Machine) : Nat :=
  match m.control with
  | .evaluate n _ => n.size + 1
  | .deliver v => handing v.bodySize m.pending
  | .finished _ => 1
  | .halted => 1

variable {h h' : Heap} {m m' : Machine} {e : Option Event} {es : List Event} {k : Nat}

theorem budget_evaluate {n : Node} {s : FrameId} (hc : m.control = .evaluate n s) :
    m.budget = n.size + 1 := by
  rw [budget, hc]

theorem budget_deliver {v : Value} (hc : m.control = .deliver v) :
    m.budget = handing v.bodySize m.pending := by
  rw [budget, hc]

theorem handing_pos (body : Nat) (ps : List Pending) : 0 < handing body ps := by
  cases ps with
  | nil => exact Nat.zero_lt_two
  | cons p ps => cases p <;> exact Nat.succ_pos _

theorem budget_pos (m : Machine) : 0 < m.budget := by
  unfold budget
  split
  · exact Nat.succ_pos _
  · exact handing_pos _ _
  · exact Nat.one_pos
  · exact Nat.one_pos

theorem Opens.size_lt {n child : Node} {s : FrameId} {p : Pending} (ho : Opens n s child p) :
    child.size < n.size := by
  refine Node.size_lt_of_mem ?_
  cases ho with
  | condition hf =>
    obtain ⟨head, -, hchildren⟩ := Form.ofNode_eq_conditional hf
    simp [hchildren]
  | definition hf =>
    obtain ⟨head, name, -, -, hchildren⟩ := Form.ofNode_eq_definition hf
    simp [hchildren]
  | application hf => simp [Form.ofNode_eq_application hf]

/-- **Every silent change takes a transition off the budget.** -/
theorem Change.budget_lt (hm : Change h m e h' m') (he : Silent e) : m'.budget < m.budget := by
  cases hm with
  | @value n s v h' hc hi =>
    rw [budget_evaluate hc]
    exact Nat.succ_lt_succ n.size_pos
  | opened hc ho =>
    rw [budget_evaluate hc]
    exact Nat.succ_lt_succ ho.size_lt
  | @branch v a b s rest hc hp =>
    rw [budget_deliver hc, hp, handing, budget_evaluate rfl]
    split <;> omega
  | define hc hp =>
    rw [budget_deliver hc, hp]
    exact Nat.lt_succ_self _
  | @collect v n child vs s rest hc hp hn =>
    have hchild := Node.size_lt_of_mem (List.mem_of_getElem? hn)
    rw [budget_deliver hc, hp, handing, budget_evaluate rfl]
    omega
  | @apply v w n vs s rest hc hp hn ha =>
    rw [budget_deliver hc, hp, handing, budget_deliver rfl, bodySize_of_apply ha]
    exact Nat.lt_succ_of_le (Nat.le_max_right _ _)
  | @enter v n vs args s rest c hc hp hn ha =>
    rw [budget_deliver hc, hp, handing, budget_evaluate rfl, calledSize_of_apply ha]
    omega
  | leave hc hp =>
    rw [budget_deliver hc, hp]
    exact Nat.lt_succ_self _
  | suspend hc hp => cases he
  | finish hc hp =>
    rw [budget_deliver hc, hp]
    exact Nat.one_lt_two

/-- **No silent run uses up the budget.** -/
theorem Runs.lt_budget (hr : Runs k h m es h' m') (hes : suspensions es = []) : k < m.budget := by
  induction hr with
  | @refl h m => exact m.budget_pos
  | step hm _ ih =>
    rw [suspensions_append, List.append_eq_nil_iff] at hes
    exact Nat.lt_of_le_of_lt (ih hes.2) (hm.budget_lt hes.1)

/-! ## Advances that give up -/

/-- Runs a machine up to its next answer, in at most `n` transitions. -/
def advanceWithin : Nat → Heap → Machine → Option Advance
  | 0, _, _ => none
  | n + 1, h, m =>
    match m.transition h with
    | .pause answer m h => some ⟨answer, m, h, answer.events⟩
    | .proceed m h event =>
      (advanceWithin n h m).map fun rest => { rest with events := event.toList ++ rest.events }

theorem advanceWithin_eq {n : Nat} (hn : m.budget ≤ n) (h : Heap) :
    advanceWithin n h m = some (m.advance h) := by
  induction n generalizing h m with
  | zero => exact absurd m.budget_pos (Nat.not_lt.mpr hn)
  | succ n ih =>
    rw [advanceWithin]
    rcases ht : m.transition h with ⟨m', h', e⟩ | ⟨a, m', h'⟩
    · have hlt := (change_of_proceed ht).budget_lt (silent_of_proceed ht)
      rw [advance_of_proceed ht]
      dsimp only
      rw [ih (by omega) h']
      rfl
    · rw [advance_of_pause ht]

/-! ## Programs of bounded size -/

theorem hereditary_size_le (size : Nat) : Hereditary fun n => n.size ≤ size :=
  fun _ hn _ hc => Nat.le_trans (Nat.le_of_lt (Node.size_lt_of_mem hc)) hn

theorem bodySize_le {size : Nat} {v : Value}
    (hv : v.Each (Closure.Over (fun n => n.size ≤ size) fun _ => True)) : v.bodySize ≤ size := by
  cases v with
  | closure c => exact (hereditary_size_le size).stable.body (Value.each_closure.mp hv)
  | _ => exact Nat.zero_le _

theorem calledSize_le {size body : Nat} {vs : List Value}
    (hvs : ∀ v ∈ vs, v.Each (Closure.Over (fun n => n.size ≤ size) fun _ => True))
    (hbody : body ≤ size) : calledSize body vs ≤ size := by
  cases vs with
  | nil => exact hbody
  | cons v vs => exact bodySize_le (hvs v List.mem_cons_self)

/-- **Over nodes of bounded size the budget is bounded**, however much work is pending: behind at
most one other piece of work the value comes to an annotation. -/
theorem Within.budget_le {size : Nat} (hm : m.Within (fun n => n.size ≤ size) h) :
    m.budget ≤ size + 2 := by
  cases hm.nested with
  | @evaluating n s hc ha =>
    have hn : n.size ≤ size := (hm.contents.evaluate hc).1
    rw [budget_evaluate hc]
    omega
  | valued hc hp ha =>
    rw [budget_deliver hc, hp, handing]
    omega
  | @paused n v hpaused =>
    have hbody := bodySize_le (hm.contents.deliver hpaused.control)
    have hpending := hm.contents.pending
    have ha := hpaused.awaits
    rw [budget_deliver hpaused.control]
    generalize m.pending = ps at ha hpending
    cases ha with
    | root => exact Nat.le_add_left _ _
    | condition hf ha =>
      obtain ⟨⟨hl, hr, -⟩, -⟩ := List.forall_mem_cons.mp hpending
      exact Nat.add_le_add_right (Nat.max_le.mpr ⟨hl, hr⟩) 2
    | taken v' hf ha => exact Nat.le_add_left _ _
    | defined hf ha => exact Nat.le_add_left _ _
    | part hf hc ha =>
      obtain ⟨⟨hn, hvs, -⟩, -⟩ := List.forall_mem_cons.mp hpending
      have hcalled := calledSize_le hvs hbody
      simp only [handing]
      omega
    | body hf hl happly ha => exact Nat.le_add_left _ _
  | finished hc =>
    rw [budget, hc]
    exact Nat.le_add_left _ _
  | halted hc =>
    rw [budget, hc]
    exact Nat.le_add_left _ _

end Machine

/-! ## A program without end -/

/-- The program `((lambda (x) (x x)) (lambda (x) (x x)))`, with the numbers of its nodes. -/
def Tree.selfCall : Tree :=
  let node := fun id children => Node.expression ⟨0, ⟨id⟩⟩ default children
  let name := fun id x => Node.atom ⟨0, ⟨id⟩⟩ default (.identifier x)
  let twice := fun id => node id [name (id + 1) "lambda", node (id + 2) [name (id + 3) "x"],
    node (id + 4) [name (id + 5) "x", name (id + 6) "x"]]
  ⟨node 0 [node 1 [twice 2, twice 9]]⟩

/-- The node is the application `(x x)`. -/
def Node.SelfApplied (n : Node) : Prop :=
  ∃ p q, Form.ofNode n = .ok (.application [p, q]) ∧ Form.ofNode p = .ok (.identifier "x") ∧
    Form.ofNode q = .ok (.identifier "x")

namespace Machine

variable {h : Heap} {m : Machine}

/-- The machine is about to evaluate `(x x)` in a frame that binds `x` to a closure of `x` with such
a body. -/
inductive SelfCalling (h : Heap) (m : Machine) : Prop where
  | intro {n : Node} {f : FrameId} {c : Closure} (hc : m.control = .evaluate n f)
      (hn : n.SelfApplied) (hv : h.lookup f "x" = some (.closure c)) (hparams : c.params = ["x"])
      (hbody : c.body.SelfApplied) : SelfCalling h m

theorem lookup_enter {c : Closure} (hparams : c.params = ["x"]) (v : Value) (h : Heap) :
    (c.enter [v] h).2.lookup (c.enter [v] h).1 "x" = some v := by
  have hnew : (c.enter [v] h).2.frame? (c.enter [v] h).1 =
      some ⟨.call, some c.scope, [("x", v)]⟩ := by
    rw [Closure.enter, Heap.frame?_allocate, if_pos rfl, Closure.bindings, hparams]
    rfl
  rw [Heap.lookup, hnew]
  rfl

/-- **A closure that is called on itself is called again**, behind the values of two nodes. -/
theorem SelfCalling.again (hm : m.SelfCalling h) :
    ∃ k es h' m', Runs k h m es h' m' ∧ (suspensions es).length = 2 ∧ m'.SelfCalling h' := by
  obtain ⟨hc, ⟨p, q, hn, hp, hq⟩, hv, hparams, hbody⟩ := hm
  rename_i n f c
  have hchildren := Form.ofNode_eq_application hn
  have hsecond : n.children[([] ++ [Value.closure c]).length]? = some q := by
    rw [hchildren]
    rfl
  have hlast : n.children[(([] ++ [Value.closure c]) ++ [Value.closure c]).length]? = none := by
    rw [hchildren]
    rfl
  have happly : apply ((([] : List Value) ++ [.closure c]) ++ [.closure c]) =
      .ok (.enter c [.closure c]) := by
    simp [apply, Closure.arity, hparams]
  refine ⟨_, _, _, _,
    .step (.opened hc (.application hn)) <| .step (.value rfl (.identifier hp hv)) <|
    .step (.suspend rfl rfl) <| .step (.collect rfl rfl hsecond) <|
    .step (.value rfl (.identifier hq hv)) <| .step (.suspend rfl rfl) <|
    .step (.enter rfl rfl hlast happly) .refl, rfl, ?_⟩
  exact .intro rfl hbody (lookup_enter hparams _ h) hparams hbody

theorem SelfCalling.suspends (hm : m.SelfCalling h) (n : Nat) :
    ∃ k es h' m', Runs k h m es h' m' ∧ n ≤ (suspensions es).length := by
  induction n generalizing h m with
  | zero => exact ⟨0, [], h, m, .refl, Nat.le_refl 0⟩
  | succ n ih =>
    obtain ⟨k, es, h₁, m₁, hr, hes, hm₁⟩ := hm.again
    obtain ⟨l, fs, h', m', hr', hfs⟩ := ih hm₁
    refine ⟨k + l, es ++ fs, h', m', hr.trans hr', ?_⟩
    rw [suspensions_append, List.length_append]
    omega

theorem runs_selfCall : ∃ k es h' m',
    Runs k Session.new.heap
      (.start Tree.selfCall.root Session.new.library Session.new.global) es h' m' ∧
      m'.SelfCalling h' :=
  ⟨_, _, _, _,
    .step (.opened rfl (.application rfl)) <| .step (.opened rfl (.application rfl)) <|
    .step (.value rfl (.abstraction rfl)) <| .step (.suspend rfl rfl) <|
    .step (.collect rfl rfl rfl) <| .step (.value rfl (.abstraction rfl)) <|
    .step (.suspend rfl rfl) <| .step (.enter rfl rfl rfl rfl) .refl,
    .intro rfl ⟨_, _, rfl, rfl, rfl⟩ (lookup_enter rfl _ _) rfl ⟨_, _, rfl, rfl, rfl⟩⟩

end Machine

namespace Stepper

open Machine

theorem suspended_of_runs {s : Stepper} {k j : Nat} {es : List Event} {h' : Heap} {m' : Machine}
    (hr : Runs k s.session.heap s.machine es h' m') (hj : j < (suspensions es).length) :
    ∃ n v, (s.after j).advance.answer = .suspended n v := by
  obtain ⟨⟨l, fs, hr', hfs⟩, -, -⟩ := after_runs hr (Nat.le_of_lt hj)
  rw [List.drop_eq_getElem_cons hj] at hfs
  rw [(s.after j).advance_eq.1]
  exact ⟨_, _, (advance_of_runs_cons hr' hfs).1⟩

/-- **Every advance comes to its answer**, in every state of a stepper, within a number of silent
changes that is bounded for all advances to come, whether or not the program comes to an end. -/
theorem advance_returns (s : Stepper) :
    (∀ (k : Nat) (es : List Event) (h' : Heap) (m' : Machine),
      Runs k s.session.heap s.machine es h' m' → suspensions es = [] → k < s.machine.budget) ∧
    (∀ n, s.machine.budget ≤ n →
      s.machine.advanceWithin n s.session.heap = some (s.machine.advance s.session.heap)) ∧
    ∀ size, s.Within (fun n => n.size ≤ size) → ∀ j, (s.after j).machine.budget ≤ size + 2 := by
  refine ⟨fun k es h' m' hr hes => hr.lt_budget hes, fun n hn => advanceWithin_eq hn _, ?_⟩
  intro size hs j
  exact (hs.after (hereditary_size_le size) j).budget_le

/-- The program `((lambda (x) (x x)) (lambda (x) (x x)))` has no end, and each of its advances makes
at most twenty transitions. -/
theorem advance_returns_selfCall :
    (∀ j, ∃ n v, ((Stepper.start .selfCall .new ∅).after j).advance.answer = .suspended n v) ∧
    (Stepper.start .selfCall .new ∅).Within (fun n => n.size ≤ 18) ∧
    ∀ j, let s := (Stepper.start .selfCall .new ∅).after j
      s.machine.advanceWithin 20 s.session.heap = some (s.machine.advance s.session.heap) := by
  have hwithin : (Stepper.start .selfCall .new ∅).Within (fun n => n.size ≤ 18) :=
    ⟨.start _ _ _, over_start (by decide) trivial, Session.each_new⟩
  refine ⟨fun j => ?_, hwithin, fun j => ?_⟩
  · obtain ⟨k, es, h₁, m₁, hr, hm₁⟩ := runs_selfCall
    obtain ⟨l, fs, h', m', hr', hfs⟩ := hm₁.suspends (j + 1)
    refine suspended_of_runs (hr.trans hr') ?_
    rw [suspensions_append, List.length_append]
    omega
  · have hbudget := (advance_returns (Stepper.start .selfCall .new ∅)).2.2 18 hwithin j
    exact (advance_returns ((Stepper.start .selfCall .new ∅).after j)).2.1 20 hbudget

end Stepper

end StepLisp
