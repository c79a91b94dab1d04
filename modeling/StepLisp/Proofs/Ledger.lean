import StepLisp.Proofs.Contents
import StepLisp.Proofs.Nesting
import StepLisp.Proofs.Stepping

/-!
# The ledger of an evaluation

Nodes are given weights. Whatever is begun in an evaluation is to be finished, so the weights of the
nodes that get values can be counted: a node that is evaluated owes the values of its parts, of one
branch only if it is a conditional, and a call owes the value of the body in addition.

* `total`, the weight of a list; `Form.Weighs`, the weight of the parts that a form evaluates, and
  `Node.Balanced`, the parts of a node weigh as much as the node itself does in another weight;
* `Machine.due`, the weight that is still to be finished, and `Machine.begun`, the weight that the
  nodes under way have by themselves;
* `Machine.bodies`, the bodies that are entered up to the next answer;
* `Machine.Within`, the nodes that a machine works with are from a set;
* `Change.ledger`, **`Machine.ledger_advance`** and **`Stepper.ledger_after`**: the balance of one
  change, of an advance, and of several advances.
-/

namespace StepLisp

/-! ## Weights -/

section Total

variable {α : Type} (u : α → Nat)

/-- The weight of all members of a list. -/
def total : List α → Nat
  | [] => 0
  | a :: as => u a + total as

@[simp] theorem total_nil : total u [] = 0 := rfl

@[simp] theorem total_cons (a : α) (as : List α) : total u (a :: as) = u a + total u as := rfl

theorem total_append (as bs : List α) : total u (as ++ bs) = total u as + total u bs := by
  induction as with
  | nil => simp
  | cons a as ih => simp [ih, Nat.add_assoc]

theorem total_add (w : α → Nat) (as : List α) :
    total (fun a => u a + w a) as = total u as + total w as := by
  induction as with
  | nil => rfl
  | cons a as ih =>
    simp only [total_cons, ih]
    omega

theorem total_mul (k : Nat) (as : List α) : total (fun a => k * u a) as = k * total u as := by
  induction as with
  | nil => rfl
  | cons a as ih => simp only [total_cons, ih, Nat.mul_add]

variable {u}

theorem total_eq_zero {as : List α} (h : ∀ a ∈ as, u a = 0) : total u as = 0 := by
  induction as with
  | nil => rfl
  | cons a as ih =>
    obtain ⟨ha, has⟩ := List.forall_mem_cons.mp h
    rw [total_cons, ha, ih has]

theorem le_total {as : List α} {a : α} (ha : a ∈ as) : u a ≤ total u as := by
  induction as with
  | nil => cases ha
  | cons b as ih =>
    rw [total_cons]
    rcases List.mem_cons.mp ha with rfl | ha
    · exact Nat.le_add_right _ _
    · have := ih ha
      omega

end Total

section Weights

variable (u w : Node → Nat)

/-- Whichever branch is taken, the parts of the form that are evaluated weigh `k`. -/
def Form.Weighs (k : Nat) : Form → Prop
  | .conditional c a b => u c + u a = k ∧ u c + u b = k
  | .definition _ b => u b = k
  | .application cs => total u cs = k
  | _ => k = 0

/-- The parts of the node that are evaluated have the weights `u` that the node owes by `w`. -/
def Node.Balanced (n : Node) : Prop := ∀ f, Form.ofNode n = .ok f → f.Weighs u (w n)

/-- The weight that a piece of work has still to see finished. -/
def Pending.due : Pending → Nat
  | .annotate n => u n
  | .branch a _ _ => u a
  | .collect n vs _ => total u (n.children.drop (vs.length + 1))
  | _ => 0

def Control.due : Control → Nat
  | .evaluate n _ => u n
  | _ => 0

/-- The weight that is still to be finished. -/
def Machine.due (m : Machine) : Nat := m.control.due u + total (Pending.due u) m.pending

def Pending.begun : Pending → Nat
  | .annotate n => w n
  | _ => 0

/-- What the nodes under way owe. -/
def Machine.begun (m : Machine) : Nat := total (Pending.begun w) m.pending

end Weights

/-- A node whose children weigh nothing owes nothing. -/
theorem Node.balanced_of_zero {u w : Node → Nat} {n : Node} (hc : ∀ c ∈ n.children, u c = 0)
    (hn : w n = 0) : n.Balanced u w := by
  intro f hf
  cases f with
  | conditional c a b =>
    obtain ⟨head, -, hchildren⟩ := Form.ofNode_eq_conditional hf
    simp [Form.Weighs, hn, hc c (by simp [hchildren]), hc a (by simp [hchildren]),
      hc b (by simp [hchildren])]
  | definition x b =>
    obtain ⟨head, name, -, -, hchildren⟩ := Form.ofNode_eq_definition hf
    simp [Form.Weighs, hn, hc b (by simp [hchildren])]
  | application cs =>
    rw [Form.ofNode_eq_application hf] at hc
    rw [Form.Weighs, hn]
    exact total_eq_zero hc
  | _ => exact hn

section Collect

variable {n child : Node} {vs : List Value} {v : Value} {s : FrameId} {u : Node → Nat}

theorem Pending.due_collect (hc : n.children[(vs ++ [v]).length]? = some child) :
    (collect n vs s).due u = u child + (collect n (vs ++ [v]) s).due u := by
  rw [List.length_append, List.length_singleton] at hc
  simp only [due, List.length_append, List.length_singleton]
  rw [List.drop_eq_getElem?_toList_append, hc]
  simp

theorem Pending.due_collect_last (hc : n.children[(vs ++ [v]).length]? = none) :
    (collect n vs s).due u = 0 := by
  rw [List.length_append, List.length_singleton, List.getElem?_eq_none_iff] at hc
  rw [due, List.drop_eq_nil_of_le hc]
  rfl

end Collect

/-! ## What happens on the way -/

/-- The node that gets a value with this event. -/
def Event.node? : Event → Option Node
  | .suspended n _ => some n
  | _ => none

def Event.isEntered : Event → Bool
  | .entered _ => true
  | _ => false

/-- The body that is entered with this event, if the machine is `m` behind it. -/
def Event.body? (m : Machine) : Event → Option Node
  | .entered _ =>
    match m.control with
    | .evaluate b _ => some b
    | _ => none
  | _ => none

namespace Machine

/-- The bodies of closures that are entered up to the next answer. -/
def bodies (h : Heap) (m : Machine) : List Node :=
  match _ht : m.transition h with
  | .pause _ _ _ => []
  | .proceed m h event => (event.bind (Event.body? m)).toList ++ bodies h m
termination_by m.rank
decreasing_by exact rank_lt _ht

variable {h h' : Heap} {m m' : Machine} {e : Option Event} {a : Answer} {n : Node} {v : Value}
  {u w : Node → Nat} {P : Node → Prop} {S : Heap → FrameId → Prop}

theorem bodies_of_proceed (ht : m.transition h = .proceed m' h' e) :
    m.bodies h = (e.bind (Event.body? m')).toList ++ m'.bodies h' := by
  rw [bodies]
  split
  · rename_i ht'
    rw [ht] at ht'
    cases ht'
  · rename_i ht'
    obtain ⟨rfl, rfl, rfl⟩ := Transition.proceed.inj (ht.symm.trans ht')
    rfl

theorem bodies_of_pause (ht : m.transition h = .pause a m' h') : m.bodies h = [] := by
  rw [bodies]
  split
  · rfl
  · rename_i ht'
    rw [ht] at ht'
    cases ht'

theorem length_bodies (h : Heap) (m : Machine) :
    (m.bodies h).length = (m.advance h).events.countP Event.isEntered := by
  induction h, m using Machine.advance.induct with
  | case1 h m a m' h' ht =>
    rw [advance_of_pause ht, bodies_of_pause ht]
    cases a <;> rfl
  | case2 h m m' h' e ht ih =>
    have he : (e.bind (Event.body? m')).toList.length = e.toList.countP Event.isEntered := by
      cases change_of_proceed ht <;> rfl
    rw [advance_of_proceed ht, bodies_of_proceed ht, List.length_append,
      List.countP_append, ih, he]

/-! ## The balance -/

theorem Immediate.balanced {s : FrameId} (hi : Immediate h n s v h') (hb : n.Balanced u w) :
    w n = 0 := by
  cases hi with
  | number hf => exact hb _ hf
  | identifier hf hv => exact hb _ hf
  | abstraction hf => exact hb _ hf
  | empty hf =>
    have hw : total u [] = w n := hb _ hf
    exact hw.symm

/-- **The balance of one change.** -/
theorem Change.ledger (hn : m.Nested) (hP : ∀ n, P n → n.Balanced u w) {S : FrameId → Prop}
    (hm : m.Over P S) (hchange : Change h m e h' m') :
    total u (e.bind Event.node?).toList + m'.due u + m.begun w =
      m.due u + m'.begun w + total w (e.bind Event.node?).toList +
        total u (e.bind (Event.body? m')).toList := by
  unfold due begun
  cases hchange with
  | value hc hi =>
    have hw := hi.balanced (hP _ (hm.evaluate hc).1)
    simp [hc, Control.due, Pending.due, Pending.begun, hw]
  | opened hc ho =>
    -- the parts that are begun are what the node owes
    have hb := hP _ (hm.evaluate hc).1
    cases ho with
    | condition hf =>
      have hw := (hb _ hf).1
      simp [hc, Control.due, Pending.due, Pending.begun]
      omega
    | definition hf =>
      have hw : u _ = w _ := hb _ hf
      simp [hc, Control.due, Pending.due, Pending.begun]
      omega
    | application hf =>
      have hw : total u (_ :: _) = w _ := hb _ hf
      rw [total_cons] at hw
      simp [hc, Control.due, Pending.due, Pending.begun, Form.ofNode_eq_application hf]
      omega
  | @branch v a b s rest hc hp =>
    -- both branches weigh the same
    obtain ⟨n, ha⟩ := hn.deliver hc hp nofun
    cases ha with
    | @condition n' _ _ _ _ rest hf ha =>
      have hn' : P n' := hm.pending (.annotate n') (by simp [hp])
      have hw : u n + u a = w n' ∧ u n + u b = w n' := hP n' hn' _ hf
      have hbranch : u (if v.isTruthy then a else b) = u a := by
        split
        · rfl
        · omega
      simp [hc, hp, Control.due, Pending.due, Pending.begun, hbranch]
  | define hc hp => simp [hc, hp, Control.due, Pending.due, Pending.begun]
  | collect hc hp hchild =>
    simp only [hc, hp, Control.due, total_cons, Pending.due_collect hchild,
      Pending.begun, Option.bind_none, Option.toList_none, total_nil]
    omega
  | apply hc hp hchild ha =>
    simp [hc, hp, Control.due, Pending.due_collect_last hchild, Pending.begun]
  | enter hc hp hchild ha =>
    simp only [hc, hp, Control.due, total_cons, Pending.due_collect_last hchild]
    simp [Pending.due, Pending.begun, Event.node?, Event.body?]
    omega
  | leave hc hp => simp [hc, hp, Control.due, Pending.due, Pending.begun, Event.node?, Event.body?]
  | suspend hc hp =>
    simp [hc, hp, Control.due, Pending.due, Pending.begun, Event.node?, Event.body?]
    omega
  | finish hc hp => simp [hc, hp, Control.due]

/-- What holds of a machine and its heap between two changes, if all nodes are from `P`. -/
structure Within (P : Node → Prop) (h : Heap) (m : Machine) : Prop where
  nested : m.Nested
  contents : m.Over P fun _ => True
  heap : h.Each (Closure.Over P fun _ => True)

/-- The children of the nodes in `P` are in `P`. -/
def Hereditary (P : Node → Prop) : Prop := ∀ n, P n → ∀ c ∈ n.children, P c

theorem Hereditary.stable (hP : Hereditary P) : Stable P fun _ _ => True where
  child := fun hn hc => hP _ hn _ hc
  grows := fun _ _ => trivial
  enter := fun _ _ => trivial

theorem Within.change (hP : Hereditary P) (hm : m.Within P h) (hchange : Change h m e h' m') :
    m'.Within P h' := by
  obtain ⟨hover, hheap⟩ := hchange.over hP.stable hm.contents hm.heap
  exact ⟨hm.nested.change hchange, hover, hheap⟩

theorem Within.stop (hm : m.Within P h) (hs : Stop h m a m') : m'.Within P h :=
  ⟨hm.nested.stop hs, hs.over hm.contents, hm.heap⟩

theorem Within.body (hm : m.Within P h) (hchange : Change h m e h' m') {b : Node}
    (hb : e.bind (Event.body? m') = some b) :
    ∃ n ps, P n ∧ Form.ofNode n = .ok (.abstraction ps b) := by
  cases hchange with
  | enter hc hp hn ha =>
    obtain ⟨⟨-, hvs, -⟩, -⟩ := hm.contents.cons hp
    obtain ⟨⟨n, hn, hf⟩, -⟩ := (apply_each (each_concat hvs (hm.contents.deliver hc)) ha).1
    cases hb
    exact ⟨n, _, hn, hf⟩
  | _ => cases hb

/-- **What an advance meets, if all nodes are from `P`**: the machine behind it is within `P`, the
node that gets a value is in `P`, and all bodies that are entered are from lambdas in `P`. -/
theorem Within.advance (hP : Hereditary P) (hm : m.Within P h) :
    (m.advance h).machine.Within P (m.advance h).heap ∧
      (∀ n, (m.advance h).answer.node? = some n → P n) ∧
      ∀ b ∈ m.bodies h, ∃ n ps, P n ∧ Form.ofNode n = .ok (.abstraction ps b) := by
  -- along the recursion of the advance, one silent change after the other
  induction h, m using Machine.advance.induct with
  | case1 h m a m' h' ht =>
    rw [advance_of_pause ht, bodies_of_pause ht]
    rcases pause_cases ht with ⟨n, v, rfl, hchange⟩ | ⟨rfl, hs⟩
    · refine ⟨hm.change hP hchange, fun n' hn' => ?_, by simp⟩
      cases hn'
      exact (hchange.over_suspended hm.contents).1
    · refine ⟨hm.stop hs, fun n hn => ?_, by simp⟩
      cases hs <;> cases hn
  | case2 h m m' h' e ht ih =>
    have hchange := change_of_proceed ht
    obtain ⟨hm', hnode, hbodies⟩ := ih (hm.change hP hchange)
    rw [advance_of_proceed ht, bodies_of_proceed ht]
    refine ⟨hm', hnode, fun b hb => ?_⟩
    rcases List.mem_append.mp hb with hb | hb
    · exact hm.body hchange (Option.mem_toList.mp hb)
    · exact hbodies b hb

/-- **The balance of an advance** that does not end with a fault. -/
theorem ledger_advance (hP : Hereditary P) (hb : ∀ n, P n → n.Balanced u w) (hm : m.Within P h)
    (ha : ∀ f, (m.advance h).answer ≠ .failed f) :
    total u (m.advance h).answer.node?.toList + (m.advance h).machine.due u + m.begun w =
      m.due u + (m.advance h).machine.begun w +
        total w (m.advance h).answer.node?.toList + total u (m.bodies h) := by
  -- along the recursion of the advance, one silent change after the other
  induction h, m using Machine.advance.induct with
  | case1 h m a m' h' ht =>
    rw [advance_of_pause ht] at ha ⊢
    rw [bodies_of_pause ht]
    rcases pause_cases ht with ⟨n, v, rfl, hchange⟩ | ⟨rfl, hs⟩
    · exact hchange.ledger hm.nested hb hm.contents
    · cases hs with
      | done hc => simp [Answer.node?]
      | halted | malformed | unbound | refused => exact absurd rfl (ha _)
  | case2 h m m' h' e ht ih =>
    have hchange := change_of_proceed ht
    have hsilent := silent_of_proceed ht
    have hnode : e.bind Event.node? = none := by
      rcases e with _ | ⟨f | f | ⟨n, v⟩⟩ <;> first | rfl | cases hsilent
    have hbalance := hchange.ledger hm.nested hb hm.contents
    rw [advance_of_proceed ht] at ha ⊢
    have hrest := ih (hm.change hP hchange) ha
    rw [bodies_of_proceed ht, total_append]
    rw [hnode] at hbalance
    simp only [Option.toList_none, total_nil] at hbalance
    dsimp only
    omega

end Machine

/-! ## Several advances -/

namespace Stepper

open Machine

variable {s : Stepper} {u w : Node → Nat} {P : Node → Prop} {k : Nat}

/-- The nodes that get values in the first `k` advances, in their order. -/
def pauses (s : Stepper) (k : Nat) : List Node :=
  (List.range k).filterMap fun j => (s.after j).advance.answer.node?

/-- The bodies of closures that are entered in the first `k` advances, in their order. -/
def entries (s : Stepper) (k : Nat) : List Node :=
  (List.range k).flatMap fun j => (s.after j).machine.bodies (s.after j).session.heap

theorem pauses_succ (s : Stepper) (k : Nat) :
    s.pauses (k + 1) = s.pauses k ++ (s.after k).advance.answer.node?.toList := by
  unfold pauses
  rw [List.range_succ, List.filterMap_append]
  cases h : (s.after k).advance.answer.node? <;> simp [h]

theorem mem_pauses {j : Nat} {n : Node} {v : Value}
    (ha : (s.after j).advance.answer = .suspended n v) (hj : j < k) : n ∈ s.pauses k :=
  List.mem_filterMap.mpr ⟨j, List.mem_range.mpr hj, by rw [ha]; rfl⟩

theorem entries_succ (s : Stepper) (k : Nat) :
    s.entries (k + 1) =
      s.entries k ++ (s.after k).machine.bodies (s.after k).session.heap := by
  simp [entries, List.range_succ]

/-- All nodes that the stepper works with are from `P`. -/
def Within (P : Node → Prop) (s : Stepper) : Prop := s.machine.Within P s.session.heap

theorem Within.after (hP : Hereditary P) (hs : s.Within P) (k : Nat) : (s.after k).Within P := by
  induction k with
  | zero => exact hs
  | succ k ih =>
    unfold Within
    rw [Stepper.after, (s.after k).advance_eq.2]
    exact (Machine.Within.advance hP ih).1

theorem Within.pauses (hP : Hereditary P) (hs : s.Within P) {n : Node} (hn : n ∈ s.pauses k) :
    P n := by
  obtain ⟨j, -, hj⟩ := List.mem_filterMap.mp hn
  rw [(s.after j).advance_eq.1] at hj
  exact (Machine.Within.advance hP (hs.after hP j)).2.1 n hj

theorem Within.entries (hP : Hereditary P) (hs : s.Within P) {b : Node} (hb : b ∈ s.entries k) :
    ∃ n ps, P n ∧ Form.ofNode n = .ok (.abstraction ps b) := by
  obtain ⟨j, -, hj⟩ := List.mem_flatMap.mp hb
  exact (Machine.Within.advance hP (hs.after hP j)).2.2 b hj

/-- **The balance of several advances**, none of which ends with a fault. -/
theorem ledger_after (hP : Hereditary P) (hb : ∀ n, P n → n.Balanced u w) (hs : s.Within P)
    (hk : ∀ j < k, ∀ f, (s.after j).advance.answer ≠ .failed f) :
    total u (s.pauses k) + (s.after k).machine.due u + s.machine.begun w =
      s.machine.due u + (s.after k).machine.begun w + total w (s.pauses k) +
        total u (s.entries k) := by
  induction k with
  | zero => simp [Stepper.pauses, Stepper.entries, Stepper.after]
  | succ k ih =>
    have hbefore := ih fun j hj => hk j (by omega)
    have hans := hk k (by omega)
    rw [(s.after k).advance_eq.1] at hans
    have hnext := ledger_advance hP hb (hs.after hP k) hans
    rw [pauses_succ, entries_succ, total_append, total_append, total_append,
      Stepper.after, (s.after k).advance_eq.2, (s.after k).advance_eq.1]
    dsimp only [moved]
    omega

end Stepper

end StepLisp
