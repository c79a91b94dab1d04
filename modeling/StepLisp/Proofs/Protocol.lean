import Mathlib.Tactic
import Mathlib.Data.Nat.Find
import StepLisp.Proofs.Effects
import StepLisp.Proofs.Native

/-!
# The answers of a stepper

A stepper is advanced again and again. It answers with nodes that got values, until it comes to an
end, if it ever does: the root has got the value of the program, and from then on this value is
answered, or there was a fault, and from then on the program is halted.

* `Answers.cases`: what sequences of answers there are, if each may follow the one before;
* `Stepper.answer` and `Stepper.last`, the answers of successive advances, with
  **`Stepper.behind_after`**: after each of them the machine stands behind the last answer;
* `Stepper.after_ended`: behind the end nothing changes any more; `Stepper.steps_after` and
  `Stepper.isDone_after`: what is counted;
* `Stepper.ledger_done`: at the end the ledger is balanced, so `Read.root_once`: the root gets a
  value once;
* **`Workbench.answers_end`**: the answers of a new stepper.
-/

namespace StepLisp

/-! ## Sequences of answers -/

namespace Machine.Next

variable {root : Node} {last : Option Answer} {a : Answer} {v : Value} {f : Fault}

theorem of_failed (h : Next root (some (.failed f)) a) : a = .failed ⟨.halted, root⟩ := by
  cases h with
  | halted => rfl
  | suspended hl => obtain ⟨n, v, hn⟩ := hl _ rfl; cases hn
  | failed hl => obtain ⟨n, v, hn⟩ := hl _ rfl; cases hn

theorem of_done (h : Next root (some (.done v)) a) : a = .done v := by
  cases h with
  | ended => rfl
  | suspended hl => obtain ⟨n, v, hn⟩ := hl _ rfl; cases hn
  | failed hl => obtain ⟨n, v, hn⟩ := hl _ rfl; cases hn

theorem of_unended (h : Next root last a) (hl : Unended last) :
    (∃ n v, a = .suspended n v) ∨ (∃ v, last = some (.suspended root v) ∧ a = .done v) ∨
      ∃ f, f.cause ≠ .halted ∧ a = .failed f := by
  cases h with
  | suspended _ n v => exact .inl ⟨n, v, rfl⟩
  | failed _ hf => exact .inr (.inr ⟨_, hf, rfl⟩)
  | done v => exact .inr (.inl ⟨v, rfl, rfl⟩)
  | ended v => obtain ⟨n, w, hn⟩ := hl _ rfl; cases hn
  | halted f => obtain ⟨n, w, hn⟩ := hl _ rfl; cases hn

end Machine.Next

namespace Answers

open Machine

variable {root : Node} {a : Nat → Answer} {k : Nat} {v : Value} {f : Fault}

theorem done_stays (hs : ∀ j, Next root (some (a j)) (a (j + 1))) (hk : a k = .done v) :
    ∀ j, k ≤ j → a j = .done v := by
  intro j hj
  induction j, hj using Nat.le_induction with
  | base => exact hk
  | succ j _ ih =>
    have hnext := hs j
    rw [ih] at hnext
    exact hnext.of_done

theorem halted_stays (hs : ∀ j, Next root (some (a j)) (a (j + 1))) (hk : a k = .failed f) :
    ∀ j, k < j → a j = .failed ⟨.halted, root⟩ := by
  intro j hj
  induction j, hj using Nat.le_induction with
  | base =>
    have hnext := hs k
    rw [hk] at hnext
    exact hnext.of_failed
  | succ j _ ih =>
    have hnext := hs j
    rw [ih] at hnext
    exact hnext.of_failed

/-- **The sequences of answers**: values of nodes without end, or up to the value of the program,
which stays, or up to a fault, which is told once. -/
theorem cases (h0 : Next root none (a 0)) (hs : ∀ j, Next root (some (a j)) (a (j + 1))) :
    (∀ j, ∃ n v, a j = .suspended n v) ∨
      ∃ k, (∀ j < k, ∃ n v, a j = .suspended n v) ∧
        ((∃ i v, k = i + 1 ∧ a i = .suspended root v ∧ ∀ j, k ≤ j → a j = .done v) ∨
          ∃ f, f.cause ≠ .halted ∧ a k = .failed f ∧
            ∀ j, k < j → a j = .failed ⟨.halted, root⟩) := by
  classical
  by_cases hall : ∀ j, ∃ n v, a j = .suspended n v
  · exact .inl hall
  have hex : ∃ k, ¬ ∃ n v, a k = .suspended n v := not_forall.mp hall
  obtain ⟨k, hk, hbefore⟩ : ∃ k, (¬ ∃ n v, a k = .suspended n v) ∧
      ∀ j < k, ∃ n v, a j = .suspended n v :=
    ⟨Nat.find hex, Nat.find_spec hex, fun j hj => not_not.mp (Nat.find_min hex hj)⟩
  refine .inr ⟨k, hbefore, ?_⟩
  -- the first answer that is no suspension comes after a suspension, or is the first of all
  cases k with
  | zero =>
    rcases h0.of_unended unended_none with hn | ⟨v, hv, -⟩ | ⟨f, hf, hfail⟩
    · exact absurd hn hk
    · cases hv
    · exact .inr ⟨f, hf, hfail, halted_stays hs hfail⟩
  | succ i =>
    obtain ⟨n, v, hi⟩ := hbefore i (by omega)
    have hnext := hs i
    rw [hi] at hnext
    rcases hnext.of_unended (unended_suspended n v) with hn | ⟨v', hv, hdone⟩ | ⟨f, hf, hfail⟩
    · exact absurd hn hk
    · cases hv
      exact .inl ⟨i, v, rfl, hi, done_stays hs hdone⟩
    · exact .inr ⟨f, hf, hfail, halted_stays hs hfail⟩

end Answers

/-! ## Successive advances -/

namespace Machine

variable {h h' : Heap} {m m' : Machine} {e : Option Event} {a : Answer}

theorem Change.root_eq (hm : Change h m e h' m') : m'.root = m.root := by
  cases hm <;> rfl

theorem Stop.root_eq (hs : Stop h m a m') : m'.root = m.root := by
  cases hs <;> rfl

theorem Runs.root_eq {k : Nat} {es : List Event} (hr : Runs k h m es h' m') :
    m'.root = m.root := by
  induction hr with
  | refl => rfl
  | step hm _ ih => exact ih.trans hm.root_eq

theorem root_advance (h : Heap) (m : Machine) : (m.advance h).machine.root = m.root := by
  rcases advance_cases h m with ⟨k, n, v, -, hr⟩ | ⟨k, m₁, hr, hs⟩
  · exact hr.root_eq
  · exact hs.root_eq.trans hr.root_eq

end Machine

namespace Stepper

open Machine

variable {s : Stepper}

/-- The answer of the advance number `j`, counted from zero. -/
def answer (s : Stepper) (j : Nat) : Answer := (s.after j).advance.answer

/-- The last answer before the advance number `j`. -/
def last (s : Stepper) : Nat → Option Answer
  | 0 => none
  | j + 1 => some (s.answer j)

/-- **After each advance the machine stands behind the last answer.** -/
theorem behind_after (hs : s.machine.Behind none) (j : Nat) :
    (s.after j).machine.Behind (s.last j) := by
  induction j with
  | zero => exact hs
  | succ j ih =>
    rw [Stepper.after, last, answer, (s.after j).advance_eq.2, (s.after j).advance_eq.1]
    exact ih.nested.advance _

theorem root_after (s : Stepper) (j : Nat) : (s.after j).machine.root = s.machine.root := by
  induction j with
  | zero => rfl
  | succ j ih =>
    rw [Stepper.after, (s.after j).advance_eq.2]
    exact (root_advance _ _).trans ih

theorem next_answer (hs : s.machine.Behind none) (j : Nat) :
    Next s.machine.root (s.last j) (s.answer j) := by
  rw [answer, (s.after j).advance_eq.1, ← s.root_after j]
  exact ((behind_after hs j).effects _).next

theorem advance_of_stop {a : Answer} (hs : Stop s.session.heap s.machine a s.machine) :
    s.advance.stepper = s := by
  rw [s.advance_eq.2, Machine.advance_of_stop hs]
  rfl

/-- **Behind the end nothing changes any more.** -/
theorem after_ended (hs : s.machine.Behind none) {j : Nat}
    (hj : ∀ n v, s.answer j ≠ .suspended n v) : s.after (j + 2) = s.after (j + 1) := by
  have hbehind : (s.after (j + 1)).machine.Behind (some (s.answer j)) := behind_after hs (j + 1)
  rw [Stepper.after]
  generalize s.answer j = a at hbehind hj
  cases hbehind with
  | suspended hm => exact absurd rfl (hj _ _)
  | done hc hp => exact advance_of_stop (.done hc)
  | failed hc => exact advance_of_stop (.halted hc)

theorem steps_after (hs : s.machine.steps = 0) (j : Nat) :
    (s.after j).machine.steps = (s.pauses j).length := by
  induction j with
  | zero => exact hs
  | succ j ih =>
    have hwritten := (advance_written (s.after j).session.heap (s.after j).machine).2
    rw [Stepper.after, (s.after j).advance_eq.2, pauses_succ, List.length_append, ← ih,
      (s.after j).advance_eq.1]
    revert hwritten
    cases ((s.after j).machine.advance (s.after j).session.heap).answer with
    | suspended n v => exact fun hwritten => hwritten.1
    | _ => exact fun hwritten => hwritten.1

theorem isDone_after (hs : s.machine.Behind none) (j : Nat) :
    (s.after j).machine.isDone ↔ ∃ i < j, ∃ v, s.answer i = .done v := by
  have hbehind := behind_after hs j
  constructor
  · intro hdone
    cases j with
    | zero =>
      cases hbehind with
      | fresh hc hp => simp [isDone, hc] at hdone
    | succ j =>
      refine ⟨j, Nat.lt_succ_self j, ?_⟩
      change (s.after (j + 1)).machine.Behind (some (s.answer j)) at hbehind
      generalize s.answer j = a at hbehind
      cases hbehind with
      | suspended hm => simp [isDone, hm.control] at hdone
      | done hc hp => exact ⟨_, rfl⟩
      | failed hc => simp [isDone, hc] at hdone
  · rintro ⟨i, hi, v, hv⟩
    obtain ⟨j, rfl⟩ : ∃ j', j = j' + 1 := ⟨j - 1, by omega⟩
    change (s.after (j + 1)).machine.Behind (some (s.answer j)) at hbehind
    rw [Answers.done_stays (fun i => next_answer hs (i + 1)) hv j (by omega)] at hbehind
    cases hbehind with
    | done hc hp => simp [isDone, hc]

theorem not_failed_of_done (hs : s.machine.Behind none) {k : Nat} {v : Value}
    (hk : s.answer k = .done v) : ∀ j < k + 1, ∀ f, s.answer j ≠ .failed f := by
  intro j hj f hf
  rcases Nat.lt_or_eq_of_le (Nat.le_of_lt_succ hj) with hjk | rfl
  · have hhalted := Answers.halted_stays (fun i => next_answer hs (i + 1)) hf k hjk
    rw [hk] at hhalted
    cases hhalted
  · rw [hk] at hf
    cases hf

/-- **The balance of a program that has come to its value**: nothing is due any more. -/
theorem ledger_done {P : Node → Prop} {u w : Node → Nat} (hP : Hereditary P)
    (hb : ∀ n, P n → n.Balanced u w) (hs : s.Within P) (hfresh : s.machine.Behind none) {k : Nat}
    {v : Value} (hk : s.answer k = .done v) :
    total u (s.pauses (k + 1)) =
      u s.machine.root + total w (s.pauses (k + 1)) + total u (s.entries (k + 1)) := by
  have hledger := ledger_after hP hb hs (not_failed_of_done hfresh hk)
  have hbehind : (s.after (k + 1)).machine.Behind (some (s.answer k)) := behind_after hfresh (k + 1)
  rw [hk] at hbehind
  cases hbehind with
  | done hc hp =>
    cases hfresh with
    | fresh hc' hp' =>
      simp only [due, begun, hc, hp, hc', hp', Control.due, total_nil] at hledger
      omega

end Stepper

/-! ## A new stepper -/

namespace Workbench

open Machine

variable {w : Workbench} {s : Session} {k : Nat} {t : Tree} {c : Node}

/-- The weight one for the nodes in the place of `n`, and zero for all others. -/
def atPlace (n : Node) : Node → Nat := fun m => if m.place = n.place then 1 else 0

/-- **The root gets a value once**: by the ledger, it is due once, at the start. -/
theorem Read.root_once (hw : w.Read) (hn : w.Native s) {i : Nat} (ht : w.trees[i]? = some t)
    (r : Results) {v : Value} (hk : (Stepper.start t s r).answer k = .done v) :
    total (atPlace t.root) ((Stepper.start t s r).pauses (k + 1)) = 1 := by
  have hP := hereditary_holds w
  have hroot : w.Holds t.root := ⟨t, Array.mem_of_getElem? ht, t.root_mem_nodes⟩
  have hwithin : (Stepper.start t s r).Within w.Holds :=
    ⟨.start t.root s.library s.global, over_start hroot trivial, Over.heap hn⟩
  have hzero : ∀ n, w.Holds n → ∀ c ∈ n.children, atPlace t.root c = 0 :=
    fun n hn c hc => if_neg (hw.child_ne_root ht hn hc)
  have hledger := Stepper.ledger_done hP (w := fun _ => 0)
    (fun n hn => Node.balanced_of_zero (hzero n hn) rfl) hwithin (.fresh rfl rfl) hk
  have hentries : total (atPlace t.root) ((Stepper.start t s r).entries (k + 1)) = 0 := by
    refine total_eq_zero fun b hb => ?_
    obtain ⟨n, ps, hn, hf⟩ := hwithin.entries hP hb
    obtain ⟨head, list, -, hchildren⟩ := Form.ofNode_eq_abstraction hf
    exact hzero n hn b (by simp [hchildren])
  rw [hledger, hentries, total_eq_zero fun _ _ => rfl]
  exact if_pos rfl

theorem Read.root_last (hw : w.Read) (hn : w.Native s) {i : Nat} (ht : w.trees[i]? = some t)
    (r : Results) {u v v' : Value} (hi : (Stepper.start t s r).answer k = .suspended t.root u)
    (hk : (Stepper.start t s r).answer (k + 1) = .done v) {j : Nat} (hj : j < k)
    (ha : (Stepper.start t s r).answer j = .suspended c v') : c.place ≠ t.root.place := by
  have honce := hw.root_once hn ht r hk
  rw [Stepper.pauses_succ, Stepper.pauses_succ, total_append, total_append] at honce
  change _ + total _ ((Stepper.start t s r).answer k).node?.toList +
    total _ ((Stepper.start t s r).answer (k + 1)).node?.toList = 1 at honce
  rw [hi, hk] at honce
  have hle := le_total (u := atPlace t.root) (Stepper.mem_pauses ha hj)
  intro heq
  simp [atPlace, Answer.node?, heq] at honce hle
  omega

/-- **The answers of a new stepper**, for every program and in every state of a session: nodes get
values without end, or up to the root and then the value of the program for ever, or up to a fault,
behind which the program is halted. -/
theorem answers_end {acts : List Act} (hacts : ∀ act ∈ acts, act.Alone)
    (hread : (Workbench.new.performAll acts).Read) {tree : Nat}
    (ht : (Workbench.new.performAll acts).trees[tree]? = some t)
    (hs : (Workbench.new.performAll acts).sessions[0]? = some s) (r : Results) :
    let st := Stepper.start t s r
    (∀ j, (st.after j).machine.steps = (st.pauses j).length) ∧
    (∀ j, (st.after j).machine.isDone ↔ ∃ i < j, ∃ v, st.answer i = .done v) ∧
    ((∀ j, ∃ n v, st.answer j = .suspended n v) ∨
      ∃ k, (∀ j < k, ∃ n v, st.answer j = .suspended n v) ∧
        (∀ j, k < j → st.after (j + 1) = st.after j) ∧
        ((∃ i v, k = i + 1 ∧ st.answer i = .suspended t.root v ∧
            (∀ j < i, ∀ n u, st.answer j = .suspended n u → n.place ≠ t.root.place) ∧
            ∀ j, k ≤ j → st.answer j = .done v) ∨
          ∃ f, f.cause ≠ .halted ∧ st.answer k = .failed f ∧
            ∀ j, k < j → st.answer j = .failed ⟨.halted, t.root⟩)) := by
  intro st
  have hfresh : st.machine.Behind none := .fresh rfl rfl
  refine ⟨Stepper.steps_after rfl, Stepper.isDone_after hfresh, ?_⟩
  rcases Answers.cases (Stepper.next_answer hfresh 0) fun j => Stepper.next_answer hfresh (j + 1)
    with hall | ⟨k, hbefore, hend⟩
  · exact .inl hall
  have hover : ∀ j, k ≤ j → ∀ n v, st.answer j ≠ .suspended n v := by
    intro j hj n v ha
    rcases hend with ⟨-, v', -, -, hdone⟩ | ⟨f, -, hf, hhalted⟩
    · cases ha.symm.trans (hdone j hj)
    · rcases Nat.lt_or_eq_of_le hj with hj | rfl
      · cases ha.symm.trans (hhalted j hj)
      · cases ha.symm.trans hf
  refine .inr ⟨k, hbefore, fun j hj => ?_, ?_⟩
  · obtain ⟨i, rfl⟩ := Nat.exists_eq_add_of_lt hj
    exact Stepper.after_ended hfresh (hover (k + i) (by omega))
  · obtain ⟨s', hn⟩ := Native.performAll (w := .new) over_new hacts
    obtain rfl : s' = s := by
      rw [hn.sessions] at hs
      exact Option.some.inj hs
    refine hend.imp_left ?_
    rintro ⟨i, v, rfl, hi, hdone⟩
    refine ⟨i, v, rfl, hi, fun j hj n u ha => ?_, hdone⟩
    exact hread.root_last hn ht r hi (hdone (i + 1) (by omega)) hj ha

/-- In the second program, `((lambda () ()))`, a closure is called, and the root gets its value
last. -/
theorem answers_end_call : ∃ (acts : List Act) (t : Tree) (s : Session) (k : Nat) (v : Value),
    (∀ act ∈ acts, act.Alone) ∧ (Workbench.new.performAll acts).Read ∧
    (Workbench.new.performAll acts).trees[1]? = some t ∧
    (Workbench.new.performAll acts).sessions[0]? = some s ∧
    (Stepper.start t s ∅).answer k = .suspended t.root v ∧
    (∀ j < k, ∀ n u, (Stepper.start t s ∅).answer j = .suspended n u → n.place ≠ t.root.place) ∧
    ∀ j, k < j → (Stepper.start t s ∅).answer j = .done v := by
  let acts : List Act := [.parse 0 "()", .start 0 0, .advance 0, .parse 0 "((lambda () ()))"]
  have hacts : ∀ act ∈ acts, act.Alone := by simp [acts, Act.Alone]
  have hread : (Workbench.new.performAll acts).Read :=
    Read.performAll (w := .new) nofun (by simp [acts])
  have hdone : (do
      let t ← (Workbench.new.performAll acts).trees[1]?
      let s ← (Workbench.new.performAll acts).sessions[0]?
      match (Stepper.start t s ∅).answer 4 with
      | .done _ => some ()
      | _ => none) = some () := by
    cbv
  obtain ⟨t, ht, hdone⟩ := Option.bind_eq_some_iff.mp hdone
  obtain ⟨s, hs, hdone⟩ := Option.bind_eq_some_iff.mp hdone
  obtain ⟨-, -, hall | ⟨k, hbefore, -, hend⟩⟩ := answers_end hacts hread ht hs ∅
  · obtain ⟨n, v, ha⟩ := hall 4
    rw [ha] at hdone
    cases hdone
  rcases hend with ⟨i, v, rfl, hi, hroot, hafter⟩ | ⟨f, -, hf, hhalted⟩
  · exact ⟨acts, _, s, i, v, hacts, hread, ht, hs, hi, hroot, fun j hj => hafter j hj⟩
  · rcases Nat.lt_trichotomy 4 k with hk | rfl | hk
    · obtain ⟨n, v, ha⟩ := hbefore 4 hk
      rw [ha] at hdone
      cases hdone
    · rw [hf] at hdone
      cases hdone
    · rw [hhalted 4 hk] at hdone
      cases hdone

end Workbench

end StepLisp
