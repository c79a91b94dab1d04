import StepLisp.Proofs.Origins
import StepLisp.Proofs.Protocol

/-!
# How often nodes get values

A program that comes to its value has evaluated each of its nodes as often as the node around it,
except where the form of this node says otherwise: of two branches one is taken, the head of a
special form is never evaluated, and a body is evaluated once for each call.

* `Node.mark`, the weight of one node, and `Stepper.visits` and `Stepper.calls`, how often a node
  got a value and a body was entered, which is once with every frame (`Stepper.length_entries`);
* `Stepper.Finished`, a program that has come to its value, with **`Finished.total_part`**: the
  weight of the parts of a node, from the ledger;
* `Finished.visits_part`, and from it one lemma for each form, such as
  `Finished.visits_application` and `Finished.visits_conditional`;
* `Finished.calls_eq_zero`: a lambda that has no value is not called;
* **`Stepper.accounted`**: the accounts of all nodes.
-/

namespace StepLisp

/-! ## Counting -/

namespace Node

/-- The weight one for the nodes with the number of `n`, and zero for all others. -/
def mark (n : Node) : Node → Nat := fun m => if m.id = n.id then 1 else 0

theorem mark_self (n : Node) : n.mark n = 1 := if_pos rfl

theorem mark_of_ne {n m : Node} (h : m.id ≠ n.id) : n.mark m = 0 := if_neg h

theorem total_mark (n : Node) (ns : List Node) : total n.mark ns = (ns.map id).count n.id := by
  induction ns with
  | nil => rfl
  | cons m ns ih =>
    rw [total_cons, ih, List.map_cons, List.count_cons, Nat.add_comm]
    by_cases h : m.id = n.id <;> simp [mark, h]

end Node

namespace Stepper

open Machine

/-- How often the node got a value in the first `k` advances. -/
def visits (s : Stepper) (k : Nat) (n : Node) : Nat := ((s.pauses k).map Node.id).count n.id

/-- How often a frame was entered for a closure with the body `b` in the first `k` advances. -/
def calls (s : Stepper) (k : Nat) (b : Node) : Nat := ((s.entries k).map Node.id).count b.id

/-- **A body is entered with every frame**, so the calls of all bodies are the entered frames. -/
theorem length_entries (s : Stepper) (k : Nat) :
    (s.entries k).length =
      ((List.range k).flatMap fun j => (s.after j).advance.events).countP Event.isEntered := by
  induction k with
  | zero => rfl
  | succ k ih =>
    rw [entries_succ, List.length_append, ih, length_bodies, ← advance_events]
    simp [List.range_succ]

/-- The accounts of a node, if nodes have got values `c` times and bodies were entered `d` times. -/
structure Accounted (c d : Node → Nat) (n : Node) : Prop where
  application : ∀ cs, Form.ofNode n = .ok (.application cs) → ∀ x ∈ cs, c x = c n
  /-- The condition gets a value each time and one of the branches, and the head never. -/
  conditional : ∀ q a b, Form.ofNode n = .ok (.conditional q a b) →
    c q = c n ∧ c a + c b = c n ∧ ∀ x ∈ n.children.take 1, c x = 0
  /-- The value part gets a value each time, and the head and the name never. -/
  definition : ∀ x b, Form.ofNode n = .ok (.definition x b) →
    c b = c n ∧ ∀ x ∈ n.children.take 2, c x = 0
  /-- The body gets a value for each call, and the head and the parameters never. -/
  abstraction : ∀ ps b, Form.ofNode n = .ok (.abstraction ps b) →
    c b = d b ∧ ∀ x ∈ Node.walk (n.children.take 2), c x = 0
  unevaluated : c n = 0 → ∀ x ∈ Node.walk n.children, c x = 0

/-- The program `t`, whose nodes are numbered, has come to its value with the advance number `k`. -/
structure Finished (t : Tree) (k : Nat) (s : Stepper) : Prop where
  numbered : ∃ first, t.Numbered first
  within : s.Within (· ∈ t.nodes)
  fresh : s.machine.Behind none
  root : s.machine.root = t.root
  closures : ∀ Q, s.machine.Each Q ∧ s.session.heap.Each Q
  done : ∃ v, s.answer k = .done v

namespace Finished

variable {t : Tree} {k : Nat} {s : Stepper} {p x : Node} {u : Node → Nat} {i : Nat}

theorem hereditary (t : Tree) : Hereditary (· ∈ t.nodes) := fun _ hn _ hc =>
  Tree.child_mem_nodes hn hc

/-- **The weight of the parts of one node.** If no other node has parts of any weight, then what was
evaluated of this weight is what the node owes, each time it got a value, and the bodies. -/
theorem total_part (hs : s.Finished t k) (hp : p ∈ t.nodes) (hroot : u t.root = 0)
    (hu : ∀ n ∈ t.nodes, n ≠ p → ∀ c ∈ n.children, u c = 0)
    (hw : ∀ f, Form.ofNode p = .ok f → f.Weighs u i) :
    total u (s.pauses (k + 1)) =
      i * s.visits (k + 1) p + total u (s.entries (k + 1)) := by
  obtain ⟨first, ht⟩ := hs.numbered
  obtain ⟨v, hv⟩ := hs.done
  have hb : ∀ n ∈ t.nodes, n.Balanced u fun m => i * p.mark m := by
    intro n hn
    by_cases hnp : n = p
    · subst hnp
      intro f hf
      show f.Weighs u (i * n.mark n)
      rw [Node.mark_self, Nat.mul_one]
      exact hw f hf
    · have hid : n.id ≠ p.id := fun h => hnp (ht.unique hn hp h)
      exact Node.balanced_of_zero (hu n hn hnp) (by rw [Node.mark_of_ne hid, Nat.mul_zero])
  have hledger := ledger_done (hereditary t) hb hs.within hs.fresh hv
  rw [hs.root, hroot, total_mul, Node.total_mark] at hledger
  rw [hledger, visits]
  omega

theorem entry (hs : s.Finished t k) {b : Node} (hb : b ∈ s.entries (k + 1)) :
    ∃ n ps, n ∈ t.nodes ∧ Form.ofNode n = .ok (.abstraction ps b) ∧ b ∈ n.children := by
  obtain ⟨n, ps, hn, hf⟩ := hs.within.entries (hereditary t) hb
  obtain ⟨head, list, -, hchildren⟩ := Form.ofNode_eq_abstraction hf
  exact ⟨n, ps, hn, hf, by simp [hchildren]⟩

section Parts

variable (hs : s.Finished t k) (hp : p ∈ t.nodes) (hx : x ∈ p.children)
include hs hp hx

theorem mark_root : x.mark t.root = 0 := by
  obtain ⟨first, ht⟩ := hs.numbered
  exact Node.mark_of_ne (ht.child_ne_root hp hx).symm

theorem mark_other : ∀ n ∈ t.nodes, n ≠ p → ∀ c ∈ n.children, x.mark c = 0 := by
  obtain ⟨first, ht⟩ := hs.numbered
  intro n hn hnp c hc
  exact Node.mark_of_ne fun h => hnp (ht.parent_unique hn hp hc hx h)

theorem total_entries (hbody : ∀ ps b, Form.ofNode p = .ok (.abstraction ps b) → b.id ≠ x.id) :
    total x.mark (s.entries (k + 1)) = 0 := by
  obtain ⟨first, ht⟩ := hs.numbered
  refine total_eq_zero fun b hb => Node.mark_of_ne fun h => ?_
  obtain ⟨n, ps, hn, hf, hchild⟩ := hs.entry hb
  obtain rfl := ht.parent_unique hn hp hchild hx h
  exact hbody ps b hf h

/-- A part that is evaluated `i` times for each value of its node. -/
theorem visits_part (hw : ∀ f, Form.ofNode p = .ok f → f.Weighs x.mark i)
    (hbody : ∀ ps b, Form.ofNode p = .ok (.abstraction ps b) → b.id ≠ x.id) :
    s.visits (k + 1) x = i * s.visits (k + 1) p := by
  have htotal := hs.total_part hp (hs.mark_root hp hx) (hs.mark_other hp hx) hw
  rwa [hs.total_entries hp hx hbody, Nat.add_zero, Node.total_mark] at htotal

end Parts

/-! ## The forms one by one -/

section Forms

variable (hs : s.Finished t k) (hp : p ∈ t.nodes)
include hs hp

theorem nodup_children : (p.children.map Node.id).Nodup := by
  obtain ⟨first, ht⟩ := hs.numbered
  exact ht.children_nodup hp

theorem visits_application {cs : List Node} (hf : Form.ofNode p = .ok (.application cs))
    (hx : x ∈ cs) : s.visits (k + 1) x = s.visits (k + 1) p := by
  have hchildren := Form.ofNode_eq_application hf
  have hnodup := hs.nodup_children hp
  rw [hchildren] at hnodup
  have hw : total x.mark cs = 1 := by
    rw [Node.total_mark]
    exact List.count_eq_one_of_mem hnodup (List.mem_map_of_mem hx)
  have hvisits := hs.visits_part (i := 1) hp (hchildren ▸ hx) (by simpa [hf, Form.Weighs] using hw)
    (by simp [hf])
  rwa [Nat.one_mul] at hvisits

theorem visits_conditional {q a b : Node} (hf : Form.ofNode p = .ok (.conditional q a b)) :
    s.visits (k + 1) q = s.visits (k + 1) p ∧
      s.visits (k + 1) a + s.visits (k + 1) b = s.visits (k + 1) p ∧
      ∀ x ∈ p.children.take 1, s.visits (k + 1) x = 0 := by
  obtain ⟨head, -, hchildren⟩ := Form.ofNode_eq_conditional hf
  have hnodup := hs.nodup_children hp
  rw [hchildren] at hnodup
  simp only [List.map_cons, List.map_nil, List.nodup_cons, List.mem_cons, not_or] at hnodup
  obtain ⟨⟨hhq, hha, hhb, -⟩, ⟨hqa, hqb, -⟩, ⟨hab, -⟩, -⟩ := hnodup
  have hq : q ∈ p.children := by simp [hchildren]
  have ha : a ∈ p.children := by simp [hchildren]
  have hb : b ∈ p.children := by simp [hchildren]
  have hh : head ∈ p.children := by simp [hchildren]
  refine ⟨?_, ?_, ?_⟩
  · have hvisits := hs.visits_part (i := 1) hp hq
      (by simp [hf, Form.Weighs, Node.mark, Ne.symm hqa, Ne.symm hqb]) (by simp [hf])
    rwa [Nat.one_mul] at hvisits
  · -- one of the branches is taken, so both together are weighed
    have htotal := hs.total_part (u := fun n => a.mark n + b.mark n) (i := 1) hp
      (by simp [hs.mark_root hp ha, hs.mark_root hp hb])
      (fun n hn hnp c hc => by simp [hs.mark_other hp ha n hn hnp c hc,
        hs.mark_other hp hb n hn hnp c hc])
      (by simp [hf, Form.Weighs, Node.mark, hqa, hqb, hab, Ne.symm hab])
    rw [total_add, total_add, hs.total_entries hp ha (by simp [hf]),
      hs.total_entries hp hb (by simp [hf]), Node.total_mark, Node.total_mark] at htotal
    simpa [visits] using htotal
  · have hvisits := hs.visits_part (i := 0) hp hh
      (by simp [hf, Form.Weighs, Node.mark, Ne.symm hhq, Ne.symm hha, Ne.symm hhb]) (by simp [hf])
    simpa [hchildren] using hvisits

theorem visits_definition {y : String} {b : Node} (hf : Form.ofNode p = .ok (.definition y b)) :
    s.visits (k + 1) b = s.visits (k + 1) p ∧ ∀ x ∈ p.children.take 2, s.visits (k + 1) x = 0 := by
  obtain ⟨head, name, -, -, hchildren⟩ := Form.ofNode_eq_definition hf
  have hnodup := hs.nodup_children hp
  rw [hchildren] at hnodup
  simp only [List.map_cons, List.map_nil, List.nodup_cons, List.mem_cons, not_or] at hnodup
  obtain ⟨⟨hhn, hhb, -⟩, ⟨hnb, -⟩, -⟩ := hnodup
  have hb : b ∈ p.children := by simp [hchildren]
  have hzero : ∀ x ∈ p.children, b.id ≠ x.id → s.visits (k + 1) x = 0 := by
    intro x hx hne
    have hvisits := hs.visits_part (i := 0) hp hx (by simp [hf, Form.Weighs, Node.mark, hne])
      (by simp [hf])
    rwa [Nat.zero_mul] at hvisits
  constructor
  · have hvisits := hs.visits_part (i := 1) hp hb (by simp [hf, Form.Weighs, Node.mark])
      (by simp [hf])
    rwa [Nat.one_mul] at hvisits
  · have hhead := hzero head (by simp [hchildren]) (Ne.symm hhb)
    have hname := hzero name (by simp [hchildren]) (Ne.symm hnb)
    simp [hchildren, hhead, hname]

theorem visits_abstraction {ps : List String} {b : Node}
    (hf : Form.ofNode p = .ok (.abstraction ps b)) :
    s.visits (k + 1) b = s.calls (k + 1) b ∧ ∀ x ∈ p.children.take 2, s.visits (k + 1) x = 0 := by
  obtain ⟨head, list, -, hchildren⟩ := Form.ofNode_eq_abstraction hf
  have hnodup := hs.nodup_children hp
  rw [hchildren] at hnodup
  simp only [List.map_cons, List.map_nil, List.nodup_cons, List.mem_cons, not_or] at hnodup
  obtain ⟨⟨-, hhb, -⟩, ⟨hlb, -⟩, -⟩ := hnodup
  have hb : b ∈ p.children := by simp [hchildren]
  have hzero : ∀ x ∈ p.children, b.id ≠ x.id → s.visits (k + 1) x = 0 := by
    intro x hx hne
    have hvisits := hs.visits_part (i := 0) hp hx (by simp [hf, Form.Weighs])
      (by simpa [hf] using hne)
    rwa [Nat.zero_mul] at hvisits
  constructor
  · have htotal := hs.total_part (i := 0) hp (hs.mark_root hp hb) (hs.mark_other hp hb)
      (by simp [hf, Form.Weighs])
    rw [Node.total_mark, Node.total_mark, Nat.zero_mul, Nat.zero_add] at htotal
    exact htotal
  · have hhead := hzero head (by simp [hchildren]) (Ne.symm hhb)
    have hlist := hzero list (by simp [hchildren]) (Ne.symm hlb)
    simp [hchildren, hhead, hlist]

/-- **A lambda that has no value is never called**: there is no closure from it. -/
theorem calls_eq_zero {ps : List String} {b : Node} (hf : Form.ofNode p = .ok (.abstraction ps b))
    (hzero : s.visits (k + 1) p = 0) : s.calls (k + 1) b = 0 := by
  obtain ⟨first, ht⟩ := hs.numbered
  obtain ⟨head, list, -, hchildren⟩ := Form.ofNode_eq_abstraction hf
  have hb : b ∈ p.children := by simp [hchildren]
  have hunvisited : p.id ∉ (s.pauses (k + 1)).map Node.id := List.count_eq_zero.mp hzero
  obtain ⟨hm, hh⟩ := hs.closures fun c => c.body.id ≠ b.id
  obtain ⟨-, hentries⟩ := each_after hm hh (k := k + 1) fun n hn ps' b' hf' _ _ heq => by
    -- a closure with this body would come from this lambda
    obtain ⟨head', list', -, hchildren'⟩ := Form.ofNode_eq_abstraction hf'
    have hn' := hs.within.pauses (hereditary t) hn
    have hparent := ht.parent_unique hn' hp (by simp [hchildren'] : b' ∈ n.children) hb heq
    exact hunvisited (hparent ▸ List.mem_map_of_mem hn)
  refine List.count_eq_zero.mpr fun hmem => ?_
  obtain ⟨b', hb', hid⟩ := List.mem_map.mp hmem
  obtain ⟨c, hc, rfl⟩ := hentries b' hb'
  exact hc hid

theorem visits_child_eq_zero (hzero : s.visits (k + 1) p = 0) (hx : x ∈ p.children) :
    s.visits (k + 1) x = 0 := by
  have hnone : (∀ f, Form.ofNode p = .ok f → f.Weighs x.mark 0) →
      (∀ ps b, Form.ofNode p ≠ .ok (.abstraction ps b)) → s.visits (k + 1) x = 0 := by
    intro hw hbody
    have hvisits := hs.visits_part hp hx hw fun ps b hf => absurd hf (hbody ps b)
    rwa [Nat.zero_mul] at hvisits
  cases hf : Form.ofNode p with
  | error e => exact hnone (by simp [hf]) (by simp [hf])
  | ok f =>
    cases f with
    | number y => exact hnone (by simp [hf, Form.Weighs]) (by simp [hf])
    | identifier y => exact hnone (by simp [hf, Form.Weighs]) (by simp [hf])
    | application cs =>
      rw [hs.visits_application hp hf (Form.ofNode_eq_application hf ▸ hx), hzero]
    | conditional q a b =>
      obtain ⟨head, -, hchildren⟩ := Form.ofNode_eq_conditional hf
      obtain ⟨hq, hab, hhead⟩ := hs.visits_conditional hp hf
      simp only [hchildren, List.take_succ_cons, List.take_zero, List.mem_singleton,
        forall_eq] at hhead
      rw [hzero] at hq hab
      have hbranches := Nat.add_eq_zero_iff.mp hab
      simp only [hchildren, List.mem_cons, List.not_mem_nil, or_false] at hx
      rcases hx with rfl | rfl | rfl | rfl
      · exact hhead
      · exact hq
      · exact hbranches.1
      · exact hbranches.2
    | definition y b =>
      obtain ⟨head, name, -, -, hchildren⟩ := Form.ofNode_eq_definition hf
      obtain ⟨hb, hrest⟩ := hs.visits_definition hp hf
      rw [hchildren] at hrest hx
      simp only [List.mem_cons, List.not_mem_nil, or_false] at hx
      rcases hx with rfl | rfl | rfl
      · exact hrest x (by simp)
      · exact hrest x (by simp)
      · rw [hb, hzero]
    | abstraction ps b =>
      obtain ⟨head, list, -, hchildren⟩ := Form.ofNode_eq_abstraction hf
      obtain ⟨hb, hrest⟩ := hs.visits_abstraction hp hf
      rw [hchildren] at hrest hx
      simp only [List.mem_cons, List.not_mem_nil, or_false] at hx
      rcases hx with rfl | rfl | rfl
      · exact hrest x (by simp)
      · exact hrest x (by simp)
      · rw [hb, hs.calls_eq_zero hp hf hzero]

end Forms

theorem visits_walk_eq_zero (hs : s.Finished t k) {ns : List Node}
    (hns : ∀ n ∈ ns, n ∈ t.nodes ∧ s.visits (k + 1) n = 0) :
    ∀ x ∈ Node.walk ns, s.visits (k + 1) x = 0 := by
  fun_induction Node.walk ns with
  | case1 => simp
  | case2 n rest ih =>
    obtain ⟨⟨hn, hzero⟩, hrest⟩ := List.forall_mem_cons.mp hns
    refine List.forall_mem_cons.mpr ⟨hzero, ih (List.forall_mem_append.mpr ⟨fun c hc => ?_, hrest⟩)⟩
    exact ⟨Tree.child_mem_nodes hn hc, hs.visits_child_eq_zero hn hzero hc⟩

theorem visits_root (hs : s.Finished t k) : s.visits (k + 1) t.root = 1 := by
  obtain ⟨first, ht⟩ := hs.numbered
  obtain ⟨v, hv⟩ := hs.done
  have hzero : ∀ n ∈ t.nodes, ∀ c ∈ n.children, t.root.mark c = 0 :=
    fun n hn c hc => Node.mark_of_ne (ht.child_ne_root hn hc)
  have hledger := ledger_done (w := fun _ => 0) (hereditary t)
    (fun n hn => Node.balanced_of_zero (hzero n hn) rfl) hs.within hs.fresh hv
  have hentries : total t.root.mark (s.entries (k + 1)) = 0 := by
    refine total_eq_zero fun b hb => ?_
    obtain ⟨n, ps, hn, -, hchild⟩ := hs.entry hb
    exact hzero n hn b hchild
  rw [hentries, total_eq_zero fun _ _ => rfl, hs.root, Node.total_mark] at hledger
  exact hledger.trans (Node.mark_self _)

theorem accounts (hs : s.Finished t k) (hp : p ∈ t.nodes) :
    Accounted (s.visits (k + 1)) (s.calls (k + 1)) p where
  application := fun cs hf x hx => hs.visits_application hp hf hx
  conditional := fun q a b hf => hs.visits_conditional hp hf
  definition := fun y b hf => hs.visits_definition hp hf
  abstraction := by
    intro ps b hf
    obtain ⟨hb, hrest⟩ := hs.visits_abstraction hp hf
    refine ⟨hb, hs.visits_walk_eq_zero fun n hn => ?_⟩
    exact ⟨Tree.child_mem_nodes hp (List.mem_of_mem_take hn), hrest n hn⟩
  unevaluated := by
    intro hzero
    refine hs.visits_walk_eq_zero fun n hn => ?_
    exact ⟨Tree.child_mem_nodes hp hn, hs.visits_child_eq_zero hp hzero hn⟩

end Finished

theorem finished_start {tree : Nat} {first : NodeId} {source : String} {t : Tree} {r : Results}
    {k : Nat} {v : Value} (ht : (Tree.ofSource tree first source).outcome = .ok t)
    (hk : (Stepper.start t .new r).answer k = .done v) : (Stepper.start t .new r).Finished t k where
  numbered := ⟨first, (Tree.numbered_ofTokens ht).1⟩
  within := ⟨.start _ _ _, over_start t.root_mem_nodes trivial, Session.each_new⟩
  fresh := .fresh rfl rfl
  root := rfl
  closures := fun _ => ⟨.start _ _ _, Session.each_new⟩
  done := ⟨v, hk⟩

/-- **The accounts of all nodes** of a program that comes to its value in a new session: the root
has got one value, and every other node as many as the form of the node around it says. -/
theorem accounted {tree : Nat} {first : NodeId} {source : String} {t : Tree}
    (ht : (Tree.ofSource tree first source).outcome = .ok t) (r : Results) {k : Nat} {v : Value}
    (hk : (Stepper.start t .new r).answer k = .done v) :
    (Stepper.start t .new r).visits (k + 1) t.root = 1 ∧
      ∀ n ∈ t.nodes, Accounted ((Stepper.start t .new r).visits (k + 1))
        ((Stepper.start t .new r).calls (k + 1)) n :=
  ⟨(finished_start ht hk).visits_root, fun _ hn => (finished_start ht hk).accounts hn⟩

/-- In the program `(if () ((lambda () ())) (f))` the first branch is taken, in which a closure is
called, and nothing in the second branch gets a value. -/
theorem accounted_branch : ∃ (t : Tree) (k : Nat) (v : Value) (n a b : Node),
    (Tree.ofSource 0 ⟨0⟩ "(if () ((lambda () ())) (f))").outcome = .ok t ∧
    (Stepper.start t .new ∅).answer k = .done v ∧
    (Stepper.start t .new ∅).visits (k + 1) t.root = 1 ∧ n ∈ t.nodes ∧ n.children.drop 2 = [a, b] ∧
    (Stepper.start t .new ∅).visits (k + 1) a + (Stepper.start t .new ∅).visits (k + 1) b =
      (Stepper.start t .new ∅).visits (k + 1) n := by
  have hdone : (do
      let t ← (Tree.ofSource 0 ⟨0⟩ "(if () ((lambda () ())) (f))").outcome.toOption
      let n ← t.root.children.head?
      let f ← (Form.ofNode n).toOption
      match (Stepper.start t .new ∅).answer 6, f with
      | .done _, .conditional _ _ _ => some ()
      | _, _ => none) = some () := by
    cbv
  obtain ⟨t, ht, hdone⟩ := Option.bind_eq_some_iff.mp hdone
  obtain ⟨n, hn, hdone⟩ := Option.bind_eq_some_iff.mp hdone
  obtain ⟨f, hf, hdone⟩ := Option.bind_eq_some_iff.mp hdone
  split at hdone
  · rename_i v q a b hv
    have ht := eq_ok_of_toOption ht
    have hf := eq_ok_of_toOption hf
    have hn : n ∈ t.nodes := Tree.child_mem_nodes t.root_mem_nodes (List.mem_of_mem_head? hn)
    obtain ⟨hroot, haccounts⟩ := accounted ht ∅ hv
    obtain ⟨head, -, hchildren⟩ := Form.ofNode_eq_conditional hf
    exact ⟨t, 6, v, n, a, b, ht, hv, hroot, hn, by simp [hchildren],
      ((haccounts n hn).conditional q a b hf).2.1⟩
  · cases hdone

end Stepper

end StepLisp
