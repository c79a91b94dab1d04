import Mathlib.Data.List.Pairwise
import StepLisp.Proofs.Numbering

/-!
# Parents and children

Every node of a program but the root is the child of exactly one node, and the children of a node
are told apart by their numbers.

* `Node.mem_walk_of_child`: the nodes of a program are closed under children;
* `Node.walk_perm`: all nodes are the roots and, once each, the children of the nodes;
* **`Tree.Numbered.parent_unique`**, `Tree.Numbered.children_nodup` and
  `Tree.Numbered.child_ne_root`;
* `Tree.place_tree`: all nodes of a program that was read carry its number.
-/

namespace StepLisp

/-! ## Nodes below a node -/

namespace Node

variable {ns : List Node} {n c : Node}

theorem mem_walk_of_mem (hn : n ∈ ns) : n ∈ walk ns := by
  fun_induction walk ns with
  | case1 => cases hn
  | case2 m rest ih =>
    rcases List.mem_cons.mp hn with rfl | hn
    · exact List.mem_cons_self
    · exact List.mem_cons_of_mem m (ih (List.mem_append_right _ hn))

theorem mem_walk_of_child (hn : n ∈ walk ns) (hc : c ∈ n.children) : c ∈ walk ns := by
  fun_induction walk ns with
  | case1 => cases hn
  | case2 m rest ih =>
    refine List.mem_cons_of_mem m ?_
    rcases List.mem_cons.mp hn with rfl | hn
    · exact mem_walk_of_mem (List.mem_append_left _ hc)
    · exact ih hn

/-- **Every node of some trees is a root of one of them or the child of a node**, and this once. -/
theorem walk_perm (ns : List Node) : (walk ns).Perm (ns ++ (walk ns).flatMap children) := by
  fun_induction walk ns with
  | case1 => exact .refl _
  | case2 n rest ih =>
    rw [List.flatMap_cons, List.cons_append, ← List.append_assoc]
    refine (ih.trans ?_).cons n
    exact List.perm_append_comm.append_right _

end Node

theorem Tree.root_mem_nodes (t : Tree) : t.root ∈ t.nodes :=
  Node.mem_walk_of_mem (List.mem_singleton_self _)

namespace Tree

variable {t : Tree} {first : NodeId} {n m c d : Node}

theorem child_mem_nodes (hn : n ∈ t.nodes) (hc : c ∈ n.children) : c ∈ t.nodes :=
  Node.mem_walk_of_child hn hc

namespace Numbered

theorem nodup_ids (ht : t.Numbered first) :
    (t.root.id :: t.nodes.flatMap fun n => n.children.map Node.id).Nodup := by
  have hids : (t.nodes.map Node.id).Nodup := by
    rw [ht]
    exact NodeId.nodup_consecutive _ _
  have hperm := (Node.walk_perm [t.root]).map Node.id
  rw [List.map_append, List.map_flatMap] at hperm
  exact hperm.nodup_iff.mp hids

theorem child_ne_root (ht : t.Numbered first) (hn : n ∈ t.nodes) (hc : c ∈ n.children) :
    c.id ≠ t.root.id := by
  intro heq
  refine (List.nodup_cons.mp ht.nodup_ids).1 ?_
  exact List.mem_flatMap.mpr ⟨n, hn, List.mem_map.mpr ⟨c, hc, heq⟩⟩

theorem children_nodup (ht : t.Numbered first) (hn : n ∈ t.nodes) :
    (n.children.map Node.id).Nodup :=
  (List.nodup_flatMap.mp (List.nodup_cons.mp ht.nodup_ids).2).1 n hn

/-- **No two nodes have a child in common.** -/
theorem parent_unique (ht : t.Numbered first) (hn : n ∈ t.nodes) (hm : m ∈ t.nodes)
    (hc : c ∈ n.children) (hd : d ∈ m.children) (h : c.id = d.id) : n = m := by
  have hpair := (List.nodup_flatMap.mp (List.nodup_cons.mp ht.nodup_ids).2).2
  have : Std.Symm (Function.onFun List.Disjoint fun n : Node => n.children.map Node.id) :=
    ⟨fun _ _ hdisjoint _ hn hm => hdisjoint hm hn⟩
  by_contra hne
  exact hpair.forall hn hm hne (List.mem_map_of_mem hc) (h ▸ List.mem_map_of_mem hd)

end Numbered

end Tree

/-! ## The number of the tree -/

/-- The node and all nodes below it carry the number of the tree. -/
def Node.Carries (tree : Nat) (n : Node) : Prop := ∀ m ∈ Node.walk [n], m.place.tree = tree

theorem Node.mem_walk {ns : List Node} {m : Node} : m ∈ walk ns ↔ ∃ n ∈ ns, m ∈ walk [n] := by
  induction ns with
  | nil => simp [walk]
  | cons n ns ih =>
    rw [← List.singleton_append, walk_append, List.mem_append, ih]
    simp

theorem Node.carries_atom {tree : Nat} (id : NodeId) (span : Span) (a : Atom) :
    (Node.atom ⟨tree, id⟩ span a).Carries tree := by
  intro m hm
  obtain rfl : m = .atom ⟨tree, id⟩ span a := by simpa [walk, children] using hm
  rfl

theorem Node.carries_expression {tree : Nat} {cs : List Node} (hcs : ∀ c ∈ cs, c.Carries tree)
    (id : NodeId) (span : Span) : (Node.expression ⟨tree, id⟩ span cs).Carries tree := by
  intro m hm
  rw [walk, children, List.append_nil] at hm
  rcases List.mem_cons.mp hm with rfl | hm
  · rfl
  · obtain ⟨c, hc, hm⟩ := mem_walk.mp hm
    exact hcs c hc m hm

/-- All nodes that the reader has finished carry the number of the tree. -/
def Reading.Carries (tree : Nat) (r : Reading) : Prop :=
  (∀ n ∈ r.items, n.Carries tree) ∧ ∀ e ∈ r.unclosed, ∀ n ∈ e.before, n.Carries tree

theorem Reading.carries_finish {tree : Nat} {r : Reading} (hr : r.Carries tree)
    (ts : List Token) : (Reading.finish tree r ts).1.Carries tree := by
  induction ts generalizing r with
  | nil => exact hr
  | cons t ts ih =>
    obtain ⟨hitems, hunclosed⟩ := hr
    rw [finish]
    split
    · exact ih ⟨by simp, List.forall_mem_cons.mpr ⟨hitems, hunclosed⟩⟩
    · exact ih ⟨List.forall_mem_cons.mpr ⟨Node.carries_atom _ _ _, hitems⟩, hunclosed⟩
    · split
      · exact ⟨hitems, hunclosed⟩
      · rename_i e outer houter
        rw [houter] at hunclosed
        obtain ⟨hbefore, hunclosed⟩ := List.forall_mem_cons.mp hunclosed
        refine ih ⟨List.forall_mem_cons.mpr ⟨?_, hbefore⟩, hunclosed⟩
        exact Node.carries_expression (fun c hc => hitems c (List.mem_reverse.mp hc)) _ _

/-- **All nodes of a program carry its number.** -/
theorem Tree.place_tree {tree : Nat} {first : NodeId} {tokens : List Token} {t : Tree}
    (h : (ofTokens tree first tokens).outcome = .ok t) {n : Node} (hn : n ∈ t.nodes) :
    n.place.tree = tree := by
  have hr : Reading.Carries tree ⟨first.index + 1, [], []⟩ := ⟨nofun, nofun⟩
  have hitems := (Reading.carries_finish hr tokens).1
  unfold ofTokens at h
  generalize Reading.finish tree ⟨first.index + 1, [], []⟩ tokens = result at hitems h
  obtain ⟨r, _ | e⟩ := result
  · cases h
    exact Node.carries_expression (fun c hc => hitems c (List.mem_reverse.mp hc)) _ _ n hn
  · cases h

end StepLisp
