import StepLisp.Proofs.History
import StepLisp.Proofs.Ledger
import StepLisp.Proofs.Parents

/-!
# The nodes that a session holds

Whatever is done with a session, its heap, its steppers and the results hold no other nodes than
those of its programs, and no other closures than those from lambdas of its programs. Since a place
tells a node of all programs that were read, none of these nodes but the root itself is in the place
of the root.

* `Workbench.Holds`, the nodes of the programs, and `Workbench.Native`, the invariant, with
  **`Native.perform`**;
* `Workbench.Read`, all programs were read from tokens, with `Read.perform`;
* `Read.child_ne_root`: neither a part of a node nor a body is the root of a program.
-/

namespace StepLisp

namespace Workbench

open Machine

variable {w w' : Workbench} {s : Session} {k : Nat} {t : Tree} {n c : Node}

/-- The node belongs to one of the programs. -/
def Holds (w : Workbench) (n : Node) : Prop := ∃ t ∈ w.trees, n ∈ t.nodes

theorem hereditary_holds (w : Workbench) : Hereditary w.Holds := by
  rintro n ⟨t, ht, hn⟩ c hc
  exact ⟨t, ht, Tree.child_mem_nodes hn hc⟩

/-- The session, its steppers and the results hold nodes of the programs only, and closures from
their lambdas. -/
def Native (s : Session) (w : Workbench) : Prop := w.Over w.Holds (fun _ _ => True) s

/-- **Whatever is done, a session holds nodes of its programs only.** -/
theorem Native.perform (hw : w.Native s) {act : Act} (hact : act.Alone) :
    ∃ s', (w.perform act).Native s' := by
  have hroots : ∀ t ∈ w.trees, w.Holds t.root := fun t ht => ⟨t, ht, t.root_mem_nodes⟩
  obtain ⟨s', hw', -⟩ := Over.moved (hereditary_holds w).stable hw hact (w.moved act)
    fun _ => ⟨hroots, trivial⟩
  refine ⟨s', hw'.mono fun n hn => ?_⟩
  obtain ⟨t, ht, hn⟩ := hn
  obtain ⟨i, hi⟩ := Array.getElem?_of_mem ht
  exact ⟨t, Array.mem_of_getElem? ((w.moved act).goesOn.trees i t hi), hn⟩

theorem Native.performAll (hw : w.Native s) {acts : List Act} (hacts : ∀ act ∈ acts, act.Alone) :
    ∃ s', (w.performAll acts).Native s' :=
  performAll_keeps (I := fun w => ∃ s, w.Native s)
    (fun _ _ hact ⟨_, hw⟩ => hw.perform hact) hacts ⟨s, hw⟩

/-- All programs were read from tokens, as trees with the numbers that they have here. -/
def Read (w : Workbench) : Prop :=
  ∀ (i : Nat) (t : Tree), w.trees[i]? = some t →
    ∃ first tokens, (Tree.ofTokens i first tokens).outcome = .ok t

namespace Read

theorem perform (hw : w.Read) {act : Act} (hact : ∀ t, act ≠ .program t) :
    (w.perform act).Read := by
  rcases (w.moved act).trees with htrees | ⟨t, htrees, rfl | ⟨first, tokens, ht⟩⟩
  · rwa [Read, htrees]
  · exact absurd rfl (hact t)
  · intro i u hu
    rw [htrees] at hu
    rcases eq_or_of_getElem?_push hu with ⟨rfl, rfl⟩ | hu
    · exact ⟨first, tokens, ht⟩
    · exact hw i u hu

theorem performAll (hw : w.Read) {acts : List Act} (hacts : ∀ act ∈ acts, ∀ t, act ≠ .program t) :
    (w.performAll acts).Read :=
  performAll_keeps (fun _ _ hact hw => hw.perform hact) hacts hw

end Read

theorem Read.child_ne_root (hw : w.Read) {i : Nat} (ht : w.trees[i]? = some t) (hn : w.Holds n)
    (hc : c ∈ n.children) : c.place ≠ t.root.place := by
  intro heq
  obtain ⟨t', ht', hn⟩ := hn
  obtain ⟨i', hi'⟩ := Array.getElem?_of_mem ht'
  obtain ⟨first', tokens', hread'⟩ := hw i' t' hi'
  obtain ⟨first, tokens, hread⟩ := hw i t ht
  -- the place tells the tree, and in the tree the number tells the node
  have htree := congrArg Place.tree heq
  rw [Tree.place_tree hread' (Tree.child_mem_nodes hn hc),
    Tree.place_tree hread t.root_mem_nodes] at htree
  subst htree
  rw [ht] at hi'
  cases hi'
  exact (Tree.numbered_ofTokens hread).1.child_ne_root hn hc (congrArg Place.id heq)

end Workbench

end StepLisp
