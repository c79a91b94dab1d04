import Mathlib.Tactic
import StepLisp.Proofs.Effects
import StepLisp.Proofs.History
import StepLisp.Proofs.Parents

/-!
# Finding the nodes that get values

A stepper that pauses tells the node that got a value, and this node is found again by its number:
in the program that the stepper runs, or else among the nodes that the session knows, if it belongs
to a closure that an earlier program defined. For the programs of a session have no number in
common, a program is known to the session as soon as it is started, and closures carry no nodes but
those of such programs.

* `Session.Knows`, a session finds the nodes of a program, with `Session.node?_register`;
* `Known`, the nodes of the programs that the session knows, and `stable_known`: evaluation does not
  lead out of these nodes;
* `Workbench.Resolves`, the invariant, with one lemma for each kind of act and
  **`Resolves.perform`**;
* `Machine.suspended_advance`: what an advance leaves that ends with a suspension;
* **`Workbench.suspended_resolves`**: a node that gets a value is found by its number, with the
  value.
-/

namespace StepLisp

/-! ## Nodes that a session knows -/

namespace Session

variable {s : Session} {t t' : Tree} {n : Node}

/-- The session finds all nodes of the program by their numbers. -/
def Knows (s : Session) (t : Tree) : Prop := ∀ n ∈ t.nodes, s.node? n.id = some n

/-- A node is found after some nodes were added, if it is one of them or was found before, and none
of the others has its number. -/
theorem getElem?_insertAll {ns : List Node} {known : Std.HashMap NodeId Node}
    (hu : ∀ m ∈ ns, m.id = n.id → m = n) (hn : n ∈ ns ∨ known[n.id]? = some n) :
    (ns.foldl (fun known n => known.insert n.id n) known)[n.id]? = some n := by
  induction ns generalizing known with
  | nil => exact hn.resolve_left List.not_mem_nil
  | cons m ns ih =>
    obtain ⟨hm, hu⟩ := List.forall_mem_cons.mp hu
    refine ih hu ?_
    rw [Std.HashMap.getElem?_insert]
    by_cases hid : m.id = n.id
    · exact .inr (by rw [if_pos (beq_iff_eq.mpr hid), hm hid])
    · rw [if_neg fun h => hid (beq_iff_eq.mp h)]
      refine hn.imp_left fun hn => (List.mem_cons.mp hn).resolve_left ?_
      rintro rfl
      exact hid rfl

theorem node?_register (hu : ∀ m ∈ t.nodes, m.id = n.id → m = n)
    (hn : n ∈ t.nodes ∨ s.node? n.id = some n) : (s.register t).node? n.id = some n :=
  getElem?_insertAll hu hn

end Session

/-- The node belongs to one of the programs `trees` that the session knows. -/
def Known (trees : Array Tree) (s : Session) (n : Node) : Prop :=
  ∃ t ∈ trees, s.Knows t ∧ n ∈ t.nodes

/-- **Evaluation does not lead out of the known nodes.** -/
theorem stable_known (trees : Array Tree) (s : Session) :
    Stable (Known trees s) (fun _ _ => True) where
  child := by
    rintro n c ⟨t, ht, hk, hn⟩ hc
    exact ⟨t, ht, hk, Node.mem_walk_of_child hn hc⟩
  grows := fun _ _ => trivial
  enter := fun _ _ => trivial

namespace Machine

variable {h : Heap} {m : Machine} {n : Node} {v : Value}

theorem suspended_advance (ha : (m.advance h).answer = .suspended n v) :
    suspensions (m.advance h).events = [(n, v)] ∧ (m.advance h).machine.current = some n := by
  have hwritten := advance_written h m
  rw [ha] at hwritten
  exact ⟨hwritten.1, hwritten.2.2⟩

end Machine

namespace Workbench

open Machine

variable {w w' : Workbench} {s : Session} {st : Stepper} {k : Nat} {n : Node} {v : Value}
  {t t' : Tree}

/-- The programs of the session `s` have numbers of their own, below the next free one, and its
steppers work with nodes that it knows. -/
structure Resolves (s : Session) (w : Workbench) : Prop where
  numbered : ∀ t ∈ w.trees, ∃ first, t.Numbered first
  below : ∀ t ∈ w.trees, ∀ n ∈ t.nodes, n.id.index < s.next.index
  unique : ∀ t ∈ w.trees, ∀ t' ∈ w.trees, ∀ n ∈ t.nodes, ∀ n' ∈ t'.nodes, n.id = n'.id → n = n'
  held : w.Over (Known w.trees s) (fun _ _ => True) s

/-- It is done with the first session or with a stepper: a program that the session reads itself is
gone through step by step. -/
def Act.Stepped : Act → Prop
  | .parse session _ => session = 0
  | .allocate session => session = 0
  | .start _ session => session = 0
  | .change _ _ => True
  | .advance _ => True
  | .run _ _ => True
  | .takeHeard _ => True
  | _ => False

namespace Over

variable {P : Node → Prop} {S : Heap → FrameId → Prop} {s' : Session} {tree : Nat}

theorem of_eq (hw : w.Over P S s) (hsessions : w'.sessions = #[s']) (hheap : s'.heap = s.heap)
    (hsteppers : w'.steppers = w.steppers) (hresults : w'.results = w.results) :
    w'.Over P S s' where
  sessions := hsessions
  heap := by
    rw [hheap]
    exact hw.heap
  steppers := by
    rw [hheap, hsteppers]
    exact hw.steppers
  results := by
    rw [hheap, hresults]
    exact hw.results

theorem start (hw : w.Over P S s) (ht : w.trees[tree]? = some t) (hP : P t.root)
    (hS : S s.heap s.global) : (w.start tree 0).2.Over P S (s.register t) := by
  have htree : w.trees.getD tree default = t := by
    rw [Array.getD_eq_getD_getElem?, ht, Option.getD_some]
  unfold Workbench.start
  rw [hw.getD_sessions, htree]
  refine ⟨hw.set_sessions _, hw.heap, fun k b hb => ?_, hw.results⟩
  rcases eq_or_of_getElem?_push hb with ⟨-, rfl⟩ | hb
  · exact ⟨rfl, over_start hP hS⟩
  · exact hw.steppers k b hb

end Over

namespace Resolves

theorem new : Resolves .new .new where
  numbered := nofun
  below := nofun
  unique := nofun
  held := over_new

variable (hw : Resolves s w)
include hw

theorem kept {next : NodeId} (hle : s.next.index ≤ next.index)
    (hsessions : w'.sessions = #[{ s with next }]) (htrees : w'.trees = w.trees)
    (hsteppers : w'.steppers = w.steppers) (hresults : w'.results = w.results) :
    Resolves { s with next } w' where
  numbered := by
    rw [htrees]
    exact hw.numbered
  below := by
    rw [htrees]
    exact fun t ht n hn => Nat.lt_of_lt_of_le (hw.below t ht n hn) hle
  unique := by
    rw [htrees]
    exact hw.unique
  held := by
    rw [htrees]
    exact hw.held.of_eq hsessions rfl hsteppers hresults

theorem push {next : NodeId} (ht : t.Numbered s.next)
    (hnext : next = ⟨s.next.index + t.nodes.length⟩)
    (hsessions : w'.sessions = #[{ s with next }]) (htrees : w'.trees = w.trees.push t)
    (hsteppers : w'.steppers = w.steppers) (hresults : w'.results = w.results) :
    Resolves { s with next } w' := by
  subst hnext
  have htree : ∀ u ∈ w'.trees, u ∈ w.trees ∨ u = t :=
    fun u hu => Array.mem_push.mp (htrees ▸ hu)
  refine ⟨fun u hu => ?_, fun u hu n hn => ?_, fun u hu u' hu' n hn n' hn' hid => ?_, ?_⟩
  · rcases htree u hu with hu | rfl
    · exact hw.numbered u hu
    · exact ⟨_, ht⟩
  · rcases htree u hu with hu | rfl
    · exact Nat.lt_of_lt_of_le (hw.below u hu n hn) (Nat.le_add_right _ _)
    · exact (ht.mem_range hn).2
  · rcases htree u hu with hu | rfl <;> rcases htree u' hu' with hu' | rfl
    · exact hw.unique u hu u' hu' n hn n' hn' hid
    · have hlt := hw.below u hu n hn
      rw [hid] at hlt
      exact absurd (ht.mem_range hn').1 (Nat.not_le_of_lt hlt)
    · have hlt := hw.below u' hu' n' hn'
      rw [← hid] at hlt
      exact absurd (ht.mem_range hn).1 (Nat.not_le_of_lt hlt)
    · exact ht.unique hn hn' hid
  · refine (hw.held.mono fun n => ?_).of_eq hsessions rfl hsteppers hresults
    rintro ⟨u, hu, hk, hn⟩
    exact ⟨u, htrees ▸ Array.mem_push.mpr (.inl hu), hk, hn⟩

theorem parse (source : String) : ∃ s', Resolves s' (w.parse 0 source).2 := by
  have hsessions := hw.held.set_sessions (s.parse w.trees.size source).2
  refine ⟨(s.parse w.trees.size source).2, ?_⟩
  rw [Workbench.parse, hw.held.getD_sessions]
  dsimp only
  rcases hr : (s.parse w.trees.size source).1 with e | t
  · obtain ⟨k, hnext, -⟩ := Tree.drawn_eq w.trees.size s.next (Token.scan source)
    have hle : s.next.index ≤ (s.parse w.trees.size source).2.next.index := by
      rw [show (s.parse w.trees.size source).2.next = ⟨s.next.index + 1 + k⟩ from hnext]
      exact Nat.le_add_right_of_le (Nat.le_succ _)
    exact hw.kept hle hsessions rfl rfl rfl
  · obtain ⟨ht, hnext⟩ := Tree.numbered_ofTokens hr
    exact hw.push ht hnext hsessions rfl rfl rfl

theorem start {tree : Nat} (htree : tree < w.trees.size) :
    ∃ s', Resolves s' (w.start tree 0).2 := by
  have ht : w.trees[tree] ∈ w.trees := Array.getElem_mem htree
  obtain ⟨first, hnumbered⟩ := hw.numbered _ ht
  have hknows : (s.register w.trees[tree]).Knows w.trees[tree] := fun n hn =>
    Session.node?_register (fun m hm hid => hnumbered.unique hm hn hid) (.inl hn)
  have hknown : ∀ n, Known w.trees s n → Known w.trees (s.register w.trees[tree]) n := by
    rintro n ⟨u, hu, hk, hn⟩
    have hdistinct := hw.unique _ ht u hu
    exact ⟨u, hu, fun d hd => Session.node?_register (fun m hm => hdistinct m hm d hd)
      (.inr (hk d hd)), hn⟩
  refine ⟨s.register w.trees[tree], hw.numbered, hw.below, hw.unique, ?_⟩
  exact (hw.held.mono hknown).start (Array.getElem?_eq_getElem htree)
    ⟨_, ht, hknows, w.trees[tree].root_mem_nodes⟩ trivial

theorem stepper {act : Act} (hact : act.stepper? = some k) (hm : w.Moved act w') :
    ∃ s', Resolves s' w' := by
  have hstays : ∀ {s'}, w'.trees = w.trees → s'.next = s.next → s'.started = s.started →
      w'.Over (Known w.trees s) (fun _ _ => True) s' → Resolves s' w' := by
    intro s' htrees hnext hstarted hheld
    have hknown : Known w.trees s' = Known w.trees s := by
      funext n
      simp only [Known, Session.Knows, Session.node?, hstarted]
    constructor <;> rw [htrees]
    · exact hw.numbered
    · rw [hnext]
      exact hw.below
    · exact hw.unique
    · rwa [hknown]
  cases hm with
  | opened => cases hact
  | kept hkept =>
    obtain ⟨hsessions, htrees⟩ := hkept.rests k hact
    obtain ⟨s', hheld, -⟩ := hw.held.kept hkept fun hnone => by rw [hact] at hnone; cases hnone
    obtain ⟨-, rfl⟩ := hw.held.of_getElem? (i := 0) (by rw [← hsessions, hheld.sessions]; rfl)
    exact ⟨s, hstays htrees rfl rfl hheld⟩
  | goes _ hk hg heard =>
    obtain ⟨h', -, hheld⟩ := hw.held.put (stable_known w.trees s) hk hg heard
    exact ⟨{ s with heap := h' }, hstays (trees_put w _ _ heard) rfl rfl hheld⟩
  | evaluated hnone hs ht hg => rw [hact] at hnone; cases hnone
  | defined => cases hact

/-- **Whatever is done step by step**, the nodes that get values can be found. -/
theorem perform {act : Act} (hact : act.Stepped) : ∃ s', Resolves s' (w.perform act) := by
  cases act with
  | parse session source =>
    obtain rfl : session = 0 := hact
    exact hw.parse source
  | allocate session =>
    obtain rfl : session = 0 := hact
    refine ⟨s.allocate.2, ?_⟩
    rw [Workbench.perform, Workbench.allocate, hw.held.getD_sessions]
    exact hw.kept (Nat.le_succ _) (hw.held.set_sessions _) rfl rfl rfl
  | start tree session =>
    obtain rfl : session = 0 := hact
    rw [Workbench.perform]
    split
    · exact hw.start (And.left ‹_›)
    · exact ⟨s, hw⟩
  | change k heard => exact hw.stepper rfl (w.moved _)
  | advance k => exact hw.stepper rfl (w.moved _)
  | run k limit => exact hw.stepper rfl (w.moved _)
  | takeHeard k => exact hw.stepper rfl (w.moved _)
  | _ => exact hact.elim

theorem performAll {acts : List Act} (hacts : ∀ act ∈ acts, act.Stepped) :
    ∃ s', Resolves s' (w.performAll acts) :=
  performAll_keeps (I := fun w => ∃ s, Resolves s w)
    (fun _ _ hact ⟨_, hw⟩ => hw.perform hact) hacts ⟨s, hw⟩

/-- A stepper finds every known node by its number: in its own program, in which no other node has
this number, or else in the session. -/
theorem node?_eq (hk : w.stepper? k = some st) (hn : Known w.trees s n) :
    st.node? n.id = some n := by
  obtain ⟨b, t, session, hb, ht, hs, rfl⟩ := stepper?_eq_some.mp hk
  obtain ⟨rfl, -⟩ := hw.held.stepper hk
  obtain ⟨u, hu, hknows, hn⟩ := hn
  have ht := Array.mem_of_getElem? ht
  obtain ⟨first, hnumbered⟩ := hw.numbered t ht
  rw [Stepper.node?]
  rcases hm : t.node? n.id with _ | m
  · exact hknows n hn
  · obtain ⟨hm, hid⟩ := hnumbered.node?_eq_some.mp hm
    exact congrArg some (hw.unique t ht u hu m hm n hn hid)

end Resolves

/-- **The nodes that get values are found by their numbers**, in whatever order the steppers of a
session are advanced, even in the bodies of closures that other programs defined. -/
theorem suspended_resolves {acts : List Act} (hacts : ∀ act ∈ acts, act.Stepped)
    (ha : (Workbench.new.performAll acts).advance k = some (.suspended n v, w')) :
    ∃ st, w'.stepper? k = some st ∧ st.snapshot.current = some (n, some v) ∧
      st.node? n.id = some n ∧ st.result? n.id = some v := by
  obtain ⟨s, hw⟩ := Resolves.new.performAll hacts
  obtain ⟨b, hb, ha⟩ := Option.bind_eq_some_iff.mp ha
  obtain ⟨st, hk, ha⟩ := Option.bind_eq_some_iff.mp ha
  obtain ⟨hanswer, rfl⟩ := Prod.mk.inj (Option.some.inj ha)
  obtain ⟨rfl, hm⟩ := hw.held.stepper hk
  rw [st.advance_eq.1] at hanswer
  obtain ⟨hlog, hcurrent⟩ := suspended_advance hanswer
  -- the node comes from the programs that are known, and is found as it was before
  obtain ⟨-, -, hknown⟩ := (goes_advance st.session.heap st.machine).over
    (stable_known _ _) hm hw.held.heap
  have hnode : st.node? n.id = some n :=
    hw.node?_eq hk (hknown (n, v) (hlog ▸ List.mem_singleton_self _)).1
  have hresult : (st.results.recordAll [(n, v)]).of? n = some v := by
    rw [Results.of?_recordAll, latest?, List.find?_singleton, if_pos (beq_self_eq_true _)]
    rfl
  rw [st.advance_eq.2, hlog]
  refine ⟨_, stepper?_put hk _ _ _ _, ?_, hnode, ?_⟩
  · exact (congrArg (Option.map _) hcurrent).trans (congrArg (fun r => some (n, r)) hresult)
  · exact (congrArg (Option.bind · _) hnode).trans hresult

/-- The second program calls the closure that the first one has defined, and its stepper pauses at
the body of this closure. -/
theorem suspended_resolves_closure : ∃ acts n v w', (∀ act ∈ acts, act.Stepped) ∧
    (Workbench.new.performAll acts).advance 1 = some (.suspended n v, w') ∧ n.place.tree = 0 ∧
    ∃ st, w'.stepper? 1 = some st ∧ st.node? n.id = some n := by
  let acts : List Act := [.parse 0 "(define f (lambda () ()))", .start 0 0, .advance 0, .advance 0,
    .parse 0 "(f)", .start 1 0, .change 1 [], .change 1 [], .change 1 [], .advance 1, .change 1 [],
    .change 1 []]
  have hacts : ∀ act ∈ acts, act.Stepped := by simp [acts, Act.Stepped]
  have htree : ((Workbench.new.performAll acts).advance 1).map (fun a =>
      a.1.node?.map fun n => n.place.tree) = some (some 0) := by
    cbv
  obtain ⟨⟨answer, w'⟩, ha, htree⟩ := Option.map_eq_some_iff.mp htree
  cases answer with
  | suspended n v =>
    obtain ⟨st, hk, -, hnode, -⟩ := suspended_resolves hacts ha
    exact ⟨acts, n, v, w', hacts, ha, Option.some.inj htree, st, hk, hnode⟩
  | done v => cases htree
  | failed f => cases htree

end Workbench

end StepLisp
