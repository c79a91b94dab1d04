import StepLisp.Proofs.Episodes

/-!
# The pending work as a context

Read from the bottom, the pending work is the way from the root of a program down to the node that
is looked at: whatever a piece of work waits for stands directly on it, as the annotation of the
node, or at the top as the node itself.

* `Upon`, the node that stands on a piece of work, and `Pending.Sits`, what a piece of work may
  stand on and what may stand on it;
* `InContext`, pending work that is so at every place, with `InContext.cons`;
* **`Before.inContext`**: what was heard before a node was looked at makes a context;
* `Overheard.told`: what is heard of a stepper fits what its machine does next, and names the
  current node;
* **`Stepper.pending_inContext`**: the pending work of a stepper is one, from its start on, and
  every stepper of a workbench was started once.
-/

namespace StepLisp

open Episode

/-! ## One piece of work -/

/-- The piece of work notes the value of the node. -/
def Pending.Marks (p : Pending) (n : Node) : Prop := p = .annotate n

/-- The node `n` stands on a piece of work with the work `above` above it: the next work notes the
value of `n`, and if there is none, `n` is at the top. -/
def Upon (top : Node → Prop) (above : List Pending) (n : Node) : Prop :=
  above.getLast?.elim (top n) (·.Marks n)

theorem upon_cons {top : Node → Prop} {p : Pending} {above : List Pending} {n : Node} :
    Upon top (p :: above) n ↔ Upon p.Marks above n := by
  rw [Upon, Upon, List.getLast?_cons]
  cases above.getLast? <;> rfl

theorem Upon.imp {top top' : Node → Prop} {above : List Pending} {n : Node} (hn : Upon top above n)
    (htop : ∀ n, top n → top' n) : Upon top' above n := by
  unfold Upon at hn ⊢
  cases ha : above.getLast? with
  | none =>
    rw [ha] at hn
    exact htop n hn
  | some p => rwa [ha] at hn

/-- **What a piece of work stands on, and what stands on it**, when the events were heard: all but
an annotation stand on that of a node with the right form, and the node is the part of it that
is evaluated next. -/
inductive Pending.Sits (es : List Event) : Pending → List Pending → Node → Prop where
  | branch {n c a b : Node} {s : FrameId} {below : List Pending}
      (hf : Form.ofNode n = .ok (.conditional c a b)) :
      Sits es (.branch a b s) (.annotate n :: below) c
  | define {n b : Node} {x : String} {s : FrameId} {below : List Pending}
      (hf : Form.ofNode n = .ok (.definition x b)) : Sits es (.define x s) (.annotate n :: below) b
  /-- The values are those of the children before. -/
  | collect {n child : Node} {vs : List Value} {parts : List Episode} {s : FrameId}
      {below : List Pending} (hf : Form.ofNode n = .ok (.application n.children))
      (hlt : vs.length < n.children.length) (hn : n.children[vs.length] = child)
      (hvs : parts.map value = vs) (hparts : parts.map node = n.children.take vs.length)
      (hp : ∀ p ∈ parts, p.Whole) (hes : heard parts <:+: es) :
      Sits es (.collect n vs s) (.annotate n :: below) child
  /-- The closure is the value of the first child, and it was entered after all children. -/
  | leave {n : Node} {parts : List Episode} {c : Closure} {args : List Value} {f : FrameId}
      {below : List Pending} (hf : Form.ofNode n = .ok (.application (parts.map node)))
      (hp : ∀ p ∈ parts, p.Whole) (ha : apply (parts.map value) = .ok (.enter c args))
      (hes : heard parts ++ [Event.entered f] <:+: es) :
      Sits es (.leave f) (.annotate n :: below) c.body
  /-- Directly on its annotation, a conditional has the branch that was taken. -/
  | annotate {n c a b : Node} {u : Value} {fs : List Event} {below : List Pending}
      (hf : Form.ofNode n = .ok (.conditional c a b)) (hc : Whole ⟨c, u, fs⟩) (hes : fs <:+: es) :
      Sits es (.annotate n) below (if u.isTruthy then a else b)

theorem Pending.Sits.append {es : List Event} {p : Pending} {below : List Pending} {n : Node}
    (hp : p.Sits es below n) (fs : List Event) : p.Sits (es ++ fs) below n := by
  have hmore : es <:+: es ++ fs := (List.prefix_append es fs).isInfix
  cases hp with
  | branch hf => exact .branch hf
  | define hf => exact .define hf
  | collect hf hlt hn hvs hparts hp hes =>
    exact .collect hf hlt hn hvs hparts hp (hes.trans hmore)
  | leave hf hp ha hes => exact .leave hf hp ha (hes.trans hmore)
  | annotate hf hc hes => exact .annotate hf hc (hes.trans hmore)

/-! ## All of the work -/

/-- **The pending work is a context** in an evaluation of `root`, where nodes are at its top that
are looked at, or else have just got their values. -/
structure InContext (root : Node) (es : List Event) (looks heeds : Node → Prop)
    (pending : List Pending) : Prop where
  /-- At the bottom there is the root. -/
  root : ∀ n, Upon looks pending n → n = root
  work : ∀ above p below, pending = above ++ p :: below → (∀ n, p ≠ .annotate n) →
    ∃ n, Upon heeds above n ∧ p.Sits es below n
  annotation : ∀ above n below b, pending = above ++ .annotate n :: below → Upon looks above b →
    Pending.Sits es (.annotate n) below b

namespace InContext

variable {root : Node} {es : List Event} {looks heeds looks' heeds' : Node → Prop} {p : Pending}
  {n : Node} {pending rest : List Pending}

theorem nil (hroot : ∀ n, looks n → n = root) : InContext root es looks heeds [] where
  root := hroot
  work := by simp
  annotation := by simp

theorem cons (hrest : InContext root es p.Marks p.Marks rest)
    (hwork : (∀ n, p ≠ .annotate n) → ∃ n, heeds n ∧ p.Sits es rest n)
    (hmark : ∀ n b, p = .annotate n → looks b → p.Sits es rest b) :
    InContext root es looks heeds (p :: rest) where
  root := fun n hn => hrest.root n (upon_cons.mp hn)
  work := by
    rintro (_ | ⟨q, above⟩) r below heq hr
    · obtain ⟨rfl, rfl⟩ := List.cons.inj heq
      exact hwork hr
    · obtain ⟨rfl, rfl⟩ := List.cons.inj heq
      obtain ⟨n, hn, hsits⟩ := hrest.work above r below rfl hr
      exact ⟨n, upon_cons.mpr hn, hsits⟩
  annotation := by
    rintro (_ | ⟨q, above⟩) n below b heq hb
    · obtain ⟨rfl, rfl⟩ := List.cons.inj heq
      exact hmark n b rfl hb
    · obtain ⟨rfl, rfl⟩ := List.cons.inj heq
      exact hrest.annotation above n below b rfl (upon_cons.mp hb)

theorem imp (hp : InContext root es looks heeds pending) (hlooks : ∀ n, looks' n → looks n)
    (hheeds : ∀ n, heeds n → heeds' n) : InContext root es looks' heeds' pending where
  root := fun n hn => hp.root n (hn.imp hlooks)
  work := by
    intro above p below heq hne
    obtain ⟨n, hn, hsits⟩ := hp.work above p below heq hne
    exact ⟨n, hn.imp hheeds, hsits⟩
  annotation := fun above n below b heq hb => hp.annotation above n below b heq (hb.imp hlooks)

theorem append (hp : InContext root es looks heeds pending) (fs : List Event) :
    InContext root (es ++ fs) looks heeds pending where
  root := hp.root
  work := by
    intro above p below heq hne
    obtain ⟨n, hn, hsits⟩ := hp.work above p below heq hne
    exact ⟨n, hn, hsits.append fs⟩
  annotation := fun above n below b heq hb => (hp.annotation above n below b heq hb).append fs

theorem annotate
    (hrest : InContext root es (Pending.annotate n).Marks (Pending.annotate n).Marks rest)
    (hlooks : ∀ b, ¬ looks b) : InContext root es looks heeds (.annotate n :: rest) :=
  hrest.cons (fun hne => absurd rfl (hne n)) fun _ b _ hb => absurd hb (hlooks b)

theorem push
    (hrest : InContext root es (Pending.annotate n).Marks (Pending.annotate n).Marks rest)
    (hp : ∀ n, p ≠ .annotate n) {b : Node} (hs : p.Sits es (.annotate n :: rest) b) :
    InContext root es (Pending.annotate b).Marks (Pending.annotate b).Marks
      (p :: .annotate n :: rest) :=
  (hrest.annotate hp).cons (fun _ => ⟨b, rfl, hs⟩) fun n _ heq => absurd heq (hp n)

end InContext

/-- **What was heard before a node was looked at makes a context** of the pending work. -/
theorem Before.inContext {root n : Node} {es : List Event} {pending : List Pending}
    (hb : Before root es n pending) :
    InContext root es (Pending.annotate n).Marks (Pending.annotate n).Marks pending := by
  induction hb with
  | root =>
    refine .nil fun n hn => ?_
    cases hn
    rfl
  | condition hf h ih => exact ih.push (by simp) (.branch hf)
  | @taken es fs n c a b u rest hf h hc ih =>
    refine (ih.append fs).cons (fun hne => absurd rfl (hne n)) ?_
    rintro _ _ ⟨⟩ ⟨⟩
    exact .annotate hf hc (List.suffix_append es fs).isInfix
  | defined hf h ih => exact ih.push (by simp) (.define hf)
  | @part es n child parts more s rest hf h hp ih =>
    have hn := Form.ofNode_eq_application hf
    refine (ih.append (heard parts)).push (by simp) (.collect (hn ▸ hf) ?_ ?_ rfl ?_ hp ?_)
    · simp [hn]
    · simp [hn]
    · simp [hn]
    · exact (List.suffix_append es (heard parts)).isInfix
  | @body es n parts c args rest f hf h hp ha ih =>
    rw [List.append_assoc]
    exact (ih.append _).push (by simp) (.leave hf hp ha (List.suffix_append es _).isInfix)

/-! ## The work of a machine -/

namespace Machine

variable {h h' : Heap} {m m' : Machine} {e : Option Event} {a : Answer} {es : List Event}

/-- The node is looked at. -/
def Looks (m : Machine) (n : Node) : Prop := ∃ s, m.control = .evaluate n s

/-- The node is looked at, or it has got its value last and this is handed on. -/
def Heeds (m : Machine) (n : Node) : Prop :=
  m.Looks n ∨ (∃ v, m.control = .deliver v) ∧ m.current = some n

theorem Change.current_eq (hm : Change h m e h' m') :
    m'.current = ((suspensions e.toList).getLast?.map (·.1)).or m.current := by
  rcases silent_or_suspended e with he | ⟨n, v, rfl⟩
  · rw [show suspensions e.toList = [] from he]
    exact hm.current_of_silent he
  · cases hm
    rfl

theorem Stop.current_eq (hs : Stop h m a m') : m'.current = m.current := by
  cases hs <;> rfl

theorem Told.inContext (hm : m.Told es)
    (hcurrent : m.current = (suspensions es).getLast?.map (·.1)) :
    InContext m.root es m.Looks m.Heeds m.pending := by
  have hnot : (∀ n s, m.control ≠ .evaluate n s) → ∀ n, ¬ m.Looks n :=
    fun hc n ⟨s, hn⟩ => hc n s hn
  cases hm with
  | @valued n v rest es fs hc hp hb hw =>
    rw [hp]
    exact (hb.inContext.append fs).annotate (hnot (by simp [hc]))
  | rests hm =>
    cases hm with
    | @evaluating n s es hc hb =>
      refine hb.inContext.imp ?_ ?_
      · rintro b ⟨s', hb⟩
        cases hc.symm.trans hb
        rfl
      · rintro _ ⟨⟩
        exact .inl ⟨s, hc⟩
    | @paused n v es fs hc hb hw =>
      obtain ⟨gs, hfs⟩ := hw.events_eq
      obtain rfl : fs = gs ++ [Event.suspended n v] := hfs
      refine (hb.inContext.append _).imp (fun b hb => absurd hb (hnot (by simp [hc]) b)) ?_
      rintro _ ⟨⟩
      refine .inr ⟨⟨v, hc⟩, ?_⟩
      simp [hcurrent]
    | finished hc hp hw =>
      rw [hp]
      exact .nil fun n hn => absurd hn (hnot (by simp [hc]) n)
    | @halted f rest es fs hc hp hb hf =>
      rw [hp]
      exact (hb.inContext.append fs).annotate (hnot (by simp [hc]))

end Machine

/-! ## Steppers -/

namespace Stepper

open Machine

/-- **What is heard fits what the machine does next**, and the node that was heard of last is the
current one. -/
theorem Overheard.told {t : Tree} {session : Session} {r : Results} {es : List Event} {s : Stepper}
    (hs : (Stepper.start t session r).Overheard es s) :
    s.machine.root = t.root ∧ s.machine.Told es ∧
      s.machine.current = (suspensions es).getLast?.map (·.1) := by
  induction hs with
  | start => exact ⟨rfl, .rests (rests_start _ _ _), rfl⟩
  | @change es s _ e h' m' hm ih =>
    obtain ⟨hroot, htold, hcurrent⟩ := ih
    refine ⟨?_, htold.change hm, ?_⟩
    · exact hm.root_eq.trans hroot
    · rw [suspensions_append, List.getLast?_append, Option.map_or, ← hcurrent]
      exact hm.current_eq
  | @stop es s _ a m' hm ih =>
    obtain ⟨hroot, htold, hcurrent⟩ := ih
    exact ⟨hm.root_eq.trans hroot, .rests (htold.stop hm), hm.current_eq.trans hcurrent⟩
  | meanwhile _ hl r ih => exact ih

/-- **The pending work is a context** of the node that is looked at, at every moment of a stepper:
every piece of work stands on the annotation of its node, directly below the annotation of the node
that it waits for, with the root at the bottom. -/
theorem pending_inContext :
    (∀ (t : Tree) (session : Session) (r : Results) (es : List Event) (s : Stepper),
      (Stepper.start t session r).Overheard es s →
      InContext t.root es s.machine.Looks s.machine.Heeds s.machine.pending) ∧
    ∀ (w : Workbench) (k : Nat) (s : Stepper), w.Reachable → w.stepper? k = some s → s.Started := by
  refine ⟨fun t session r es s hs => ?_, fun w k s hw hk => hw.started hk⟩
  obtain ⟨hroot, htold, hcurrent⟩ := hs.told
  exact hroot ▸ htold.inContext hcurrent

/-- In the call that the program `((lambda (x) x) ())` consists of, the node that is looked at is
the body of a closure that was called, and the node of the call is the first child of the root. -/
theorem pending_inContext_identityCall : ∃ (w : Workbench) (s : Stepper) (call : Node)
    (c : Closure) (parts : List Episode) (args : List Value), w.Reachable ∧
    w.stepper? 0 = some s ∧ s.machine.pending =
      [.leave ⟨2⟩, .annotate call, .collect s.tree.root [] ⟨1⟩, .annotate s.tree.root] ∧
    s.machine.Looks c.body ∧ (∀ p ∈ parts, p.Whole) ∧
    apply (parts.map value) = .ok (.enter c args) ∧ s.tree.root.children[0]? = some call := by
  have hw : (Workbench.start { Workbench.new with trees := #[.identityCall] } 0 0).2.Reachable :=
    ⟨[.program .identityCall, .start 0 0], rfl⟩
  have hrun : ∃ k es h' m' call n, Runs k Session.new.heap
      (.start Tree.identityCall.root Session.new.library Session.new.global) es h' m' ∧
      m'.control = .evaluate n ⟨2⟩ ∧ m'.pending = [.leave ⟨2⟩, .annotate call,
        .collect Tree.identityCall.root [] ⟨1⟩, .annotate Tree.identityCall.root] :=
    ⟨_, _, _, _, _, _, .step (.opened rfl (.application rfl)) <|
      .step (.opened rfl (.application rfl)) <| .step (.value rfl (.abstraction rfl)) <|
      .step (.suspend rfl rfl) <| .step (.collect rfl rfl rfl) <| .step (.value rfl (.empty rfl)) <|
      .step (.suspend rfl rfl) <| .step (.enter rfl rfl rfl rfl) .refl, rfl, rfl⟩
  obtain ⟨k, es, h', m', call, n, hr, hc, hp⟩ := hrun
  obtain ⟨w, r, hw, hk⟩ := hw.runs (k := 0) (s := Stepper.start .identityCall .new ∅) rfl hr
  obtain ⟨session, r₀, es₀, hs⟩ := pending_inContext.2 w 0 _ hw hk
  have hcontext := pending_inContext.1 _ _ _ _ _ hs
  obtain ⟨body, hbody, hleave⟩ := hcontext.work [] (.leave ⟨2⟩) _ hp (by simp)
  obtain ⟨child, hchild, hcollect⟩ :=
    hcontext.work [.leave ⟨2⟩, .annotate call] (.collect _ [] ⟨1⟩) _ hp (by simp)
  cases hleave with
  | leave hf hparts ha =>
    cases hchild
    cases hcollect with
    | collect hf' hlt hn =>
      refine ⟨w, _, call, _, _, _, hw, hk, hp, ?_, hparts, ha, ?_⟩
      · refine hbody.resolve_right ?_
        rintro ⟨⟨v, hv⟩, -⟩
        cases hc.symm.trans hv
      · exact List.getElem?_eq_some_iff.mpr ⟨hlt, hn⟩

end Stepper

end StepLisp
