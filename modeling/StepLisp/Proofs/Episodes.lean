import StepLisp.Proofs.Answered
import StepLisp.Proofs.Protocol

/-!
# The grammar of the events

What is heard of one evaluation of a node has the shape of the evaluation: first what is heard of
the parts that are evaluated, in their order, then the value of the node. A call is heard as the
frame that is entered, what is heard of the body, and the frame that is left.

* `Episode`, one evaluation with what is heard of it, and **`Episode.Whole`**, the grammar;
* `Before`, what was heard of until a node is looked at, given the pending work that waits for it;
* `Fault.Told`, what was heard of the node of a fault until then;
* `Machine.Told`, the invariant between a machine and what was heard of it, with **`Told.change`**,
  `Told.stop` and `Told.failed`, and `Machine.Rests`, the same behind an answer, with
  **`Told.advance`** and `Told.advance_suspended`;
* `Stepper.Heard`, what is heard of a stepper, whatever happens to its session between two advances,
  with **`Stepper.Heard.telling`**.
-/

namespace StepLisp

/-- One evaluation of a node: its value, and the events that are heard of on the way. -/
structure Episode where
  node : Node
  value : Value
  events : List Event

/-- The form has its value without another node being evaluated. -/
def Form.IsSimple : Form → Prop
  | .number _ => True
  | .identifier _ => True
  | .abstraction _ _ => True
  | _ => False

namespace Episode

/-- What is heard of some evaluations, one after the other. -/
def heard (parts : List Episode) : List Event := parts.flatMap events

/-- **The grammar of an episode**, from the first look at the node up to its value. -/
inductive Whole : Episode → Prop where
  | simple {n : Node} {f : Form} (hf : Form.ofNode n = .ok f) (hs : f.IsSimple) (v : Value) :
      Whole ⟨n, v, [Event.suspended n v]⟩
  | conditional {n c a b : Node} {u v : Value} {es fs : List Event}
      (hf : Form.ofNode n = .ok (.conditional c a b)) (hc : Whole ⟨c, u, es⟩)
      (hb : Whole ⟨if u.isTruthy then a else b, v, fs⟩) :
      Whole ⟨n, v, es ++ fs ++ [Event.suspended n v]⟩
  | definition {n b : Node} {x : String} {u : Value} {es : List Event}
      (hf : Form.ofNode n = .ok (.definition x b)) (hb : Whole ⟨b, u, es⟩) :
      Whole ⟨n, .void, es ++ [Event.suspended n .void]⟩
  | application {n : Node} {parts : List Episode} {v : Value}
      (hf : Form.ofNode n = .ok (.application (parts.map node))) (hp : ∀ p ∈ parts, Whole p)
      (ha : apply (parts.map value) = .ok (.value v)) :
      Whole ⟨n, v, heard parts ++ [Event.suspended n v]⟩
  | call {n : Node} {parts : List Episode} {c : Closure} {args : List Value} {v : Value}
      {fs : List Event} (f : FrameId) (hf : Form.ofNode n = .ok (.application (parts.map node)))
      (hp : ∀ p ∈ parts, Whole p) (ha : apply (parts.map value) = .ok (.enter c args))
      (hb : Whole ⟨c.body, v, fs⟩) :
      Whole ⟨n, v,
        heard parts ++ [Event.entered f] ++ fs ++ [Event.left f] ++ [Event.suspended n v]⟩

variable {p q : Episode} {parts : List Episode}

theorem heard_concat (parts : List Episode) (p : Episode) :
    heard (parts ++ [p]) = heard parts ++ p.events := by
  simp [heard]

theorem Whole.events_eq (hp : p.Whole) :
    ∃ es, p.events = es ++ [Event.suspended p.node p.value] := by
  cases hp with
  | simple => exact ⟨[], rfl⟩
  | conditional => exact ⟨_, rfl⟩
  | definition => exact ⟨_, rfl⟩
  | application => exact ⟨_, rfl⟩
  | call f => exact ⟨_, rfl⟩

theorem Whole.ofNode_eq (hp : p.Whole) : ∃ f, Form.ofNode p.node = .ok f := by
  cases hp with
  | simple hf => exact ⟨_, hf⟩
  | conditional hf => exact ⟨_, hf⟩
  | definition hf => exact ⟨_, hf⟩
  | application hf => exact ⟨_, hf⟩
  | call f hf => exact ⟨_, hf⟩

theorem forall_whole_concat (hparts : ∀ p ∈ parts, p.Whole) (hq : q.Whole) :
    ∀ p ∈ parts ++ [q], p.Whole := by
  intro p hp
  rcases List.mem_append.mp hp with hp | hp
  · exact hparts p hp
  · rw [List.mem_singleton.mp hp]
    exact hq

end Episode

open Episode

/-- In an evaluation of `root`, the events were heard of before the node is looked at, with the work
that waits for its value. -/
inductive Before (root : Node) : List Event → Node → List Pending → Prop where
  | root : Before root [] root []
  | condition {es : List Event} {n c a b : Node} {s : FrameId} {rest : List Pending}
      (hf : Form.ofNode n = .ok (.conditional c a b)) (h : Before root es n rest) :
      Before root es c (.branch a b s :: .annotate n :: rest)
  | taken {es fs : List Event} {n c a b : Node} {u : Value} {rest : List Pending}
      (hf : Form.ofNode n = .ok (.conditional c a b)) (h : Before root es n rest)
      (hc : Whole ⟨c, u, fs⟩) :
      Before root (es ++ fs) (if u.isTruthy then a else b) (.annotate n :: rest)
  | defined {es : List Event} {n b : Node} {x : String} {s : FrameId} {rest : List Pending}
      (hf : Form.ofNode n = .ok (.definition x b)) (h : Before root es n rest) :
      Before root es b (.define x s :: .annotate n :: rest)
  | part {es : List Event} {n child : Node} {parts : List Episode} {more : List Node}
      {s : FrameId} {rest : List Pending}
      (hf : Form.ofNode n = .ok (.application (parts.map node ++ child :: more)))
      (h : Before root es n rest) (hp : ∀ p ∈ parts, p.Whole) :
      Before root (es ++ heard parts) child
        (.collect n (parts.map value) s :: .annotate n :: rest)
  | body {es : List Event} {n : Node} {parts : List Episode} {c : Closure} {args : List Value}
      {rest : List Pending} (f : FrameId)
      (hf : Form.ofNode n = .ok (.application (parts.map node))) (h : Before root es n rest)
      (hp : ∀ p ∈ parts, p.Whole) (ha : apply (parts.map value) = .ok (.enter c args)) :
      Before root (es ++ heard parts ++ [Event.entered f]) c.body (.leave f :: .annotate n :: rest)

/-- What was heard of the node of a fault since it was looked at: nothing but its parts. -/
inductive Fault.Told : Fault → List Event → Prop where
  | malformed {n : Node} {e : Malformed} (hf : Form.ofNode n = .error e) :
      Told ⟨.malformed e, n⟩ []
  | unbound {n : Node} {x : String} (hf : Form.ofNode n = .ok (.identifier x)) :
      Told ⟨.unbound x, n⟩ []
  | refused {n : Node} {parts : List Episode} {cause : Cause}
      (hf : Form.ofNode n = .ok (.application (parts.map Episode.node)))
      (hp : ∀ p ∈ parts, p.Whole) (ha : apply (parts.map value) = .error cause) :
      Told ⟨cause, n⟩ (heard parts)

namespace Machine

variable {h h' : Heap} {m m' : Machine} {e : Option Event} {a : Answer} {es : List Event}
  {n : Node} {s : FrameId} {v : Value} {p : Pending} {rest : List Pending} {f : Fault}

/-- What was heard of a machine fits what it does next, and every value that is told of has got to
its node. -/
inductive Rests (m : Machine) : List Event → Prop where
  | evaluating {n : Node} {s : FrameId} {es : List Event} (hc : m.control = .evaluate n s)
      (hb : Before m.root es n m.pending) : Rests m es
  /-- The node `n` has got the value. -/
  | paused {n : Node} {v : Value} {es fs : List Event} (hc : m.control = .deliver v)
      (hb : Before m.root es n m.pending) (hw : Whole ⟨n, v, fs⟩) : Rests m (es ++ fs)
  | finished {v : Value} {es : List Event} (hc : m.control = .finished v) (hp : m.pending = [])
      (hw : Whole ⟨m.root, v, es⟩) : Rests m es
  | halted {f : Fault} {rest : List Pending} {es fs : List Event} (hc : m.control = .halted)
      (hp : m.pending = .annotate f.node :: rest) (hb : Before m.root es f.node rest)
      (hf : f.Told fs) : Rests m (es ++ fs)

/-- **What was heard of a machine fits what it does next.** -/
inductive Told (m : Machine) : List Event → Prop where
  | rests {es : List Event} (hm : m.Rests es) : Told m es
  /-- The node `n` is about to get the value. -/
  | valued {n : Node} {v : Value} {rest : List Pending} {es fs : List Event}
      (hc : m.control = .deliver v) (hp : m.pending = .annotate n :: rest)
      (hb : Before m.root es n rest) (hw : Whole ⟨n, v, fs ++ [Event.suspended n v]⟩) :
      Told m (es ++ fs)

theorem rests_start (root : Node) (library global : FrameId) :
    (Machine.start root library global).Rests [] :=
  .evaluating rfl .root

namespace Told

theorem evaluating (hc : m.control = .evaluate n s) (hb : Before m.root es n m.pending) :
    m.Told es := .rests (.evaluating hc hb)

theorem evaluate (hm : m.Told es) (hc : m.control = .evaluate n s) :
    Before m.root es n m.pending := by
  cases hm with
  | valued hc' => cases hc.symm.trans hc'
  | rests hm =>
    cases hm with
    | evaluating hc' hb =>
      cases hc.symm.trans hc'
      exact hb
    | _ hc' => cases hc.symm.trans hc'

theorem deliver (hm : m.Told es) (hc : m.control = .deliver v) (hp : m.pending = p :: rest)
    (hne : ∀ n, p ≠ .annotate n) :
    ∃ n before fs, Before m.root before n (p :: rest) ∧ Whole ⟨n, v, fs⟩ ∧ es = before ++ fs := by
  cases hm with
  | valued hc' hp' => exact absurd (List.cons.inj (hp.symm.trans hp')).1 (hne _)
  | rests hm =>
    cases hm with
    | paused hc' hb hw =>
      cases hc.symm.trans hc'
      exact ⟨_, _, _, hp ▸ hb, hw, rfl⟩
    | _ hc' => cases hc.symm.trans hc'

theorem collected {vs : List Value} (hm : m.Told es) (hc : m.control = .deliver v)
    (hp : m.pending = .collect n vs s :: rest) :
    ∃ before parts more rest', parts.map value = vs ++ [v] ∧ rest = .annotate n :: rest' ∧
      Form.ofNode n = .ok (.application (parts.map node ++ more)) ∧
      n.children[(vs ++ [v]).length]? = more.head? ∧ Before m.root before n rest' ∧
      (∀ p ∈ parts, p.Whole) ∧ es = before ++ heard parts := by
  obtain ⟨child, before, fs, hb, hw, rfl⟩ := hm.deliver hc hp nofun
  cases hb with
  | @part before _ _ parts more _ rest' hf hb hparts =>
    refine ⟨before, parts ++ [⟨child, v, fs⟩], more, rest', ?_, rfl, ?_, ?_, hb,
      forall_whole_concat hparts hw, ?_⟩
    · rw [List.map_append]
      rfl
    · rw [List.map_append, List.append_assoc]
      exact hf
    · rw [Form.ofNode_eq_application hf]
      cases more <;> simp
    · rw [heard_concat, List.append_assoc]

theorem annotate (hm : m.Told es) (hc : m.control = .deliver v)
    (hp : m.pending = .annotate n :: rest) :
    ∃ before fs, Before m.root before n rest ∧ Whole ⟨n, v, fs ++ [Event.suspended n v]⟩ ∧
      es = before ++ fs := by
  cases hm with
  | valued hc' hp' hb hw =>
    cases hc.symm.trans hc'
    cases hp.symm.trans hp'
    exact ⟨_, _, hb, hw, rfl⟩
  | rests hm =>
    cases hm with
    | paused hc' hb hw =>
      cases hc.symm.trans hc'
      rw [hp] at hb
      cases hb with
      | taken hf hb hcond => exact ⟨_, _, hb, .conditional hf hcond hw, List.append_assoc _ _ _⟩
    | _ hc' => cases hc.symm.trans hc'

/-- **What is heard keeps to the grammar, with every change.** -/
theorem change (hm : m.Told es) (hchange : Change h m e h' m') : m'.Told (es ++ e.toList) := by
  cases hchange with
  | @value n _ _ _ hc hi =>
    have hb := hm.evaluate hc
    refine .valued rfl rfl hb ?_
    cases hi with
    | number hf => exact .simple hf trivial _
    | identifier hf hv => exact .simple hf trivial _
    | abstraction hf => exact .simple hf trivial _
    | empty hf => exact @Whole.application n [] _ hf nofun rfl
  | @opened _ _ s _ hc ho =>
    have hb := hm.evaluate hc
    rw [Option.toList_none, List.append_nil]
    cases ho with
    | condition hf => exact .evaluating rfl (.condition hf hb)
    | definition hf => exact .evaluating rfl (.defined hf hb)
    | application hf =>
      have hpart := @Before.part _ _ _ _ [] _ s _ hf hb nofun
      rw [show heard [] = [] from rfl, List.append_nil] at hpart
      exact .evaluating rfl hpart
  | branch hc hp =>
    obtain ⟨n, before, fs, hb, hw, rfl⟩ := hm.deliver hc hp nofun
    rw [Option.toList_none, List.append_nil]
    cases hb with
    | condition hf hb => exact .evaluating rfl (.taken hf hb hw)
  | define hc hp =>
    obtain ⟨n, before, fs, hb, hw, rfl⟩ := hm.deliver hc hp nofun
    rw [Option.toList_none, List.append_nil]
    cases hb with
    | defined hf hb => exact .valued rfl rfl hb (.definition hf hw)
  | collect hc hp hn =>
    obtain ⟨before, parts, more, rest, hvs, rfl, hf, hmore, hb, hparts, rfl⟩ := hm.collected hc hp
    rw [Option.toList_none, List.append_nil, ← hvs]
    obtain ⟨more, rfl⟩ := List.head?_eq_some_iff.mp (hmore.symm.trans hn)
    exact .evaluating rfl (.part hf hb hparts)
  | apply hc hp hn ha =>
    obtain ⟨before, parts, more, rest, hvs, rfl, hf, hmore, hb, hparts, rfl⟩ := hm.collected hc hp
    rw [List.head?_eq_none_iff.mp (hmore.symm.trans hn), List.append_nil] at hf
    rw [Option.toList_none, List.append_nil]
    exact .valued rfl rfl hb (.application hf hparts (hvs ▸ ha))
  | enter hc hp hn ha =>
    obtain ⟨before, parts, more, rest, hvs, rfl, hf, hmore, hb, hparts, rfl⟩ := hm.collected hc hp
    rw [List.head?_eq_none_iff.mp (hmore.symm.trans hn), List.append_nil] at hf
    exact .evaluating rfl (.body _ hf hb hparts (hvs ▸ ha))
  | @leave _ frame _ hc hp =>
    obtain ⟨n, before, fs, hb, hw, rfl⟩ := hm.deliver hc hp nofun
    cases hb with
    | body _ hf hb hparts ha =>
      have hcall := Whole.call frame hf hparts ha hw
      refine (congrArg (Told _) ?_).mp (.valued rfl rfl hb hcall)
      simp only [List.append_assoc, Option.toList_some]
  | suspend hc hp =>
    obtain ⟨before, fs, hb, hw, rfl⟩ := hm.annotate hc hp
    rw [List.append_assoc]
    exact .rests (.paused rfl hb hw)
  | finish hc hp =>
    rw [Option.toList_none, List.append_nil]
    cases hm with
    | valued hc' hp' => cases hp.symm.trans hp'
    | rests hm =>
      cases hm with
      | paused hc' hb hw =>
        rw [hp] at hb
        cases hc.symm.trans hc'
        cases hb
        exact .rests (.finished rfl hp hw)
      | _ hc' => cases hc.symm.trans hc'

/-- **A fault is told of the node that is looked at**, or of one all parts of which were
evaluated. -/
theorem failed (hm : m.Told es) (hs : Stop h m (.failed f) m') (hf : f.cause ≠ .halted) :
    m'.control = .halted ∧ ∃ before fs rest, m'.pending = .annotate f.node :: rest ∧
      Before m.root before f.node rest ∧ f.Told fs ∧ es = before ++ fs := by
  cases hs with
  | halted hc => exact absurd rfl hf
  | malformed hc hform =>
    exact ⟨rfl, es, [], _, rfl, hm.evaluate hc, .malformed hform, (List.append_nil es).symm⟩
  | unbound hc hform hv =>
    exact ⟨rfl, es, [], _, rfl, hm.evaluate hc, .unbound hform, (List.append_nil es).symm⟩
  | refused hc hp hn ha =>
    obtain ⟨before, parts, more, rest, hvs, rfl, hform, hmore, hb, hparts, rfl⟩ :=
      hm.collected hc hp
    rw [List.head?_eq_none_iff.mp (hmore.symm.trans hn), List.append_nil] at hform
    exact ⟨rfl, before, heard parts, rest, rfl, hb, .refused hform hparts (hvs ▸ ha), rfl⟩

theorem stopped (hm : m.Told es) (hc : (∃ v, m.control = .finished v) ∨ m.control = .halted) :
    m.Rests es := by
  cases hm with
  | rests hm => exact hm
  | valued hc' =>
    rcases hc with ⟨v, hc⟩ | hc
    · cases hc.symm.trans hc'
    · cases hc.symm.trans hc'

theorem stop (hm : m.Told es) (hs : Stop h m a m') : m'.Rests es := by
  cases a with
  | suspended n v => exact absurd rfl (hs.not_suspended n v)
  | done v =>
    cases hs with
    | done hc => exact hm.stopped (.inl ⟨v, hc⟩)
  | failed f =>
    by_cases hf : f.cause = .halted
    · cases hs with
      | halted hc => exact hm.stopped (.inr hc)
      | malformed | unbound => cases hf
      | refused hc hp hn ha => exact absurd hf (cause_ne_halted ha)
    · obtain ⟨hc, before, fs, rest, hp, hb, hfs, rfl⟩ := hm.failed hs hf
      exact .halted hc hp (hs.root_eq ▸ hb) hfs

theorem runs {k : Nat} {fs : List Event} (hm : m.Told es) (hr : Runs k h m fs h' m') :
    m'.Told (es ++ fs) := by
  induction hr generalizing es with
  | refl => rwa [List.append_nil]
  | step hchange _ ih =>
    rw [← List.append_assoc]
    exact ih (hm.change hchange)

/-- **The node of an answer has ended its episode.** -/
theorem advance_suspended (hm : m.Told es) (ha : (m.advance h).answer = .suspended n v) :
    (m.advance h).machine.control = .deliver v ∧ ∃ before fs,
      Before (m.advance h).machine.root before n (m.advance h).machine.pending ∧
      Whole ⟨n, v, fs⟩ ∧ es ++ (m.advance h).events = before ++ fs := by
  -- along the recursion of the advance, one silent change after the other
  induction h, m using Machine.advance.induct generalizing es with
  | case1 h m a m' h' ht =>
    rw [advance_of_pause ht] at ha ⊢
    cases ha
    rcases pause_cases ht with ⟨n, v, hn, hchange⟩ | ⟨rfl, hs⟩
    · cases hn
      cases hchange with
      | suspend hc hp =>
        obtain ⟨before, fs, hb, hw, rfl⟩ := hm.annotate hc hp
        exact ⟨rfl, before, _, hb, hw, List.append_assoc _ _ _⟩
    · exact absurd rfl (hs.not_suspended n v)
  | case2 h m m' h' e ht ih =>
    rw [advance_of_proceed ht] at ha ⊢
    rw [← List.append_assoc]
    exact ih (hm.change (change_of_proceed ht)) ha

theorem advance (hm : m.Told es) (h : Heap) :
    (m.advance h).machine.Rests (es ++ (m.advance h).events) := by
  rcases advance_cases h m with ⟨k, n, v, ha, -⟩ | ⟨k, m₁, hr, hs⟩
  · obtain ⟨hc, before, fs, hb, hw, heq⟩ := hm.advance_suspended ha
    rw [heq]
    exact .paused hc hb hw
  · exact (hm.runs hr).stop hs

end Told

end Machine

/-! ## Steppers -/

namespace Stepper

open Machine

/-- **What is heard of a stepper** as it is advanced. Between two advances its session may be used
for other programs too. -/
inductive Heard (s : Stepper) : List Event → Stepper → Prop where
  | start : Heard s [] s
  | advance {es : List Event} {s' : Stepper} (hs : Heard s es s') :
      Heard s (es ++ s'.advance.events) s'.advance.stepper
  | meanwhile {es : List Event} {s' : Stepper} (hs : Heard s es s') {session : Session}
      (hl : s'.session.Later session) (r : Results) :
      Heard s es { s' with session := session, results := r }

variable {s s' : Stepper} {es : List Event}

/-- What holds of a stepper of which the events were heard. -/
structure Telling (root : Node) (es : List Event) (s : Stepper) : Prop where
  root : s.machine.root = root
  rests : s.machine.Rests es
  coherent : s.Coherent

/-- **What is heard of a stepper keeps to the grammar.** -/
theorem Heard.telling {t : Tree} {session : Session} {r : Results}
    (hs : (Stepper.start t session r).Heard es s) : s.Telling t.root es := by
  induction hs with
  | start => exact ⟨rfl, rests_start _ _ _, coherent_start t session r⟩
  | @advance es s _ ih =>
    refine ⟨?_, ?_, ih.coherent.advance⟩
    · rw [s.advance_eq.2]
      exact (root_advance _ _).trans ih.root
    · rw [s.advance_eq.2, s.advance_events]
      exact (Told.rests ih.rests).advance _
  | meanwhile _ hl r ih =>
    refine ⟨ih.root, ih.rests, ?_⟩
    rw [Stepper.Coherent, hl.library, hl.global]
    exact ih.coherent.later hl.heap

end Stepper

end StepLisp
