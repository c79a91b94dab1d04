import StepLisp.Proofs.Alike
import StepLisp.Proofs.Relabelling
import StepLisp.Proofs.Protocol

/-!
# Programs with the same words

The layout of a text decides the spans of what is read from it, and nothing else: texts with the
same words are both programs or are both refused, at the same word, and the programs show the same
when they are run. Nor do the results count that their nodes had before.

* `SyntaxError.Matches` and **`Reading.finish_matches`**: readers of corresponding tokens come to
  corresponding faults;
* `Relabelling.bare`, which takes the spans off, and `Alike.relabel_eq`: programs alike are the same
  without spans;
* `Shown`, what is seen of an answer, and `Session.globalView`, what is seen of the global frame;
* `Stepper.Alike`, steppers that differ in spans and results only, with **`Stepper.Alike.after`**;
* **`Tree.indifferent_to_layout`**: what two texts with the same words have in common.
-/

namespace StepLisp

/-! ## Faults at corresponding tokens -/

/-- Two faults of the same kind, at spans that correspond under `P`. -/
inductive SyntaxError.Matches (P : Span → Span → Prop) : SyntaxError → SyntaxError → Prop where
  | unterminated {x y : Span} (h : P x y) : Matches P (.unterminated x) (.unterminated y)
  | unexpectedClose {x y : Span} (h : P x y) : Matches P (.unexpectedClose x) (.unexpectedClose y)

theorem Reading.finish_matches {P : Span → Span → Prop} (tree : Nat) {r s : Reading}
    {ts us : List Token}
    (hopen : List.Forall₂ (fun e f => P e.opening f.opening) r.unclosed s.unclosed)
    (hts : List.Forall₂ (fun t u => t.kind = u.kind ∧ P t.span u.span) ts us) :
    Option.Rel (SyntaxError.Matches P) (r.finish tree ts).2 (s.finish tree us).2 := by
  induction hts generalizing r s with
  | nil =>
    obtain ⟨next, items, unclosed⟩ := r
    obtain ⟨next', items', unclosed'⟩ := s
    cases hopen with
    | nil => exact .none
    | cons he _ => exact .some (.unterminated he)
  | @cons t u ts us htu _ ih =>
    obtain ⟨next, items, unclosed⟩ := r
    obtain ⟨next', items', unclosed'⟩ := s
    obtain ⟨hk', hspan⟩ := htu
    rcases hk : t.kind <;> rw [hk] at hk'
    · simp only [finish, hk, ← hk']
      exact ih (.cons hspan hopen)
    · cases hopen with
      | nil =>
        simp only [finish, hk, ← hk']
        exact .some (.unexpectedClose hspan)
      | cons he houter =>
        simp only [finish, hk, ← hk']
        exact ih houter
    · simp only [finish, hk, ← hk']
      exact ih hopen

/-- The spans of two tokens that stand at the same place in their lists. -/
def Token.AtSameIndex (ts us : List Token) (x y : Span) : Prop :=
  ∃ (i : Nat) (t u : Token), ts[i]? = some t ∧ us[i]? = some u ∧ x = t.span ∧ y = u.span

theorem Token.atSameIndex_of_text_eq {ts us : List Token}
    (h : us.map Token.text = ts.map Token.text) :
    List.Forall₂ (fun t u => t.kind = u.kind ∧ Token.AtSameIndex ts us t.span u.span) ts us := by
  have hlength : ts.length = us.length := by simpa using (congrArg List.length h).symm
  refine List.forall₂_iff_get.mpr ⟨hlength, fun i ht hu => ⟨?_, i, _, _, ?_, ?_, rfl, rfl⟩⟩
  · have htext : us[i].text = ts[i].text := by
      simpa [ht, hu] using congrArg (fun texts => texts[i]?) h
    simp [kind, htext]
  · exact List.getElem?_eq_getElem ht
  · exact List.getElem?_eq_getElem hu

namespace Tree

variable {tree : Nat} {first : NodeId} {ts us : List Token} {t : Tree} {e : SyntaxError}

/-- Tokens with the texts of tokens that are refused are refused, for the same fault at the same
token. -/
theorem ofTokens_refused (h : us.map Token.text = ts.map Token.text)
    (he : (ofTokens tree first ts).outcome = .error e) :
    ∃ e', (ofTokens tree first us).outcome = .error e' ∧
      e.Matches (Token.AtSameIndex ts us) e' := by
  have hfaults := Reading.finish_matches tree (r := ⟨first.index + 1, [], []⟩)
    (s := ⟨first.index + 1, [], []⟩) .nil (Token.atSameIndex_of_text_eq h)
  unfold ofTokens at he ⊢
  rcases hr : Reading.finish tree ⟨first.index + 1, [], []⟩ ts with ⟨r, _ | e₁⟩
  · rw [hr] at he
    cases he
  · rw [hr] at he hfaults
    cases he
    rcases hs : Reading.finish tree ⟨first.index + 1, [], []⟩ us with ⟨s, _ | e₂⟩
    · rw [hs] at hfaults
      cases hfaults
    · rw [hs] at hfaults
      cases hfaults with
      | some hmatch => exact ⟨e₂, rfl, hmatch⟩

end Tree

/-- Takes the spans off. -/
def Relabelling.bare : Relabelling := ⟨id, fun _ => default⟩

@[simp]
theorem Node.id_bare (n : Node) : (n.relabel .bare).id = n.id := by
  rw [id, place_relabel]
  rfl

theorem Alike.relabel_eq {l : Relabelling} (hl : ∀ x y, l.span x = l.span y) {ns ms : List Node}
    (h : Alike Eq ns ms) : ns.map (Node.relabel l) = ms.map (Node.relabel l) := by
  induction h with
  | nil => rfl
  | @atom place span span' a b ns ms hab _ ih =>
    subst hab
    rw [List.map_cons, List.map_cons, ih, Node.relabel, Node.relabel, hl span span']
  | @expression place span span' cs ds ns ms _ _ ihc ih =>
    rw [List.map_cons, List.map_cons, ih, Node.relabel, Node.relabel, Node.relabelAll_eq,
      Node.relabelAll_eq, ihc, hl span span']

theorem Alike.bare_eq {ns ms : List Node} (h : Alike Eq ns ms) :
    ns.map (Node.relabel .bare) = ms.map (Node.relabel .bare) :=
  h.relabel_eq fun _ _ => rfl

/-! ## What is seen of a run -/

/-- What is seen of an answer: the number of a node and the text of its value, the text of the value
of the program, or why it failed, with the number and the text of the node. -/
inductive Shown where
  | suspended (id : NodeId) (value : String)
  | done (value : String)
  | failed (cause : Cause) (id : NodeId) (node : String)
deriving DecidableEq, Repr

def Answer.shown : Answer → Shown
  | .suspended n v => .suspended n.id v.text
  | .done v => .done v.text
  | .failed f => .failed f.cause f.node.id f.node.text

/-- What is seen of the end of a program. -/
def Shown.ofOutcome : Except Fault Value → Shown
  | .ok v => Answer.shown (.done v)
  | .error f => Answer.shown (.failed f)

/-- What is seen of the global frame. -/
def Session.globalView (s : Session) : FrameView := s.heap.view s.global

/-- What is seen at the end of an evaluation in one pass. -/
def Session.endShown (e : Except Fault Value × Session × Results) : Shown × FrameView :=
  (Shown.ofOutcome e.1, e.2.1.globalView)

@[simp]
theorem Answer.shown_bare (a : Answer) : (a.relabel .bare).shown = a.shown := by
  cases a <;> simp [relabel, shown, Fault.relabel]

/-! ## Two runs -/

namespace Stepper

/-- What is seen at the end of a run. -/
def endShown (e : Except Fault Value × Stepper) : Shown × FrameView :=
  (Shown.ofOutcome e.1, e.2.session.globalView)

/-- Steppers that differ in spans and results only. -/
structure Alike (s s' : Stepper) : Prop where
  machine : s.machine.relabel .bare = s'.machine.relabel .bare
  heap : s.session.heap.relabel .bare = s'.session.heap.relabel .bare
  global : s.session.global = s'.session.global

theorem alike_start {t u : Tree} (h : t.root.relabel .bare = u.root.relabel .bare) (s : Session)
    (r r' : Results) :
    Alike (.start t s r) (.start u s r') where
  machine := by simp [start, Machine.start, Machine.relabel, Control.relabel, h]
  heap := rfl
  global := rfl

namespace Alike

variable {s s' : Stepper}

theorem advance_bare_eq (hs : Alike s s') :
    (s.machine.advance s.session.heap).relabel .bare =
      (s'.machine.advance s'.session.heap).relabel .bare := by
  rw [← Machine.advance_relabel, hs.machine, hs.heap, Machine.advance_relabel]

theorem advance (hs : Alike s s') : Alike s.advance.stepper s'.advance.stepper where
  machine := by
    rw [s.advance_eq.2, s'.advance_eq.2]
    exact congrArg Machine.Advance.machine hs.advance_bare_eq
  heap := by
    rw [s.advance_eq.2, s'.advance_eq.2]
    exact congrArg Machine.Advance.heap hs.advance_bare_eq
  global := by
    rw [s.advance_eq.2, s'.advance_eq.2]
    exact hs.global

theorem after (hs : Alike s s') (j : Nat) : Alike (s.after j) (s'.after j) := by
  induction j with
  | zero => exact hs
  | succ j ih => exact ih.advance

theorem shown_eq (hs : Alike s s') : s.advance.answer.shown = s'.advance.answer.shown := by
  have hanswer : s.advance.answer.relabel .bare = s'.advance.answer.relabel .bare := by
    rw [s.advance_eq.1, s'.advance_eq.1]
    exact congrArg Machine.Advance.answer hs.advance_bare_eq
  rw [← Answer.shown_bare, hanswer, Answer.shown_bare]

theorem globalView_eq (hs : Alike s s') : s.session.globalView = s'.session.globalView := by
  rw [Session.globalView, Session.globalView, hs.global, ← Heap.view_relabel, hs.heap,
    Heap.view_relabel]

theorem run_eq (hs : Alike s s') (limit : Nat) :
    (s.run limit).map endShown = (s'.run limit).map endShown := by
  induction limit generalizing s s' with
  | zero => rfl
  | succ limit ih =>
    rw [run_succ, run_succ]
    -- both steppers go on, or both have come to their ends
    have hshown := hs.shown_eq
    cases ha : s.advance.answer <;> cases ha' : s'.advance.answer <;> rw [ha, ha'] at hshown <;>
      simp only [Answer.shown, reduceCtorEq] at hshown
    · exact ih hs.advance
    · simp [Answer.outcome?, endShown, Shown.ofOutcome, Answer.shown, hshown,
        hs.advance.globalView_eq]
    · simp [Answer.outcome?, endShown, Shown.ofOutcome, Answer.shown, hshown,
        hs.advance.globalView_eq]

end Alike

end Stepper

theorem Evaluation.map_eq_of_bareBy {γ : Type} {r r' : Evaluation Value}
    {f : Except Fault Value × Trail → γ}
    (hf : ∀ e, f ((e.1.map (Value.relabel .bare)).mapError (Fault.relabel .bare),
      e.2.relabel .bare) = f e)
    (h : r.relabelBy .bare (Value.relabel .bare) = r'.relabelBy .bare (Value.relabel .bare)) :
    r.map f = r'.map f := by
  have hmap : ∀ q : Evaluation Value,
      (q.relabelBy .bare (Value.relabel .bare)).map f = q.map f := by
    intro q
    cases q with
    | none => rfl
    | some e => exact congrArg some (hf e)
  rw [← hmap, h, hmap]

@[simp]
theorem Shown.ofOutcome_bare (o : Except Fault Value) :
    ofOutcome ((o.map (Value.relabel .bare)).mapError (Fault.relabel .bare)) = ofOutcome o := by
  cases o with
  | ok v => exact Answer.shown_bare (.done v)
  | error f => exact Answer.shown_bare (.failed f)

/-- Two programs that show the same when they are run in new sessions, whatever results their nodes
have: step by step and in one pass, up to the same end, if there is one. -/
structure Tree.SameRuns (t u : Tree) : Prop where
  /-- The answers, one after the other. -/
  answers : ∀ r r' j, ((Stepper.start t .new r).answer j).shown =
    ((Stepper.start u .new r').answer j).shown
  /-- The global frame before each of them. -/
  globals : ∀ r r' j, ((Stepper.start t .new r).after j).session.globalView =
    ((Stepper.start u .new r').after j).session.globalView
  /-- The end and the global frame behind it, unless there is no end within the limit. -/
  runs : ∀ r r' limit, ((Stepper.start t .new r).run limit).map Stepper.endShown =
    ((Stepper.start u .new r').run limit).map Stepper.endShown
  /-- The same for the evaluation in one pass, with a limit for its depth. -/
  ends : ∀ r r' depth, (Session.new.evaluate t r depth).map Session.endShown =
    (Session.new.evaluate u r' depth).map Session.endShown
  /-- The nodes that get values there, the latest first. -/
  written : ∀ depth,
    (evaluate depth t.root Session.new.global ⟨Session.new.heap, []⟩).map
      (fun e => e.2.written.map fun w => (w.1.id, w.2.text)) =
    (evaluate depth u.root Session.new.global ⟨Session.new.heap, []⟩).map
      fun e => e.2.written.map fun w => (w.1.id, w.2.text)

theorem Session.map_evaluate (s : Session) (t : Tree) (r : Results) (depth : Nat) :
    (s.evaluate t r depth).map endShown =
      (StepLisp.evaluate depth t.root s.global ⟨s.heap, []⟩).map
        fun e => (Shown.ofOutcome e.1, e.2.heap.view s.global) := by
  obtain ⟨heap, library, global, next, started⟩ := s
  rw [Session.evaluate]
  rcases StepLisp.evaluate depth t.root global ⟨heap, []⟩ with _ | ⟨o, trail⟩ <;> rfl

namespace Tree

variable {t u : Tree}

theorem evaluate_bareBy_eq (h : t.root.relabel .bare = u.root.relabel .bare) (depth : Nat)
    (s : FrameId) (trail : Trail) :
    (evaluate depth t.root s trail).relabelBy .bare (Value.relabel .bare) =
      (evaluate depth u.root s trail).relabelBy .bare (Value.relabel .bare) := by
  rw [← evaluate_relabel, h, evaluate_relabel]

/-- **Programs that are the same without spans show the same.** -/
theorem sameRuns_of_bare_eq (h : t.root.relabel .bare = u.root.relabel .bare) :
    SameRuns t u where
  answers := by
    intro r r' j
    exact ((Stepper.alike_start h .new r r').after j).shown_eq
  globals := by
    intro r r' j
    exact ((Stepper.alike_start h .new r r').after j).globalView_eq
  runs := by
    intro r r' limit
    exact (Stepper.alike_start h .new r r').run_eq limit
  ends := by
    intro r r' depth
    rw [Session.map_evaluate, Session.map_evaluate]
    exact Evaluation.map_eq_of_bareBy (by simp [Trail.relabel]) (evaluate_bareBy_eq h _ _ _)
  written := by
    intro depth
    refine Evaluation.map_eq_of_bareBy ?_ (evaluate_bareBy_eq h _ _ _)
    simp [Trail.relabel]

/-- **Layout does not count.** Of two texts with the same words both are programs, which show the
same when they are run in new sessions, whatever results their nodes have, or both are refused, for
the same fault at the same token. -/
theorem indifferent_to_layout {a b : String}
    (h : (Token.scan a).map Token.text = (Token.scan b).map Token.text) (tree : Nat)
    (first : NodeId) :
    (∃ t u, (ofSource tree first a).outcome = .ok t ∧ (ofSource tree first b).outcome = .ok u ∧
      SameRuns t u) ∨
    ∃ e e', (ofSource tree first a).outcome = .error e ∧
      (ofSource tree first b).outcome = .error e' ∧
      e.Matches (Token.AtSameIndex (Token.scan a) (Token.scan b)) e' := by
  cases hout : (ofSource tree first a).outcome with
  | ok t =>
    have hmatch : List.Forall₂ (Token.Matches Eq) (Token.scan a) (Token.scan b) :=
      Token.matches_of_text_eq (fun _ => rfl) h.symm
    obtain ⟨u, hu, halike⟩ := ofTokens_alike hmatch hout
    refine .inl ⟨t, u, rfl, hu, sameRuns_of_bare_eq ?_⟩
    exact List.singleton_inj.mp halike.bare_eq
  | error e =>
    obtain ⟨e', he', hmatch⟩ := ofTokens_refused h.symm hout
    exact .inr ⟨e, e', rfl, he', hmatch⟩

/-- A program that never ends, in two layouts. -/
theorem indifferent_to_layout_endless :
    (Token.scan "(define f (lambda () (f)))(f)").map Token.text =
      (Token.scan "( define f\n  (lambda ( )\n    (f)) )\n\n(f )").map Token.text ∧
    ∃ t u : Tree, (ofSource 0 ⟨0⟩ "(define f (lambda () (f)))(f)").outcome = .ok t ∧
      (ofSource 0 ⟨0⟩ "( define f\n  (lambda ( )\n    (f)) )\n\n(f )").outcome = .ok u ∧
      t.root.span ≠ u.root.span ∧ SameRuns t u := by
  have hwords : (Token.scan "(define f (lambda () (f)))(f)").map Token.text =
      (Token.scan "( define f\n  (lambda ( )\n    (f)) )\n\n(f )").map Token.text := by
    cbv
  have hspans : (do
      let t ← (ofSource 0 ⟨0⟩ "(define f (lambda () (f)))(f)").outcome.toOption
      let u ← (ofSource 0 ⟨0⟩ "( define f\n  (lambda ( )\n    (f)) )\n\n(f )").outcome.toOption
      some (decide (t.root.span = u.root.span))) = some false := by
    cbv
  rcases indifferent_to_layout hwords 0 ⟨0⟩ with ⟨t, u, ht, hu, hsame⟩ | ⟨e, e', he, -⟩
  · rw [ht, hu] at hspans
    have hne : decide (t.root.span = u.root.span) = false := Option.some.inj hspans
    exact ⟨hwords, t, u, ht, hu, of_decide_eq_false hne, hsame⟩
  · rw [he] at hspans
    cases hspans

end Tree

end StepLisp
