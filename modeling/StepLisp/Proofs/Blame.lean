import StepLisp.Proofs.Episodes
import StepLisp.Proofs.Ancestry

/-!
# Which node is to blame

An evaluation fails at the node that cannot have a value, and the node shows why: it is a name that
nothing in sight binds, a special form without the shape of one, or a call of a closure with the
wrong number of arguments.

* `Node.Shaped`, the shape that a special form requires, with `Form.ofNode_eq_error` and
  `Form.shaped_of_ofNode`: a form is refused exactly if it has not this shape;
* `Heap.not_binds_of_lookup`: a name that is not found is not bound by any frame on the way;
* `Told.advance_failed`: what was heard of up to a fault;
* `Fault.Justified`, the reason why the node of a fault is to blame;
* **`Stepper.answers_justified`**: every fault of a stepper is justified.
-/

namespace StepLisp

/-! ## Special forms -/

namespace Node

/-- The identifier at the head of an expression. -/
def head? (n : Node) : Option String := n.children.head?.bind identifier?

/-- The node has the shape that the special form with this name requires. -/
def Shaped (n : Node) : String → Prop
  | "if" => ∃ head condition consequence alternative,
    n.children = [head, condition, consequence, alternative]
  | "define" => ∃ head name value, n.children = [head, name, value] ∧ name.identifier?.isSome
  | "lambda" => ∃ head place span params body,
    n.children = [head, .expression place span params, body] ∧ ∀ p ∈ params, p.identifier?.isSome
  | _ => True

end Node

theorem isSome_mapM_iff {α β : Type} (f : α → Option β) (as : List α) :
    (as.mapM f).isSome ↔ ∀ a ∈ as, (f a).isSome := by
  induction as with
  | nil => simp
  | cons a as ih =>
    rw [List.mapM_cons, List.forall_mem_cons, ← ih]
    cases f a <;> cases as.mapM f <;> simp

namespace Form

variable {n : Node} {f : Form} {e : Malformed}

theorem ofNode_eq_identifier {x : String} (h : Form.ofNode n = .ok (.identifier x)) :
    n.identifier? = some x := by
  unfold Form.ofNode at h
  split at h
  · cases h
  · cases h
    rfl
  · split at h
    · unfold conditionalOf at h
      split at h <;> cases h
    · unfold definitionOf at h
      split at h
      · split at h <;> cases h
      · cases h
    · unfold abstractionOf at h
      split at h
      · split at h <;> cases h
      · cases h
      · cases h
    · cases h

/-- **A special form is refused only if it has not the shape that it requires.** -/
theorem ofNode_eq_error (h : Form.ofNode n = .error e) :
    n.head? = some e.form ∧ ¬ n.Shaped e.form := by
  unfold Form.ofNode at h
  split at h
  · cases h
  · cases h
  · rename_i children
    split at h
    · rename_i hk
      unfold conditionalOf at h
      split at h
      · cases h
      · rename_i hne
        cases h
        refine ⟨hk, ?_⟩
        rintro ⟨head, c, a, b, hc⟩
        exact hne _ _ _ _ hc
    · rename_i hk
      unfold definitionOf at h
      split at h
      · split at h
        · cases h
        · rename_i hx
          cases h
          refine ⟨hk, ?_⟩
          rintro ⟨head, name, value, hc, hsome⟩
          cases hc
          rw [hx] at hsome
          cases hsome
      · rename_i hne
        cases h
        refine ⟨hk, ?_⟩
        rintro ⟨head, name, value, hc, -⟩
        exact hne _ _ _ hc
    · rename_i hk
      unfold abstractionOf at h
      split at h
      · split at h
        · cases h
        · rename_i hnames
          cases h
          refine ⟨hk, ?_⟩
          rintro ⟨head, place, span, params, body, hc, hsome⟩
          cases hc
          rw [← isSome_mapM_iff, hnames] at hsome
          cases hsome
      · cases h
        refine ⟨hk, ?_⟩
        rintro ⟨head, place, span, params, body, hc, -⟩
        cases hc
      · rename_i hne _
        cases h
        refine ⟨hk, ?_⟩
        rintro ⟨head, place, span, params, body, hc, -⟩
        exact hne _ _ _ _ _ hc
    · cases h

/-- **A special form that is not refused has the shape that it requires.** -/
theorem shaped_of_ofNode {k : String} (h : Form.ofNode n = .ok f) (hk : n.head? = some k) :
    n.Shaped k := by
  unfold Form.ofNode at h
  split at h
  · cases hk
  · cases hk
  · rename_i children
    change children.head?.bind Node.identifier? = some k at hk
    split at h
    · rename_i hif
      cases hk.symm.trans hif
      unfold conditionalOf at h
      split at h
      · exact ⟨_, _, _, _, rfl⟩
      · cases h
    · rename_i hdefine
      cases hk.symm.trans hdefine
      unfold definitionOf at h
      split at h
      · split at h
        · rename_i hx
          exact ⟨_, _, _, rfl, by rw [hx]; rfl⟩
        · cases h
      · cases h
    · rename_i hlambda
      cases hk.symm.trans hlambda
      unfold abstractionOf at h
      split at h
      · split at h
        · rename_i hnames
          exact ⟨_, _, _, _, _, rfl, (isSome_mapM_iff _ _).mp (by rw [hnames]; rfl)⟩
        · cases h
      · cases h
      · cases h
    · -- nothing is required behind another name
      unfold Node.Shaped
      split <;> trivial

end Form

/-! ## Names that are not found -/

namespace Heap

variable {h : Heap} {f : FrameId} {x : String}

/-- The frame binds the name. -/
def Binds (h : Heap) (f : FrameId) (x : String) : Prop :=
  ∃ frame v, h.frame? f = some frame ∧ frame.bindings.find? x = some v

theorem find?_of_lookup {frame : Frame} (hf : h.frame? f = some frame)
    (hx : h.lookup f x = none) : frame.bindings.find? x = none := by
  rw [lookup, hf] at hx
  dsimp only at hx
  split at hx
  · cases hx
  · assumption

theorem not_binds_of_lookup (hx : h.lookup f x = none) : ∀ g ∈ h.lineage f, ¬ h.Binds g x := by
  have own : ∀ {f}, h.lookup f x = none → ¬ h.Binds f x := by
    rintro f hx ⟨frame, v, hf, hv⟩
    cases (find?_of_lookup hf hx).symm.trans hv
  induction f using Heap.lineage.induct (h := h) with
  | case1 f hf =>
    rw [lineage, hf]
    simp
  | case2 f frame hf hp =>
    rw [lineage_last hf hp]
    simpa using own hx
  | case3 f frame hf p hp hlt ih =>
    rw [lineage_parent hf hp hlt]
    refine List.forall_mem_cons.mpr ⟨own hx, ih ?_⟩
    have hfind := find?_of_lookup hf hx
    rw [lookup, hf] at hx
    simpa only [hfind, hp, if_pos hlt] using hx
  | case4 f frame hf p hp hlt =>
    rw [lineage, hf]
    simpa only [hp, if_neg hlt, List.mem_singleton, forall_eq] using own hx

end Heap

/-! ## Why a node is to blame -/

/-- The fault that an answer tells. -/
def Answer.fault? : Answer → Option Fault
  | .failed f => some f
  | _ => none

theorem Answer.fault?_eq_some {a : Answer} {f : Fault} : a.fault? = some f ↔ a = .failed f := by
  cases a <;> simp [fault?]

open Episode Machine

/-- **The node of a fault is to blame**, if the events `since` were heard of from the first look at
the node to the step that failed. -/
def Fault.Justified (f : Fault) (since : List Event) (step : Step) : Prop :=
  match f.cause with
  | .unbound x =>
    f.node.identifier? = some x ∧ since = [] ∧
      ∃ last, step.stepper.machine.frames.frames.getLast? = some last ∧
        ∀ g ∈ step.stepper.session.heap.lineage last, ¬ step.stepper.session.heap.Binds g x
  | .arity expected found =>
    Form.ofNode f.node = .ok (.application f.node.children) ∧
      f.node.children.length = found + 1 ∧ expected ≠ found ∧
      -- the parts were evaluated, the head to a closure, and no frame was entered after them
      ∃ (parts : List Episode) (c : Closure), f.node.children = parts.map Episode.node ∧
        (∀ p ∈ parts, p.Whole) ∧ since = heard parts ∧
        (parts.map value).head? = some (.closure c) ∧ c.params.length = expected ∧
        step.events = []
  | .malformed e => f.node.head? = some e.form ∧ ¬ f.node.Shaped e.form ∧ since = []
  | .halted => False

namespace Machine

variable {h h' : Heap} {m m' : Machine} {es : List Event} {f : Fault} {library global : FrameId}

theorem Stop.unbound_listed (hm : m.Coherent library global h) (hs : Stop h m (.failed f) m')
    {x : String} (hx : f.cause = .unbound x) :
    ∃ s, m'.frames.frames.getLast? = some s ∧ h.lookup s x = none := by
  cases hs with
  | halted | malformed => cases hx
  | unbound hc hf hv =>
    cases hx
    exact ⟨_, hm.control _ _ hc, hv⟩
  | refused hc hp hn ha =>
    obtain ⟨c, args, -, -, rfl⟩ := apply_eq_error ha
    cases hx

/-- **The events of an advance that fails** end with those of the node of the fault. -/
theorem Told.advance_failed (hm : m.Told es) (hc : m.Coherent library global h)
    (ha : (m.advance h).answer = .failed f) (hf : f.cause ≠ .halted) :
    ∃ before since rest, es ++ (m.advance h).events = before ++ since ∧
      Before m.root before f.node rest ∧ f.Told since ∧
      ∀ x, f.cause = .unbound x → ∃ s, (m.advance h).machine.frames.frames.getLast? = some s ∧
        (m.advance h).heap.lookup s x = none := by
  rcases advance_cases h m with ⟨k, n, v, hn, -⟩ | ⟨k, m₁, hr, hs⟩
  · cases hn.symm.trans ha
  · rw [ha] at hs
    obtain ⟨-, before, since, rest, -, hb, hfs, heq⟩ := (hm.runs hr).failed hs hf
    exact ⟨before, since, rest, heq, hr.root_eq ▸ hb, hfs, fun x hx =>
      hs.unbound_listed (hc.runs hr) hx⟩

end Machine

namespace Stepper

variable {t : Tree} {session : Session} {r : Results} {es : List Event} {s : Stepper} {f : Fault}

/-- A step that fails hears of no value, so if a value was the last thing that was heard of, then
nothing was heard of in this step. -/
theorem events_failed {fs : List Event} {n : Node} {v : Value} (ha : s.advance.answer = .failed f)
    (hes : es ++ s.advance.events = fs ++ [Event.suspended n v]) : s.advance.events = [] := by
  have hlog : suspensions s.advance.events = [] := by
    rw [s.advance_events, (advance_written _ _).1, ← s.advance_eq.1, ha]
    rfl
  rcases List.eq_nil_or_concat s.advance.events with hnil | ⟨gs, e, hgs⟩
  · exact hnil
  · rw [List.concat_eq_append] at hgs
    rw [hgs, ← List.append_assoc] at hes
    obtain ⟨-, rfl⟩ := List.append_singleton_inj.mp hes
    rw [hgs, suspensions_append, suspensions_suspended] at hlog
    simp at hlog

theorem Telling.justified {root : Node} (hs : s.Telling root es)
    (ha : s.advance.answer = .failed f) (hf : f.cause ≠ .halted) :
    ∃ before since rest, es ++ s.advance.events = before ++ since ∧
      Before root before f.node rest ∧ f.Justified since s.advance := by
  obtain ⟨before, since, rest, heq, hb, hfs, hx⟩ :=
    (Told.rests hs.rests).advance_failed hs.coherent (s.advance_eq.1.symm.trans ha) hf
  rw [← s.advance_events] at heq
  refine ⟨before, since, rest, heq, hs.root ▸ hb, ?_⟩
  cases hfs with
  | malformed hform =>
    obtain ⟨hhead, hshape⟩ := Form.ofNode_eq_error hform
    exact ⟨hhead, hshape, rfl⟩
  | unbound hform =>
    obtain ⟨last, hlast, hlookup⟩ := hx _ rfl
    refine ⟨Form.ofNode_eq_identifier hform, rfl, last, ?_⟩
    rw [s.advance_eq.2]
    exact ⟨hlast, Heap.not_binds_of_lookup hlookup⟩
  | refused hform hp happly =>
    obtain ⟨c, args, hvs, hne, rfl⟩ := apply_eq_error happly
    rename_i n parts
    have hchildren := Form.ofNode_eq_application hform
    have hlength : parts.length = args.length + 1 := by
      rw [← List.length_map Episode.value, hvs, List.length_cons]
    obtain ⟨init, p, rfl⟩ : ∃ init p, parts = init ++ [p] := by
      rcases List.eq_nil_or_concat parts with rfl | ⟨init, p, hparts⟩
      · cases hlength
      · exact ⟨init, p, hparts.trans List.concat_eq_append⟩
    obtain ⟨fs, hfs⟩ := (hp p (by simp)).events_eq
    rw [heard_concat, hfs, ← List.append_assoc, ← List.append_assoc] at heq
    refine ⟨hchildren ▸ hform, ?_, Ne.symm hne, _, c, hchildren, hp, rfl, by rw [hvs]; rfl, rfl,
      events_failed ha heq⟩
    rw [hchildren, List.length_map, hlength]

/-- **Every answer tells the right node.** -/
theorem answers_justified (hs : (Stepper.start t session r).Heard es s) :
    (∀ f, s.advance.answer = .failed f → f.cause ≠ .halted →
      f.message = "Error evaluating " ++ f.node.text ++ " at " ++ f.node.span.text ++ " - " ++
        f.cause.message ∧
      ∃ before since rest, es ++ s.advance.events = before ++ since ∧
        Before t.root before f.node rest ∧ f.Justified since s.advance) ∧
    ∀ n v, s.advance.answer = .suspended n v → ∀ k, n.head? = some k → n.Shaped k := by
  refine ⟨fun f ha hf => ⟨rfl, hs.telling.justified ha hf⟩, fun n v ha k hk => ?_⟩
  obtain ⟨-, -, fs, -, hw, -⟩ :=
    (Told.rests hs.telling.rests).advance_suspended (s.advance_eq.1.symm.trans ha)
  obtain ⟨form, hform⟩ := hw.ofNode_eq
  exact Form.shaped_of_ofNode hform hk

/-- In the program `((lambda () ()) ())` a closure without parameters gets an argument. -/
theorem answers_justified_arity : ∃ (t : Tree) (es since : List Event) (s : Stepper) (f : Fault),
    (Stepper.start t .new ∅).Heard es s ∧ s.advance.answer = .failed f ∧ f.cause = .arity 0 1 ∧
    f.Justified since s.advance := by
  have hcause : (do
      let t ← (Tree.parse "((lambda () ()) ())").toOption
      let s := (Stepper.start t .new ∅).advance.stepper.advance.stepper
      s.advance.answer.fault?.map Fault.cause) = some (.arity 0 1) := by
    cbv
  obtain ⟨t, -, hcause⟩ := Option.bind_eq_some_iff.mp hcause
  obtain ⟨f, ha, hf⟩ := Option.map_eq_some_iff.mp hcause
  rw [Answer.fault?_eq_some] at ha
  have hs : (Stepper.start t .new ∅).Heard _ _ := .advance (.advance .start)
  obtain ⟨-, before, since, rest, -, -, hjustified⟩ :=
    (answers_justified hs).1 f ha (by simp [hf])
  exact ⟨t, _, since, _, f, hs, ha, hf, hjustified⟩

end Stepper

end StepLisp
