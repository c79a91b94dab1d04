import StepLisp.Proofs.Evaluation
import StepLisp.Proofs.Run

/-!
# The machine simulates the recursive evaluator

Wherever the recursive evaluator is asked for the value of a node, a machine that is about to
evaluate this node does the same: it delivers the same value to the work that was pending, or stops
with the same fault, in the same heap and with the same nodes written on the way. Where the depth of
the recursion does not suffice, the machine can change at least as often as the depth allows, so
that a recursion without end is a run without end.

* `Machine.Follows`, what a machine does beside an evaluation, and its laws, one for each way in
  which evaluations are put together;
* `Machine.Delivers` and `Machine.Collected`, where a machine has got a value or the parts of an
  application;
* **`Machine.follows_evaluate`**: the simulation.
-/

namespace StepLisp

namespace Machine

variable {α β : Type}

/-- The machine `m` does what the evaluation `r` says. A value is reached in at least no change, at
a machine for which `post` holds; `w` is what was written before. -/
def Follows (d : Nat) (h : Heap) (m : Machine) (w : List (Node × Value))
    (post : α → Machine → Prop) : Evaluation α → Prop
  | none => Lasts d h m
  | some (.ok a, t) => ∃ k es m₁, Runs k h m es t.heap m₁ ∧
      t.written = (suspensions es).reverse ++ w ∧ post a m₁
  | some (.error f, t) => ∃ k es m₁ m₂, Runs k h m es t.heap m₁ ∧
      t.written = (suspensions es).reverse ++ w ∧ Stop t.heap m₁ (.failed f) m₂

namespace Follows

variable {d k : Nat} {h h₁ : Heap} {m m₁ : Machine} {w : List (Node × Value)} {es : List Event}
  {post : α → Machine → Prop} {r : Evaluation α}

theorem of_le (hf : Follows d h m w post r) {c : Nat} (hc : c ≤ d) : Follows c h m w post r := by
  rcases r with _ | ⟨e | a, t⟩
  · exact Lasts.of_le hf hc
  · exact hf
  · exact hf

theorem ok {a : α} {t : Trail} (ha : post a m) :
    Follows d t.heap m t.written post (some (.ok a, t)) :=
  ⟨0, [], m, .refl, rfl, ha⟩

theorem error {f : Fault} {t : Trail} {m₂ : Machine} (hs : Stop t.heap m (.failed f) m₂) :
    Follows d t.heap m t.written post (some (.error f, t)) :=
  ⟨0, [], m, m₂, .refl, rfl, hs⟩

theorem after_runs (hr : Runs k h m es h₁ m₁)
    (hf : Follows d h₁ m₁ ((suspensions es).reverse ++ w) post r) :
    Follows (k + d) h m w post r := by
  rcases r with _ | ⟨e | a, t⟩
  · exact Lasts.after_runs hr hf
  · obtain ⟨l, fs, m₂, m₃, hr', hw, hs⟩ := hf
    exact ⟨k + l, es ++ fs, m₂, m₃, hr.trans hr', by simp [hw], hs⟩
  · obtain ⟨l, fs, m₂, hr', hw, hp⟩ := hf
    exact ⟨k + l, es ++ fs, m₂, hr.trans hr', by simp [hw], hp⟩

theorem after_change {e : Option Event} (hm : Change h m e h₁ m₁) (he : Silent e)
    (hf : Follows d h₁ m₁ w post r) : Follows (d + 1) h m w post r := by
  rw [Nat.add_comm]
  refine after_runs (.single hm) ?_
  rwa [show suspensions e.toList = [] from he]

theorem behind {e : Option Event} (hm : Change h m e h₁ m₁) (he : Silent e)
    (hf : Follows d h₁ m₁ w post r) : Follows d h m w post r :=
  (after_change hm he hf).of_le (Nat.le_succ d)

/-- **Two evaluations one after the other.** -/
theorem andThen {post' : β → Machine → Prop} {next : α → Trail → Evaluation β}
    (hf : Follows d h m w post r)
    (hn : ∀ a t m₁, post a m₁ → Follows d t.heap m₁ t.written post' (next a t)) :
    Follows d h m w post' (r.andThen next) := by
  rcases r with _ | ⟨e | a, t⟩
  · exact hf
  · exact hf
  · obtain ⟨k, es, m₁, hr, hw, ha⟩ := hf
    have := hn a t m₁ ha
    rw [hw] at this
    exact (after_runs hr this).of_le (Nat.le_add_left d k)

end Follows

/-- The machine hands the value `v` to the pending work `p`, with the active frames `fs`. -/
structure Delivers (p : List Pending) (fs : ActiveFrames) (v : Value) (m : Machine) : Prop where
  control : m.control = .deliver v
  pending : m.pending = p
  frames : m.frames = fs

/-- The machine has just got the last of the values `vs` of parts of `n`. -/
def Collected (n : Node) (s : FrameId) (p : List Pending) (fs : ActiveFrames) (vs : List Value)
    (m : Machine) : Prop :=
  ∃ init v, vs = init ++ [v] ∧ Delivers (.collect n init s :: p) fs v m

variable {d : Nat} {n : Node} {s : FrameId} {t : Trail} {m : Machine} {w : List (Node × Value)}
  {p : List Pending} {fs : ActiveFrames} {h : Heap}

namespace Follows

theorem record {r : Evaluation Value} (hf : Follows d h m w (Delivers (.annotate n :: p) fs) r) :
    Follows d h m w (Delivers p fs) (r.record n) := by
  rcases r with _ | ⟨e | v, t⟩
  · exact hf
  · exact hf
  · obtain ⟨k, es, m₁, hr, hw, hd⟩ := hf
    have hm := Change.suspend (h := t.heap) hd.control hd.pending
    exact ⟨k + 1, _, _, hr.trans (.single hm), by simp [hw], rfl, rfl, hd.frames⟩

theorem leave {f : FrameId} {r : Evaluation Value}
    (hf : Follows d h m w (Delivers (.leave f :: p) (fs.push f)) r) :
    Follows d h m w (Delivers p fs) r := by
  rcases r with _ | ⟨e | v, t⟩
  · exact hf
  · exact hf
  · obtain ⟨k, es, m₁, hr, hw, hd⟩ := hf
    have hm := Change.leave (h := t.heap) hd.control hd.pending
    refine ⟨k + 1, _, _, hr.trans (.single hm), ?_, rfl, rfl, ?_⟩
    · rw [suspensions_append, silent_left f, List.append_nil, hw]
    · simp [hd.frames, ActiveFrames.push, ActiveFrames.pop]

end Follows

/-- The evaluator of the depth `d` is simulated, whatever machine is about to evaluate. -/
def Simulated (d : Nat) : Prop :=
  ∀ (n : Node) (s : FrameId) (t : Trail) (m : Machine) (p : List Pending) (fs : ActiveFrames),
    m.control = .evaluate n s → m.pending = p → m.frames = fs →
      Follows d t.heap m t.written (Delivers p fs) (evaluate d n s t)

theorem Simulated.evaluateEach (hd : Simulated d) {rest : List Node} {vs : List Value}
    (hrest : n.children.drop vs.length = rest) (hm : Collected n s p fs vs m) :
    Follows d t.heap m t.written
      (fun us m₁ => Collected n s p fs (vs ++ us) m₁ ∧ n.children.drop (vs ++ us).length = [])
      (StepLisp.evaluateEach (fun n => evaluate d n s) rest t) := by
  induction rest generalizing vs t m with
  | nil =>
    rw [evaluateEach_nil]
    refine Follows.ok ?_
    rw [List.append_nil]
    exact ⟨hm, hrest⟩
  | cons child rest ih =>
    rw [evaluateEach_cons]
    obtain ⟨init, v, rfl, hv⟩ := hm
    have hchild : n.children[(init ++ [v]).length]? = some child := by
      rw [← List.head?_drop, hrest, List.head?_cons]
    refine (Follows.behind (.collect hv.control hv.pending hchild) silent_none
      (hd child s t _ _ fs rfl rfl hv.frames)).andThen fun u t₁ m₁ hu => ?_
    have htail : n.children.drop (init ++ [v] ++ [u]).length = rest := by
      rw [List.length_append, ← List.drop_drop, hrest]
      rfl
    refine (ih htail ⟨_, u, rfl, hu⟩).andThen ?_
    intro us t₂ m₂ hus
    refine Follows.ok ?_
    rwa [List.append_cons _ u us]

theorem Simulated.applyAll (hd : Simulated d) {vs : List Value} (hm : Collected n s p fs vs m)
    (hvs : n.children.drop vs.length = []) :
    Follows d t.heap m t.written (Delivers p fs) (applyAll d n vs t) := by
  obtain ⟨init, v, rfl, hv⟩ := hm
  have hnone : n.children[(init ++ [v]).length]? = none := by
    rw [← List.head?_drop, hvs, List.head?_nil]
  unfold StepLisp.applyAll
  cases ha : apply (init ++ [v]) with
  | error cause => exact Follows.error (.refused hv.control hv.pending hnone ha)
  | ok r =>
    cases r with
    | value u =>
      exact Follows.behind (.apply hv.control hv.pending hnone ha) silent_none
        (Follows.ok ⟨rfl, rfl, hv.frames⟩)
    | enter c args =>
      refine Follows.behind (.enter hv.control hv.pending hnone ha) (silent_entered _)
        (Follows.leave (f := (c.enter args t.heap).1)
          (hd _ _ ⟨_, t.written⟩ _ _ _ rfl rfl ?_))
      rw [hv.frames]

/-- **The machine simulates the recursive evaluator**, for every depth and every machine. -/
theorem follows_evaluate (d : Nat) : Simulated d := by
  induction d with
  | zero => exact fun _ _ _ _ _ _ _ _ _ => Lasts.zero
  | succ d hd =>
    rintro n s t m p fs hc rfl rfl
    cases hf : Form.ofNode n with
    | error e =>
      rw [evaluate_malformed hf]
      exact Follows.error (.malformed hc hf)
    | ok f =>
      -- a node with its value at once is written in one more change
      have atOnce : ∀ {v h'}, Immediate t.heap n s v h' →
          Follows (d + 1) t.heap m t.written (Delivers m.pending m.frames)
            (Evaluation.record n (some (.ok v, ⟨h', t.written⟩))) := fun hi =>
        Follows.record (Follows.after_change (.value hc hi) silent_none
          (Follows.ok (t := ⟨_, t.written⟩) ⟨rfl, rfl, rfl⟩))
      cases f with
      | number x =>
        rw [evaluate_number hf]
        exact atOnce (.number hf)
      | identifier x =>
        rw [evaluate_identifier hf]
        cases hv : t.heap.lookup s x with
        | some v => exact atOnce (.identifier hf hv)
        | none => exact Follows.error (.unbound hc hf hv)
      | abstraction ps b =>
        rw [evaluate_abstraction hf]
        exact atOnce (.abstraction hf)
      | conditional c a b =>
        rw [evaluate_conditional hf]
        refine (Follows.after_change (.opened hc (.condition hf)) silent_none
          ((hd c s t _ _ _ rfl rfl rfl).andThen fun v t₁ m₁ hv => ?_)).record
        exact Follows.behind (.branch hv.control hv.pending) silent_none
          (hd _ s t₁ _ _ _ rfl rfl hv.frames)
      | definition x b =>
        rw [evaluate_definition hf]
        refine (Follows.after_change (.opened hc (.definition hf)) silent_none
          ((hd b s t _ _ _ rfl rfl rfl).andThen fun v t₁ m₁ hv => ?_)).record
        exact Follows.behind (.define hv.control hv.pending) silent_none
          (Follows.ok (t := ⟨_, t₁.written⟩) ⟨rfl, rfl, hv.frames⟩)
      | application children =>
        rw [evaluate_application hf]
        cases children with
        | nil => exact atOnce (.empty hf)
        | cons c rest =>
          have hn : ∀ v : Value, n.children.drop [v].length = rest := fun v => by
            rw [Form.ofNode_eq_application hf]
            rfl
          rw [evaluateEach_cons, Evaluation.andThen_assoc]
          refine (Follows.after_change (.opened hc (.application hf)) silent_none
            ((hd c s t _ _ _ rfl rfl rfl).andThen fun v t₁ m₁ hv => ?_)).record
          rw [Evaluation.andThen_assoc]
          refine (hd.evaluateEach (hn v) ⟨[], v, rfl, hv⟩).andThen ?_
          intro us t₂ m₂ hus
          exact hd.applyAll hus.1 hus.2

end Machine

end StepLisp
