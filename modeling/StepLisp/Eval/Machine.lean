import StepLisp.Eval.Call
import StepLisp.Eval.ActiveFrames

/-!
# The stepping machine

Evaluation with the pending work on a stack of its own, so that it can pause whenever a node gets
its value, and go on later.

* `Pending`, the work that waits for a value; `Control`, what the machine does next; `Machine`;
* `Machine.transition`, one silent change of the machine, or an answer;
* `Machine.rank`, which every silent change lowers (`Machine.rank_lt`);
* `Machine.advance`, the changes up to the next answer, with the events on the way.
-/

namespace StepLisp

/-- Work that waits for the value of the node evaluated last. -/
inductive Pending where
  /-- Note the value as the result of `node`, and pause. -/
  | annotate (node : Node)
  | branch (consequence alternative : Node) (scope : FrameId)
  | define (name : String) (scope : FrameId)
  /-- Take the value as the next element of the evaluated `expression`. -/
  | collect (expression : Node) (values : List Value) (scope : FrameId)
  /-- The body of a closure is finished: its frame is no longer in use. -/
  | leave (frame : FrameId)

/-- What a machine does next. -/
inductive Control where
  | evaluate (node : Node) (scope : FrameId)
  | deliver (value : Value)
  /-- Nothing: the evaluation is over. -/
  | finished (value : Value)
  /-- Nothing: the evaluation failed. -/
  | halted

/-- A machine that steps through a program. -/
structure Machine where
  root : Node
  control : Control
  /-- The pending work, the most urgent first. -/
  pending : List Pending
  frames : ActiveFrames
  /-- The node that got its value last. -/
  current : Option Node
  /-- How many nodes got a value. -/
  steps : Nat

/-- The end of one advance. -/
inductive Answer where
  /-- A node got a value; there may be more to do. -/
  | suspended (node : Node) (value : Value)
  | done (value : Value)
  /-- The evaluation failed, now or before. -/
  | failed (fault : Fault)

/-- One change of a machine. -/
inductive Transition where
  /-- The machine goes on, in a heap that may have changed. -/
  | proceed (machine : Machine) (heap : Heap) (event : Option Event)
  /-- The machine pauses, in the heap it was in. -/
  | pause (answer : Answer) (machine : Machine) (heap : Heap)

namespace Machine

/-- A machine that is about to evaluate `root` in the global frame. -/
def start (root : Node) (library global : FrameId) : Machine where
  root := root
  control := .evaluate root global
  pending := []
  frames := (ActiveFrames.empty.push library).push global
  current := none
  steps := 0

def isDone (m : Machine) : Bool :=
  match m.control with
  | .finished _ => true
  | _ => false

/-- The machine stops for good, and tells why. -/
def fail (h : Heap) (m : Machine) (cause : Cause) (node : Node) : Transition :=
  .pause (.failed ⟨cause, node⟩) { m with control := .halted } h

/-- Evaluates the next child of `expression`, or applies the values if there is none left. -/
def collectNext (h : Heap) (m : Machine) (expression : Node) (values : List Value)
    (scope : FrameId) : Transition :=
  match expression.children[values.length]? with
  | some child =>
    .proceed
      { m with
        control := .evaluate child scope
        pending := .collect expression values scope :: m.pending } h none
  | none =>
    match apply values with
    | .error cause => m.fail h cause expression
    | .ok (.value v) => .proceed { m with control := .deliver v } h none
    | .ok (.enter c args) =>
      let (frame, h) := c.enter args h
      .proceed
        { m with
          control := .evaluate c.body frame
          pending := .leave frame :: m.pending
          frames := m.frames.push frame } h (some (.entered frame))

/-- Begins to evaluate `node` in the frame `scope`. -/
def enterNode (h : Heap) (m : Machine) (node : Node) (scope : FrameId) : Transition :=
  let m := { m with pending := .annotate node :: m.pending }
  match Form.ofNode node with
  | .error e => m.fail h (.malformed e) node
  | .ok (.number x) => .proceed { m with control := .deliver (.number x) } h none
  | .ok (.identifier name) =>
    match h.lookup scope name with
    | some v => .proceed { m with control := .deliver v } h none
    | none => m.fail h (.unbound name) node
  | .ok (.conditional condition consequence alternative) =>
    .proceed
      { m with
        control := .evaluate condition scope
        pending := .branch consequence alternative scope :: m.pending } h none
  | .ok (.definition name value) =>
    .proceed
      { m with
        control := .evaluate value scope
        pending := .define name scope :: m.pending } h none
  | .ok (.abstraction params body) =>
    let (c, h) := h.makeClosure params body scope
    .proceed { m with control := .deliver (.closure c) } h none
  | .ok (.application _) => m.collectNext h node [] scope

/-- Hands a value to one piece of pending work, which was taken off the stack. -/
def resume (h : Heap) (m : Machine) (value : Value) : Pending → Transition
  | .annotate node =>
    .pause (.suspended node value)
      { m with control := .deliver value, current := some node, steps := m.steps + 1 } h
  | .branch consequence alternative scope =>
    .proceed
      { m with control := .evaluate (if value.isTruthy then consequence else alternative) scope }
      h none
  | .define name scope =>
    .proceed { m with control := .deliver .void } (h.define scope name value) none
  | .collect expression values scope => m.collectNext h expression (values ++ [value]) scope
  | .leave frame =>
    .proceed { m with control := .deliver value, frames := m.frames.pop frame } h
      (some (.left frame))

/-- One change of the machine. -/
def transition (h : Heap) (m : Machine) : Transition :=
  match m.control with
  | .finished value => .pause (.done value) m h
  | .halted => .pause (.failed ⟨.halted, m.root⟩) m h
  | .evaluate node scope => m.enterNode h node scope
  | .deliver value =>
    match m.pending with
    | [] => .proceed { m with control := .finished value } h none
    | p :: rest => { m with pending := rest }.resume h value p

/-! ## Advancing to the next answer -/

/-- How far a machine is from its next answer: a delivery to an annotation answers at once, then
come the nodes to be entered, by size, and last the deliveries to other pending work, by its amount.
-/
def rank (m : Machine) : Nat × Nat :=
  match m.control with
  | .evaluate node _ => (1, node.size)
  | .deliver _ =>
    match m.pending with
    | .annotate _ :: _ => (0, 0)
    | pending => (2, pending.length)
  | .finished _ => (0, 0)
  | .halted => (0, 0)

theorem rank_evaluate {m : Machine} {n : Node} {f : FrameId} (h : m.control = .evaluate n f) :
    m.rank = (1, n.size) := by
  simp [rank, h]

theorem rank_deliver {m : Machine} {v : Value} (h : m.control = .deliver v) :
    m.rank = (0, 0) ∨ m.rank = (2, m.pending.length) := by
  unfold rank
  rw [h]
  dsimp only
  split
  · exact .inl rfl
  · exact .inr rfl

theorem rank_annotated {m : Machine} {v : Value} {n : Node} {rest : List Pending}
    (h : m.control = .deliver v) (hp : m.pending = .annotate n :: rest) : m.rank = (0, 0) := by
  simp [rank, h, hp]

/-- Collecting goes on with a child, delivers to the work below, or enters a closure, which takes at
least one value. -/
theorem collectNext_proceed {h h' : Heap} {m m' : Machine} {n : Node} {values : List Value}
    {scope : FrameId} {e : Option Event} (ht : m.collectNext h n values scope = .proceed m' h' e) :
    (∃ child ∈ n.children, m'.control = .evaluate child scope) ∨
      (∃ v, m'.control = .deliver v ∧ m'.pending = m.pending) ∨
      (values ≠ [] ∧ ∃ body frame, m'.control = .evaluate body frame) := by
  unfold collectNext at ht
  split at ht
  · rename_i child hc
    simp only [Transition.proceed.injEq] at ht
    exact .inl ⟨child, List.mem_of_getElem? hc, by rw [← ht.1]⟩
  · split at ht
    · simp [fail] at ht
    · rename_i v _
      simp only [Transition.proceed.injEq] at ht
      exact .inr (.inl ⟨v, by rw [← ht.1], by rw [← ht.1]⟩)
    · rename_i c args ha
      simp only [Transition.proceed.injEq] at ht
      refine .inr (.inr ⟨?_, c.body, _, by rw [← ht.1]⟩)
      rintro rfl
      simp [apply] at ha

theorem enterNode_proceed {h h' : Heap} {m m' : Machine} {n : Node} {scope : FrameId}
    {e : Option Event} (ht : m.enterNode h n scope = .proceed m' h' e) :
    (∃ child ∈ n.children, m'.control = .evaluate child scope) ∨
      ∃ v, m'.control = .deliver v ∧ m'.pending = .annotate n :: m.pending := by
  unfold enterNode at ht
  dsimp only at ht
  split at ht
  · simp [fail] at ht
  · simp only [Transition.proceed.injEq] at ht
    exact .inr ⟨_, by rw [← ht.1], by rw [← ht.1]⟩
  · split at ht
    · simp only [Transition.proceed.injEq] at ht
      exact .inr ⟨_, by rw [← ht.1], by rw [← ht.1]⟩
    · simp [fail] at ht
  · rename_i condition _ _ hf
    obtain ⟨head, -, hc⟩ := Form.ofNode_eq_conditional hf
    simp only [Transition.proceed.injEq] at ht
    exact .inl ⟨condition, by rw [hc]; simp, by rw [← ht.1]⟩
  · rename_i value hf
    obtain ⟨head, name, -, -, hc⟩ := Form.ofNode_eq_definition hf
    simp only [Transition.proceed.injEq] at ht
    exact .inl ⟨value, by rw [hc]; simp, by rw [← ht.1]⟩
  · simp only [Transition.proceed.injEq] at ht
    exact .inr ⟨_, by rw [← ht.1], by rw [← ht.1]⟩
  · rcases collectNext_proceed ht with hchild | hvalue | ⟨hne, -⟩
    · exact .inl hchild
    · exact .inr hvalue
    · exact absurd rfl hne

theorem resume_proceed {h h' : Heap} {m m' : Machine} {v : Value} {p : Pending} {e : Option Event}
    (ht : m.resume h v p = .proceed m' h' e) :
    (∃ n f, m'.control = .evaluate n f) ∨
      ∃ w, m'.control = .deliver w ∧ m'.pending = m.pending := by
  cases p with
  | annotate n => simp [resume] at ht
  | branch a b scope =>
    simp only [resume, Transition.proceed.injEq] at ht
    exact .inl ⟨_, _, by rw [← ht.1]⟩
  | define x scope =>
    simp only [resume, Transition.proceed.injEq] at ht
    exact .inr ⟨_, by rw [← ht.1], by rw [← ht.1]⟩
  | collect n values scope =>
    rcases collectNext_proceed ht with ⟨child, -, hc⟩ | hvalue | ⟨-, body, frame, hc⟩
    · exact .inl ⟨child, scope, hc⟩
    · exact .inr hvalue
    · exact .inl ⟨body, frame, hc⟩
  | leave frame =>
    simp only [resume, Transition.proceed.injEq] at ht
    exact .inr ⟨_, by rw [← ht.1], by rw [← ht.1]⟩

/-- Looking at a node brings the next answer closer: it is noted, or a smaller node is looked at. -/
theorem rank_lt_of_enterNode {h h' : Heap} {m m' : Machine} {n : Node} {scope : FrameId}
    {e : Option Event} (hm : m.control = .evaluate n scope)
    (ht : m.enterNode h n scope = .proceed m' h' e) :
    Prod.Lex (· < ·) (· < ·) m'.rank m.rank := by
  rw [rank_evaluate hm]
  rcases enterNode_proceed ht with ⟨child, hmem, hc⟩ | ⟨v, hc, hp⟩
  · rw [rank_evaluate hc]
    exact .right _ (Node.size_lt_of_mem hmem)
  · rw [rank_annotated hc hp]
    exact .left _ _ (by decide)

/-- Handing a value over brings the next answer closer: there is a node to look at, or less work. -/
theorem rank_lt_of_resume {h h' : Heap} {m m' : Machine} {v : Value} {p : Pending}
    {rest : List Pending} {e : Option Event} (hm : m.control = .deliver v)
    (hp : m.pending = p :: rest) (ht : { m with pending := rest }.resume h v p = .proceed m' h' e) :
    Prod.Lex (· < ·) (· < ·) m'.rank m.rank := by
  have hrank : m.rank = (2, rest.length + 1) := by
    cases p with
    | annotate n => simp [resume] at ht
    | _ => simp [rank, hm, hp]
  rw [hrank]
  rcases resume_proceed ht with ⟨n, f, hc⟩ | ⟨w, hc, hpending⟩
  · rw [rank_evaluate hc]
    exact .left _ _ (by decide)
  · rcases rank_deliver hc with hzero | htwo
    · rw [hzero]
      exact .left _ _ (by decide)
    · rw [htwo, hpending]
      exact .right _ rest.length.lt_succ_self

/-- **Every silent change brings the machine closer to its next answer.** -/
theorem rank_lt {h h' : Heap} {m m' : Machine} {e : Option Event}
    (ht : m.transition h = .proceed m' h' e) : Prod.Lex (· < ·) (· < ·) m'.rank m.rank := by
  unfold transition at ht
  split at ht
  · simp at ht
  · simp at ht
  · exact rank_lt_of_enterNode ‹_› ht
  · rename_i hm
    split at ht
    · rename_i hp
      simp only [Transition.proceed.injEq] at ht
      have hfinished : m'.rank = (0, 0) := by rw [← ht.1]; rfl
      have hrank : m.rank = (2, 0) := by simp [rank, hm, hp]
      rw [hfinished, hrank]
      exact .left _ _ (by decide)
    · exact rank_lt_of_resume hm ‹_› ht

/-- What an advance gives: the answer, the machine and the heap behind it, and the events on the
way. -/
structure Advance where
  answer : Answer
  machine : Machine
  heap : Heap
  events : List Event

end Machine

/-- The event that an answer is to those who follow the evaluation. -/
def Answer.events : Answer → List Event
  | .suspended node value => [.suspended node value]
  | .done _ => []
  | .failed _ => []

/-- **Runs a machine up to its next answer.** -/
def Machine.advance (h : Heap) (m : Machine) : Advance :=
  match _ht : m.transition h with
  | .pause answer m h => ⟨answer, m, h, answer.events⟩
  | .proceed m h event =>
    let rest := Machine.advance h m
    { rest with events := event.toList ++ rest.events }
termination_by m.rank
decreasing_by exact rank_lt _ht

end StepLisp
