import StepLisp.Eval.Machine

/-!
# The rules of the machine

Everything a machine can do next, as rules: it changes, in one of ten ways, or it stops. The
function `Machine.transition` follows these rules, and what holds of every change is proved by
going through them once.

* `Machine.Immediate`, the nodes that have their value at once, and `Machine.Opens`, the part of a
  node that is evaluated first;
* `Machine.Change`, one change with its event, and `Machine.Stop`, the end of a run;
* `Change.transition_eq`, `Stop.transition_eq` and `change_or_stop`: the function follows the rules,
  and no machine is without a rule;
* `change_of_proceed`, `pause_cases`: the rules read off a transition.
-/

namespace StepLisp

/-- The transition of a change: the machine pauses if the event is a suspension. -/
def Transition.after (e : Option Event) (m : Machine) (h : Heap) : Transition :=
  match e with
  | some (.suspended n v) => .pause (.suspended n v) m h
  | e => .proceed m h e

namespace Machine

/-- The node `n` has the value `v` in the frame `s` without another node being evaluated. -/
inductive Immediate (h : Heap) (n : Node) (s : FrameId) : Value → Heap → Prop where
  | number {x : Float} (hf : Form.ofNode n = .ok (.number x)) : Immediate h n s (.number x) h
  | identifier {x : String} {v : Value} (hf : Form.ofNode n = .ok (.identifier x))
      (hv : h.lookup s x = some v) : Immediate h n s v h
  | abstraction {ps : List String} {b : Node} (hf : Form.ofNode n = .ok (.abstraction ps b)) :
      Immediate h n s (.closure (h.makeClosure ps b s).1) (h.makeClosure ps b s).2
  | empty (hf : Form.ofNode n = .ok (.application [])) : Immediate h n s (.list []) h

/-- The node `n` is evaluated by evaluating `child` first, with the work `p` pending. -/
inductive Opens (n : Node) (s : FrameId) : Node → Pending → Prop where
  | condition {c a b : Node} (hf : Form.ofNode n = .ok (.conditional c a b)) :
      Opens n s c (.branch a b s)
  | definition {x : String} {b : Node} (hf : Form.ofNode n = .ok (.definition x b)) :
      Opens n s b (.define x s)
  | application {c : Node} {rest : List Node}
      (hf : Form.ofNode n = .ok (.application (c :: rest))) : Opens n s c (.collect n [] s)

/-- **One change of a machine**, with the event that it is to those who follow. -/
inductive Change (h : Heap) (m : Machine) : Option Event → Heap → Machine → Prop where
  -- a node is looked at
  | value {n : Node} {s : FrameId} {v : Value} {h' : Heap} (hc : m.control = .evaluate n s)
      (hi : Immediate h n s v h') :
      Change h m none h' { m with control := .deliver v, pending := .annotate n :: m.pending }
  | opened {n child : Node} {s : FrameId} {p : Pending} (hc : m.control = .evaluate n s)
      (ho : Opens n s child p) :
      Change h m none h
        { m with control := .evaluate child s, pending := p :: .annotate n :: m.pending }
  -- a value is handed to the pending work
  | branch {v : Value} {a b : Node} {s : FrameId} {rest : List Pending}
      (hc : m.control = .deliver v) (hp : m.pending = .branch a b s :: rest) :
      Change h m none h
        { m with control := .evaluate (if v.isTruthy then a else b) s, pending := rest }
  | define {v : Value} {x : String} {s : FrameId} {rest : List Pending}
      (hc : m.control = .deliver v) (hp : m.pending = .define x s :: rest) :
      Change h m none (h.define s x v) { m with control := .deliver .void, pending := rest }
  | collect {v : Value} {n child : Node} {vs : List Value} {s : FrameId} {rest : List Pending}
      (hc : m.control = .deliver v) (hp : m.pending = .collect n vs s :: rest)
      (hn : n.children[(vs ++ [v]).length]? = some child) :
      Change h m none h
        { m with control := .evaluate child s, pending := .collect n (vs ++ [v]) s :: rest }
  -- the value is the last part of an application
  | apply {v w : Value} {n : Node} {vs : List Value} {s : FrameId} {rest : List Pending}
      (hc : m.control = .deliver v) (hp : m.pending = .collect n vs s :: rest)
      (hn : n.children[(vs ++ [v]).length]? = none)
      (ha : StepLisp.apply (vs ++ [v]) = .ok (.value w)) :
      Change h m none h { m with control := .deliver w, pending := rest }
  | enter {v : Value} {n : Node} {vs args : List Value} {s : FrameId} {rest : List Pending}
      {c : Closure} (hc : m.control = .deliver v) (hp : m.pending = .collect n vs s :: rest)
      (hn : n.children[(vs ++ [v]).length]? = none)
      (ha : StepLisp.apply (vs ++ [v]) = .ok (.enter c args)) :
      Change h m (some (.entered (c.enter args h).1)) (c.enter args h).2
        { m with
          control := .evaluate c.body (c.enter args h).1
          pending := .leave (c.enter args h).1 :: rest
          frames := m.frames.push (c.enter args h).1 }
  -- the value stays the same
  | leave {v : Value} {f : FrameId} {rest : List Pending} (hc : m.control = .deliver v)
      (hp : m.pending = .leave f :: rest) :
      Change h m (some (.left f)) h
        { m with control := .deliver v, pending := rest, frames := m.frames.pop f }
  | suspend {v : Value} {n : Node} {rest : List Pending} (hc : m.control = .deliver v)
      (hp : m.pending = .annotate n :: rest) :
      Change h m (some (.suspended n v)) h
        { m with
          control := .deliver v
          pending := rest
          current := some n
          steps := m.steps + 1 }
  | finish {v : Value} (hc : m.control = .deliver v) (hp : m.pending = []) :
      Change h m none h { m with control := .finished v }

/-- **The end of a run**: the answer that a machine gives when it cannot change, and the machine
behind it. -/
inductive Stop (h : Heap) (m : Machine) : Answer → Machine → Prop where
  | done {v : Value} (hc : m.control = .finished v) : Stop h m (.done v) m
  | halted (hc : m.control = .halted) : Stop h m (.failed ⟨.halted, m.root⟩) m
  | malformed {n : Node} {s : FrameId} {e : Malformed} (hc : m.control = .evaluate n s)
      (hf : Form.ofNode n = .error e) :
      Stop h m (.failed ⟨.malformed e, n⟩)
        { m with control := .halted, pending := .annotate n :: m.pending }
  | unbound {n : Node} {s : FrameId} {x : String} (hc : m.control = .evaluate n s)
      (hf : Form.ofNode n = .ok (.identifier x)) (hv : h.lookup s x = none) :
      Stop h m (.failed ⟨.unbound x, n⟩)
        { m with control := .halted, pending := .annotate n :: m.pending }
  | refused {v : Value} {n : Node} {vs : List Value} {s : FrameId} {rest : List Pending}
      {cause : Cause} (hc : m.control = .deliver v) (hp : m.pending = .collect n vs s :: rest)
      (hn : n.children[(vs ++ [v]).length]? = none)
      (ha : StepLisp.apply (vs ++ [v]) = .error cause) :
      Stop h m (.failed ⟨cause, n⟩) { m with control := .halted, pending := rest }

/-! ## The transition function follows the rules -/

variable {h h' : Heap} {m m' : Machine} {e : Option Event} {a : Answer}

theorem transition_evaluate {n : Node} {s : FrameId} (hc : m.control = .evaluate n s) :
    m.transition h = m.enterNode h n s := by
  simp only [transition, hc]

theorem transition_deliver {v : Value} {p : Pending} {rest : List Pending}
    (hc : m.control = .deliver v) (hp : m.pending = p :: rest) :
    m.transition h = { m with pending := rest }.resume h v p := by
  simp only [transition, hc, hp]

theorem Change.transition_eq (hm : Change h m e h' m') : m.transition h = .after e m' h' := by
  cases hm with
  | value hc hi =>
    rw [transition_evaluate hc]
    cases hi with
    | number hf => simp only [enterNode, hf]; rfl
    | identifier hf hv => simp only [enterNode, hf, hv]; rfl
    | abstraction hf => simp only [enterNode, hf]; rfl
    | empty hf =>
      simp only [enterNode, hf, collectNext, Form.ofNode_eq_application hf]
      rfl
  | opened hc ho =>
    rw [transition_evaluate hc]
    cases ho with
    | condition hf => simp only [enterNode, hf]; rfl
    | definition hf => simp only [enterNode, hf]; rfl
    | application hf =>
      simp only [enterNode, hf, collectNext, Form.ofNode_eq_application hf]
      rfl
  | branch hc hp => rw [transition_deliver hc hp]; rfl
  | define hc hp => rw [transition_deliver hc hp]; rfl
  | collect hc hp hn => rw [transition_deliver hc hp]; simp only [resume, collectNext, hn]; rfl
  | apply hc hp hn ha => rw [transition_deliver hc hp]; simp only [resume, collectNext, hn, ha]; rfl
  | enter hc hp hn ha => rw [transition_deliver hc hp]; simp only [resume, collectNext, hn, ha]; rfl
  | leave hc hp => rw [transition_deliver hc hp]; rfl
  | suspend hc hp => rw [transition_deliver hc hp]; rfl
  | finish hc hp => simp only [transition, hc, hp]; rfl

theorem Stop.transition_eq (hm : Stop h m a m') : m.transition h = .pause a m' h := by
  cases hm with
  | done hc => simp only [transition, hc]
  | halted hc => simp only [transition, hc]
  | malformed hc hf => rw [transition_evaluate hc]; simp only [enterNode, hf, fail]
  | unbound hc hf hv => rw [transition_evaluate hc]; simp only [enterNode, hf, hv, fail]
  | refused hc hp hn ha =>
    rw [transition_deliver hc hp]
    simp only [resume, collectNext, hn, ha, fail]

/-- **Every machine changes or stops.** -/
theorem change_or_stop (h : Heap) (m : Machine) :
    (∃ e h' m', Change h m e h' m') ∨ ∃ a m', Stop h m a m' := by
  cases hc : m.control with
  | finished v => exact .inr ⟨_, _, .done hc⟩
  | halted => exact .inr ⟨_, _, .halted hc⟩
  | evaluate n s =>
    cases hf : Form.ofNode n with
    | error e => exact .inr ⟨_, _, .malformed hc hf⟩
    | ok f =>
      cases f with
      | number x => exact .inl ⟨_, _, _, .value hc (.number hf)⟩
      | identifier x =>
        cases hv : h.lookup s x with
        | some v => exact .inl ⟨_, _, _, .value hc (.identifier hf hv)⟩
        | none => exact .inr ⟨_, _, .unbound hc hf hv⟩
      | conditional c a b => exact .inl ⟨_, _, _, .opened hc (.condition hf)⟩
      | definition x b => exact .inl ⟨_, _, _, .opened hc (.definition hf)⟩
      | abstraction ps b => exact .inl ⟨_, _, _, .value hc (.abstraction hf)⟩
      | application children =>
        cases children with
        | nil => exact .inl ⟨_, _, _, .value hc (.empty hf)⟩
        | cons c rest => exact .inl ⟨_, _, _, .opened hc (.application hf)⟩
  | deliver v =>
    cases hp : m.pending with
    | nil => exact .inl ⟨_, _, _, .finish hc hp⟩
    | cons p rest =>
      cases p with
      | annotate n => exact .inl ⟨_, _, _, .suspend hc hp⟩
      | branch a b s => exact .inl ⟨_, _, _, .branch hc hp⟩
      | define x s => exact .inl ⟨_, _, _, .define hc hp⟩
      | leave f => exact .inl ⟨_, _, _, .leave hc hp⟩
      | collect n vs s =>
        cases hn : n.children[(vs ++ [v]).length]? with
        | some child => exact .inl ⟨_, _, _, .collect hc hp hn⟩
        | none =>
          cases ha : StepLisp.apply (vs ++ [v]) with
          | error cause => exact .inr ⟨_, _, .refused hc hp hn ha⟩
          | ok r =>
            cases r with
            | value w => exact .inl ⟨_, _, _, .apply hc hp hn ha⟩
            | enter c args => exact .inl ⟨_, _, _, .enter hc hp hn ha⟩

/-! ## The rules read off a transition -/

theorem Stop.not_suspended (hm : Stop h m a m') (n : Node) (v : Value) : a ≠ .suspended n v := by
  cases hm <;> simp

theorem change_of_proceed (ht : m.transition h = .proceed m' h' e) : Change h m e h' m' := by
  rcases change_or_stop h m with ⟨e₁, h₁, m₁, hm⟩ | ⟨a, m₁, hm⟩
  · have heq := hm.transition_eq.symm.trans ht
    unfold Transition.after at heq
    split at heq
    · simp at heq
    · obtain ⟨rfl, rfl, rfl⟩ := Transition.proceed.inj heq
      exact hm
  · rw [hm.transition_eq] at ht
    simp at ht

theorem pause_cases (ht : m.transition h = .pause a m' h') :
    (∃ n v, a = .suspended n v ∧ Change h m (some (.suspended n v)) h' m') ∨
      (h' = h ∧ Stop h m a m') := by
  rcases change_or_stop h m with ⟨e₁, h₁, m₁, hm⟩ | ⟨a₁, m₁, hm⟩
  · have heq := hm.transition_eq.symm.trans ht
    unfold Transition.after at heq
    split at heq
    · rename_i n v
      obtain ⟨rfl, rfl, rfl⟩ := Transition.pause.inj heq
      exact .inl ⟨n, v, rfl, hm⟩
    · simp at heq
  · obtain ⟨rfl, rfl, rfl⟩ := Transition.pause.inj (hm.transition_eq.symm.trans ht)
    exact .inr ⟨rfl, hm⟩

end Machine

end StepLisp
