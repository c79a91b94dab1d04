import StepLisp.Eval.Recursive

/-!
# Laws of the recursive evaluator

The recursive evaluator as a chain of evaluations, with one law for each form of a node.

* `Evaluation.andThen`, an evaluation followed by one that takes its value;
* `evaluateEach_cons`, the nodes of a list one after the other;
* `applyAll`, what becomes of the evaluated parts of an application;
* `evaluate_malformed`, `evaluate_number`, `evaluate_identifier`, `evaluate_conditional`,
  `evaluate_definition`, `evaluate_abstraction`, `evaluate_application`: the laws.
-/

namespace StepLisp

/-- An evaluation followed by one that takes its value; a fault or a missing end stays. -/
def Evaluation.andThen {α β : Type} (r : Evaluation α) (next : α → Trail → Evaluation β) :
    Evaluation β :=
  match r with
  | none => none
  | some (.error e, t) => some (.error e, t)
  | some (.ok a, t) => next a t

namespace Evaluation

variable {α β : Type} (next : α → Trail → Evaluation β)

@[simp] theorem andThen_ok (a : α) (t : Trail) : andThen (some (.ok a, t)) next = next a t := rfl

theorem andThen_assoc {γ : Type} (r : Evaluation α) (last : β → Trail → Evaluation γ) :
    (r.andThen next).andThen last = r.andThen fun a t => (next a t).andThen last := by
  rcases r with _ | ⟨e | a, t⟩ <;> rfl

@[simp] theorem record_ok (n : Node) (v : Value) (t : Trail) :
    record n (some (.ok v, t)) = some (.ok v, ⟨t.heap, (n, v) :: t.written⟩) := rfl

end Evaluation

/-- The value of an application whose parts have the values `values`. -/
def applyAll (depth : Nat) (node : Node) (values : List Value) (t : Trail) : Evaluation Value :=
  match apply values with
  | .error cause => some (.error ⟨cause, node⟩, t)
  | .ok (.value v) => some (.ok v, t)
  | .ok (.enter c args) =>
    evaluate depth c.body (c.enter args t.heap).1 ⟨(c.enter args t.heap).2, t.written⟩

/-! ## Lists of nodes -/

section Each

variable (ev : Node → Trail → Evaluation Value) (t : Trail)

theorem evaluateEach_nil : evaluateEach ev [] t = some (.ok [], t) := rfl

theorem evaluateEach_cons (n : Node) (rest : List Node) :
    evaluateEach ev (n :: rest) t = (ev n t).andThen fun v t =>
      (evaluateEach ev rest t).andThen fun vs t => some (.ok (v :: vs), t) := by
  rw [evaluateEach]
  rcases ev n t with _ | ⟨e | v, t₁⟩
  · rfl
  · rfl
  · dsimp only [Evaluation.andThen_ok]
    rcases evaluateEach ev rest t₁ with _ | ⟨e | vs, t₂⟩ <;> rfl

end Each

/-! ## One law for each form -/

section Forms

variable {depth : Nat} {n : Node} {s : FrameId} {t : Trail}

theorem evaluate_malformed {e : Malformed} (h : Form.ofNode n = .error e) :
    evaluate (depth + 1) n s t = some (.error ⟨.malformed e, n⟩, t) := by
  rw [evaluate, h]
  rfl

theorem evaluate_number {x : Float} (h : Form.ofNode n = .ok (.number x)) :
    evaluate (depth + 1) n s t = Evaluation.record n (some (.ok (.number x), t)) := by
  rw [evaluate, h]

theorem evaluate_identifier {x : String} (h : Form.ofNode n = .ok (.identifier x)) :
    evaluate (depth + 1) n s t = Evaluation.record n
      (match t.heap.lookup s x with
        | some v => some (.ok v, t)
        | none => some (.error ⟨.unbound x, n⟩, t)) := by
  rewrite [evaluate, h]
  rfl

theorem evaluate_conditional {c a b : Node} (h : Form.ofNode n = .ok (.conditional c a b)) :
    evaluate (depth + 1) n s t = Evaluation.record n ((evaluate depth c s t).andThen fun v t =>
      evaluate depth (if v.isTruthy then a else b) s t) := by
  rw [evaluate, h]
  dsimp only
  rcases evaluate depth c s t with _ | ⟨e | v, t₁⟩ <;> rfl

theorem evaluate_definition {x : String} {b : Node} (h : Form.ofNode n = .ok (.definition x b)) :
    evaluate (depth + 1) n s t = Evaluation.record n ((evaluate depth b s t).andThen fun v t =>
      some (.ok .void, ⟨t.heap.define s x v, t.written⟩)) := by
  rw [evaluate, h]
  dsimp only
  rcases evaluate depth b s t with _ | ⟨e | v, t₁⟩ <;> rfl

theorem evaluate_abstraction {ps : List String} {b : Node}
    (h : Form.ofNode n = .ok (.abstraction ps b)) :
    evaluate (depth + 1) n s t = Evaluation.record n
      (some (.ok (.closure (t.heap.makeClosure ps b s).1),
        ⟨(t.heap.makeClosure ps b s).2, t.written⟩)) := by
  rw [evaluate, h]

theorem evaluate_application {children : List Node}
    (h : Form.ofNode n = .ok (.application children)) :
    evaluate (depth + 1) n s t = Evaluation.record n
      ((evaluateEach (fun n => evaluate depth n s) children t).andThen
        (applyAll depth n)) := by
  rw [evaluate, h]
  dsimp only
  rcases evaluateEach (fun n => evaluate depth n s) children t with _ | ⟨e | vs, t₁⟩
  · rfl
  · rfl
  · rfl

end Forms

end StepLisp
