import StepLisp.Eval.Call

/-!
# Recursive evaluation

Evaluation in one pass, by recursion on the nesting of the program and of its calls. Every node that
gets a value is recorded with it, in the order in which the values become known.

The recursion need not end, so it is given a depth that it may not exceed. Once the depth suffices,
more of it changes nothing.

* `Trail`, the heap and the record of an evaluation under way;
* `evaluateEach`, several nodes from left to right, up to the first fault;
* `evaluate`, the value of a node in a frame.
-/

namespace StepLisp

/-- What an evaluation has done so far. -/
structure Trail where
  heap : Heap
  /-- The nodes with the values they got, the latest first. -/
  written : List (Node × Value)
deriving Inhabited

/-- The end of an evaluation: a value or a fault, with what was done until then; nothing if the
depth did not suffice. -/
abbrev Evaluation (α : Type) := Option (Except Fault α × Trail)

/-- Evaluates the nodes of a list from left to right, up to the first fault. -/
def evaluateEach (ev : Node → Trail → Evaluation Value) : List Node → Trail →
    Evaluation (List Value)
  | [], t => some (.ok [], t)
  | n :: rest, t =>
    match ev n t with
    | none => none
    | some (.error e, t) => some (.error e, t)
    | some (.ok v, t) =>
      match evaluateEach ev rest t with
      | none => none
      | some (.error e, t) => some (.error e, t)
      | some (.ok vs, t) => some (.ok (v :: vs), t)

/-- Records the value of `node`, if it has one. -/
def Evaluation.record (node : Node) : Evaluation Value → Evaluation Value
  | some (.ok v, t) => some (.ok v, { t with written := (node, v) :: t.written })
  | other => other

/-- The value of `node` in the frame `scope`, with at most `depth` nested evaluations. -/
def evaluate (depth : Nat) (node : Node) (scope : FrameId) (t : Trail) : Evaluation Value :=
  match depth with
  | 0 => none
  | depth + 1 =>
    Evaluation.record node <|
      match Form.ofNode node with
      | .error m => some (.error ⟨.malformed m, node⟩, t)
      | .ok (.number x) => some (.ok (.number x), t)
      | .ok (.identifier name) =>
        match t.heap.lookup scope name with
        | some v => some (.ok v, t)
        | none => some (.error ⟨.unbound name, node⟩, t)
      | .ok (.conditional condition consequence alternative) =>
        match evaluate depth condition scope t with
        | some (.ok v, t) =>
          evaluate depth (if v.isTruthy then consequence else alternative) scope t
        | other => other
      | .ok (.definition name value) =>
        match evaluate depth value scope t with
        | some (.ok v, ⟨heap, written⟩) => some (.ok .void, ⟨heap.define scope name v, written⟩)
        | other => other
      | .ok (.abstraction params body) =>
        let ⟨heap, written⟩ := t
        let (c, heap) := heap.makeClosure params body scope
        some (.ok (.closure c), ⟨heap, written⟩)
      | .ok (.application children) =>
        match evaluateEach (fun n => evaluate depth n scope) children t with
        | none => none
        | some (.error e, t) => some (.error e, t)
        | some (.ok values, ⟨heap, written⟩) =>
          match apply values with
          | .error cause => some (.error ⟨cause, node⟩, ⟨heap, written⟩)
          | .ok (.value v) => some (.ok v, ⟨heap, written⟩)
          | .ok (.enter c args) =>
            let (frame, heap) := c.enter args heap
            evaluate depth c.body frame ⟨heap, written⟩

end StepLisp
