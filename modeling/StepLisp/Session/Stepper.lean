import StepLisp.Session.Basic
import StepLisp.Eval.Machine
import StepLisp.Report.View

/-!
# Stepping through a program

A stepper is a machine with all it works on: its program, its session and the results of the nodes.

* `Stepper`, `Stepper.start`, `Stepper.advance`;
* `Stepper.follow` and `Stepper.run`, which advance until the program has a value or fails;
* `Stepper.node?` and `Stepper.result?`, which find a node in the program or in the session;
* `Snapshot`, what a paused stepper shows, and its text.
-/

namespace StepLisp

/-- A program that is stepped through. -/
structure Stepper where
  tree : Tree
  session : Session
  results : Results
  machine : Machine

structure Step where
  answer : Answer
  events : List Event
  stepper : Stepper

/-- The results after some events. -/
def Results.follow (r : Results) (events : List Event) : Results :=
  events.foldl
    (fun r e =>
      match e with
      | .suspended node value => r.record node value
      | _ => r)
    r

namespace Stepper

/-- A stepper at the start of a program, whose nodes become known to the session. -/
def start (t : Tree) (s : Session) (r : Results) : Stepper where
  tree := t
  session := s.register t
  results := r
  machine := .start t.root s.library s.global

/-- Goes on up to the next answer. -/
def advance : Stepper → Step
  | ⟨tree, ⟨heap, library, global, next, started⟩, results, machine⟩ =>
    match machine.advance heap with
    | ⟨answer, machine, heap, events⟩ =>
      { answer, events
        stepper :=
          ⟨tree, ⟨heap, library, global, next, started⟩, results.follow events, machine⟩ }

/-- Advances at most `limit` times, until the program has a value or fails; `listen` hears the
events of each advance together with the stepper behind it. -/
def follow {σ : Type} (listen : σ → List Event → Stepper → σ) :
    Nat → σ → Stepper → Option (Except Fault Value × σ × Stepper)
  | 0, _, _ => none
  | limit + 1, heard, s =>
    match s.advance with
    | ⟨answer, events, s⟩ =>
      let heard := listen heard events s
      match answer with
      | .suspended _ _ => follow listen limit heard s
      | .done v => some (.ok v, heard, s)
      | .failed e => some (.error e, heard, s)

def run (s : Stepper) (limit : Nat) : Option (Except Fault Value × Stepper) :=
  match follow (fun u _ _ => u) limit () s with
  | none => none
  | some (outcome, _, s) => some (outcome, s)

/-- The node with a number, of this program or else of the session. -/
def node? (s : Stepper) (id : NodeId) : Option Node :=
  match s.tree.node? id with
  | some n => some n
  | none => s.session.node? id

/-- The last value of the node with a number. -/
def result? (s : Stepper) (id : NodeId) : Option Value := (s.node? id).bind s.results.of?

end Stepper

/-- What a paused stepper shows. -/
structure Snapshot where
  steps : Nat
  /-- The node that got its value last, with its last value. -/
  current : Option (Node × Option Value)
  /-- The active frames, the outermost first. -/
  frames : List FrameView

namespace Snapshot

/-- A snapshot as text: the step in the first line, and the frames in a line each. -/
def text (s : Snapshot) : String :=
  let head := match s.current with
    | none => "<not started>"
    | some (node, none) => node.id.text ++ " " ++ node.text
    | some (node, some v) => node.id.text ++ " " ++ node.text ++ " => " ++ v.text
  s.frames.foldl (fun lines f => lines ++ "\n    " ++ f.text)
    ("step " ++ s.steps.repr ++ ": " ++ head)

end Snapshot

/-- What a stepper shows. -/
def Stepper.snapshot (s : Stepper) : Snapshot where
  steps := s.machine.steps
  current := s.machine.current.map fun n => (n, s.results.of? n)
  frames := s.machine.frames.frames.map s.session.heap.view

end StepLisp
