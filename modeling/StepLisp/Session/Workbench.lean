import StepLisp.Session.Stepper

/-!
# The workbench

Several sessions, programs and steppers side by side, each known by its number. The results of the
nodes are shared by all of them: a program that is started twice has one set of results.

* `Parked`, a stepper that is put away, with the texts of the events it heard of;
* `Workbench` and what can be done with it: `newSession`, `parse`, `start`, `advance`, `run`,
  `evaluate`, `define`, `allocate`, `takeHeard`;
* `Workbench.stepper?`, a stepper taken up again.
-/

namespace StepLisp

/-- A stepper that is put away: the numbers of its program and its session, its machine, and the
events since they were last asked for, the latest first. -/
structure Parked where
  tree : Nat
  session : Nat
  machine : Machine
  heard : List String

/-- Sessions, programs and steppers, each in the order of their creation. -/
structure Workbench where
  sessions : Array Session
  trees : Array Tree
  steppers : Array Parked
  results : Results

namespace Workbench

/-- A workbench with one session. -/
def new : Workbench := ⟨#[.new], #[], #[], ∅⟩

instance : Inhabited Workbench := ⟨new⟩

def newSession (w : Workbench) : Nat × Workbench :=
  (w.sessions.size, { w with sessions := w.sessions.push (.numbered w.sessions.size) })

/-- Reads a program with the node numbers of a session. -/
def parse (w : Workbench) (session : Nat) (source : String) :
    Except SyntaxError Nat × Workbench :=
  let s := w.sessions.getD session .new
  let (outcome, s) := s.parse w.trees.size source
  let w := { w with sessions := w.sessions.setIfInBounds session s }
  match outcome with
  | .error e => (.error e, w)
  | .ok t => (.ok w.trees.size, { w with trees := w.trees.push t })

/-- Reads a program with node numbers from zero on. -/
def parseFresh (w : Workbench) (source : String) : Except SyntaxError Nat × Workbench :=
  match (Tree.ofSource w.trees.size ⟨0⟩ source).outcome with
  | .error e => (.error e, w)
  | .ok t => (.ok w.trees.size, { w with trees := w.trees.push t })

def allocate (w : Workbench) (session : Nat) : NodeId × Workbench :=
  let (id, s) := (w.sessions.getD session .new).allocate
  (id, { w with sessions := w.sessions.setIfInBounds session s })

def stepper? (w : Workbench) (k : Nat) : Option Stepper := do
  let b ← w.steppers[k]?
  let t ← w.trees[b.tree]?
  let s ← w.sessions[b.session]?
  some ⟨t, s, w.results, b.machine⟩

/-- Puts a stepper back, with the events it heard of. -/
def put (w : Workbench) (k : Nat) (s : Stepper) (heard : List String) : Workbench :=
  match w.steppers[k]? with
  | none => w
  | some b =>
    { w with
      sessions := w.sessions.setIfInBounds b.session s.session
      steppers := w.steppers.setIfInBounds k { b with machine := s.machine, heard }
      results := s.results }

def start (w : Workbench) (tree session : Nat) : Nat × Workbench :=
  let t := w.trees.getD tree default
  let s := Stepper.start t (w.sessions.getD session .new) w.results
  (w.steppers.size,
    { w with
      sessions := w.sessions.setIfInBounds session s.session
      steppers := w.steppers.push ⟨tree, session, s.machine, []⟩ })

/-- The events that a stepper heard of, with the texts of some more in front. -/
def listen (heard : List String) (events : List Event) (s : Stepper) : List String :=
  events.foldl (fun heard e => s.session.heap.eventText e :: heard) heard

def advance (w : Workbench) (k : Nat) : Option (Answer × Workbench) := do
  let b ← w.steppers[k]?
  let s ← w.stepper? k
  let step := s.advance
  some (step.answer, w.put k step.stepper (listen b.heard step.events step.stepper))

/-- Advances a stepper until its program has a value or fails, at most `limit` times. -/
def run (w : Workbench) (k limit : Nat) : Option (Except Fault Value × Workbench) := do
  let b ← w.steppers[k]?
  let s ← w.stepper? k
  let (outcome, heard, s) ← Stepper.follow listen limit b.heard s
  some (outcome, w.put k s heard)

/-- Runs a program in one pass, with at most `depth` nested evaluations. -/
def evaluate (w : Workbench) (tree session depth : Nat) :
    Option (Except Fault Value × Workbench) := do
  let t ← w.trees[tree]?
  let s ← w.sessions[session]?
  let (outcome, s, results) ← s.evaluate t w.results depth
  some (outcome, { w with sessions := w.sessions.setIfInBounds session s, results })

def define (w : Workbench) (session : Nat) (f : FrameId) (x : String) (v : Value) : Workbench :=
  { w with sessions := w.sessions.modify session (·.define f x v) }

/-- The events that a stepper heard of since this was last asked, in their order. -/
def takeHeard (w : Workbench) (k : Nat) : List String × Workbench :=
  match w.steppers[k]? with
  | none => ([], w)
  | some b =>
    (b.heard.reverse, { w with steppers := w.steppers.setIfInBounds k { b with heard := [] } })

end Workbench

end StepLisp
