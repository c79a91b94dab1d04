import Std.Data.HashMap
import StepLisp.Source.Parse
import StepLisp.Eval.Recursive

/-!
# Sessions

A session is what successive programs share: the heap with the library and the global frame, the
next free node number, and the nodes of all programs that were started in it, by which the body of a
closure is found again that an earlier program defined.

* `Results`, the last value of every node that was evaluated, of all trees;
* `Session`, `Session.numbered`, `Session.parse`, `Session.register`, `Session.node?`;
* `Session.evaluate`, which runs a program in one pass.
-/

namespace StepLisp

/-- The last value of every node that was evaluated, by the place of the node. -/
abbrev Results := Std.HashMap Place Value

namespace Results

/-- Notes the value of a node, in place of an earlier one. -/
def record (r : Results) (node : Node) (value : Value) : Results := r.insert node.place value

/-- The last value of a node. -/
def of? (r : Results) (node : Node) : Option Value := r[node.place]?

/-- Notes a list of values, the latest first in the list. -/
def recordAll (r : Results) (written : List (Node × Value)) : Results :=
  written.foldr (fun w r => r.record w.1 w.2) r

/-- The nodes of a tree that have a value, in pre-order. -/
def inTree (r : Results) (t : Tree) : List (NodeId × Value) :=
  t.nodes.filterMap fun n => (r.of? n).map fun v => (n.id, v)

end Results

/-- What successive programs share. -/
structure Session where
  heap : Heap
  library : FrameId
  global : FrameId
  /-- The next free node number. -/
  next : NodeId
  /-- The nodes of the programs that were started, by number; a later one replaces an earlier. -/
  started : Std.HashMap NodeId Node

namespace Session

/-- A new session, which is the number `i` among the sessions that there are. -/
def numbered (i : Nat) : Session :=
  let (library, global, heap) := (Heap.numbered i).openSession
  ⟨heap, library, global, ⟨0⟩, ∅⟩

def new : Session := numbered 0

instance : Inhabited Session := ⟨new⟩

def allocate (s : Session) : NodeId × Session := (s.next, { s with next := ⟨s.next.index + 1⟩ })

/-- Reads a program as tree number `tree`, with node numbers that no other program of this session
has. -/
def parse (s : Session) (tree : Nat) (source : String) : Except SyntaxError Tree × Session :=
  let r := Tree.ofSource tree s.next source
  (r.outcome, { s with next := r.next })

/-- Makes the nodes of a program known to the session. -/
def register (s : Session) (t : Tree) : Session :=
  { s with started := t.nodes.foldl (fun known n => known.insert n.id n) s.started }

/-- The node with a number, of the programs that were started. -/
def node? (s : Session) (id : NodeId) : Option Node := s.started[id]?

def lookup (s : Session) (x : String) : Option Value := s.heap.lookup s.global x

def define (s : Session) (f : FrameId) (x : String) (v : Value) : Session :=
  { s with heap := s.heap.define f x v }

/-- Runs a program in one pass, with at most `depth` nested evaluations. -/
def evaluate (s : Session) (t : Tree) (r : Results) (depth : Nat) :
    Option (Except Fault Value × Session × Results) :=
  match s with
  | ⟨heap, library, global, next, started⟩ =>
    match StepLisp.evaluate depth t.root global ⟨heap, []⟩ with
    | none => none
    | some (outcome, ⟨heap, written⟩) =>
      some (outcome, ⟨heap, library, global, next, started⟩, r.recordAll written)

end Session

end StepLisp
