import StepLisp.Value.Basic

/-!
# Frames and the heap

A frame binds names to values and may have a parent, which was created before it. The frames of a
session make up its heap: they are created and gain bindings, and never go away.

* `Bindings`, sorted by name, with `Bindings.insert` and `Bindings.find?`;
* `Frame`, `FrameKind`, `Heap`;
* `Heap.allocate`, `Heap.define`, and `Heap.lookup`, which walks from a frame to its parents;
* `Heap.openSession`, a library frame with the primitives and a global frame inside it.
-/

namespace StepLisp

/-- What a frame is for. -/
inductive FrameKind where
  | library
  | global
  | call
deriving DecidableEq, Repr, Inhabited

def FrameKind.text : FrameKind → String
  | .library => "library"
  | .global => "global"
  | .call => "call"

/-- Names with their values, in increasing order of the names, each name once. -/
abbrev Bindings := List (String × Value)

namespace Bindings

/-- Binds `x` to `v`, in place of what it was bound to before. -/
def insert (x : String) (v : Value) : Bindings → Bindings
  | [] => [(x, v)]
  | (y, w) :: rest =>
    if x < y then (x, v) :: (y, w) :: rest
    else if x = y then (x, v) :: rest
    else (y, w) :: insert x v rest

/-- The value that `x` is bound to. -/
def find? (x : String) : Bindings → Option Value
  | [] => none
  | (y, w) :: rest => if x = y then some w else find? x rest

end Bindings

/-- A frame of the environment. -/
structure Frame where
  kind : FrameKind
  parent : Option FrameId
  bindings : Bindings
deriving Inhabited

/-- Binds a name in this frame only. -/
def Frame.define (f : Frame) (x : String) (v : Value) : Frame :=
  { f with bindings := Bindings.insert x v f.bindings }

/-- All frames of a session, and the number of the closure that it creates next. -/
structure Heap where
  frames : Array Frame
  next : ClosureId
deriving Inhabited

namespace Heap

/-- The heap of the session number `i` before anything is in it. -/
def numbered (i : Nat) : Heap := ⟨#[], ⟨i, 0⟩⟩

def empty : Heap := numbered 0

def frame? (h : Heap) (f : FrameId) : Option Frame := h.frames[f.index]?

def allocate (h : Heap) (f : Frame) : FrameId × Heap :=
  (⟨h.frames.size⟩, { h with frames := h.frames.push f })

/-- Binds a name in one frame, whatever its parents bind. -/
def define (h : Heap) (f : FrameId) (x : String) (v : Value) : Heap :=
  { h with frames := h.frames.modify f.index (·.define x v) }

def makeClosure (h : Heap) (params : List String) (body : Node) (scope : FrameId) :
    Closure × Heap :=
  (⟨h.next, params, body, scope⟩, { h with next := h.next.next })

/-- The frames from `f` outwards. A parent is older than its child, so the walk ends. -/
def lineage (h : Heap) (f : FrameId) : List FrameId :=
  match h.frame? f with
  | none => []
  | some frame =>
    match frame.parent with
    | none => [f]
    | some p => if p.index < f.index then f :: h.lineage p else [f]
termination_by f.index

/-- The value of a name, seen from frame `f`: its innermost binding. -/
def lookup (h : Heap) (f : FrameId) (x : String) : Option Value :=
  match h.frame? f with
  | none => none
  | some frame =>
    match Bindings.find? x frame.bindings with
    | some v => some v
    | none =>
      match frame.parent with
      | none => none
      | some p => if p.index < f.index then h.lookup p x else none
termination_by f.index

/-- The bindings of the library frame. -/
def libraryBindings : Bindings :=
  Primitive.all.foldl (fun bs p => Bindings.insert p.name (.primitive p) bs) []

/-- Adds a library frame and a global frame inside it. -/
def openSession (h : Heap) : FrameId × FrameId × Heap :=
  let (library, h) := h.allocate ⟨.library, none, libraryBindings⟩
  let (global, h) := h.allocate ⟨.global, some library, []⟩
  (library, global, h)

end Heap

end StepLisp
