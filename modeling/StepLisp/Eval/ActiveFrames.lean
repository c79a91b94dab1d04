import StepLisp.Value.Basic

/-!
# The frames in use

Which frames are active follows from the frames that were entered and left; nothing else is known
of the evaluation here.

* `Event`, what an evaluation tells those who follow it;
* `ActiveFrames`, with `ActiveFrames.push`, `ActiveFrames.pop` and `ActiveFrames.after`.
-/

namespace StepLisp

/-- What happens while a program is stepped through. -/
inductive Event where
  | entered (frame : FrameId)
  | left (frame : FrameId)
  /-- A node got a value, and the evaluation pauses. -/
  | suspended (node : Node) (value : Value)

/-- The active frames, the innermost first. -/
structure ActiveFrames where
  innermost : List FrameId
deriving DecidableEq, Repr, Inhabited

namespace ActiveFrames

def empty : ActiveFrames := ⟨[]⟩

/-- The active frames, the outermost first. -/
def frames (s : ActiveFrames) : List FrameId := s.innermost.reverse

/-- Adds a frame inside all others. -/
def push (s : ActiveFrames) (f : FrameId) : ActiveFrames := ⟨f :: s.innermost⟩

/-- Removes the innermost occurrence of a frame, if there is one. -/
def pop (s : ActiveFrames) (f : FrameId) : ActiveFrames := ⟨s.innermost.erase f⟩

def after (s : ActiveFrames) : Event → ActiveFrames
  | .entered f => s.push f
  | .left f => s.pop f
  | .suspended _ _ => s

end ActiveFrames

end StepLisp
