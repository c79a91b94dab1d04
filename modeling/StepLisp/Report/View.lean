import StepLisp.Value.Heap
import StepLisp.Eval.ActiveFrames

/-!
# Views of frames

What a frame shows: its kind and its bindings in increasing order of the names, each with the text
of its value.

* `BindingView`, `FrameView`, and `Frame.view`, the view of a frame;
* `FrameView.find?`, the entry of a name, and `FrameView.text`.
-/

namespace StepLisp

/-- What a binding shows. -/
structure BindingView where
  name : String
  value : String
  /-- Whether the value can be called; then only the name is shown in a line. -/
  callable : Bool
deriving DecidableEq, Repr, Inhabited

/-- What a frame shows. -/
structure FrameView where
  kind : FrameKind
  bindings : List BindingView
deriving DecidableEq, Repr, Inhabited

/-- The view of a frame. -/
def Frame.view (f : Frame) : FrameView where
  kind := f.kind
  bindings := f.bindings.map fun b => ⟨b.1, b.2.text, b.2.isCallable⟩

/-- The view of a frame of a heap. -/
def Heap.view (h : Heap) (f : FrameId) : FrameView := ((h.frame? f).getD default).view

namespace FrameView

/-- The entry of a name in this very frame. -/
def find? (v : FrameView) (x : String) : Option BindingView := v.bindings.find? (·.name == x)

/-- A frame in one line: its kind, then its bindings. -/
def text (v : FrameView) : String :=
  v.bindings.foldl
    (fun line b =>
      if b.callable then line ++ " " ++ b.name else line ++ " " ++ b.name ++ " : " ++ b.value)
    ("[" ++ v.kind.text ++ "]")

end FrameView

/-- The text of an event, in the heap it happened in. -/
def Heap.eventText (h : Heap) : Event → String
  | .entered f => "push " ++ (h.view f).text
  | .left f => "pop " ++ (h.view f).text
  | .suspended node value => "suspend " ++ node.id.text ++ " " ++ value.text

end StepLisp
