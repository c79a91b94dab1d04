import StepLisp.Value.Heap
import StepLisp.Eval.Fault

/-!
# Calls

What the evaluated parts of an application amount to: a primitive gives its result at once, a
closure is entered in a new frame, and anything else at the head makes the whole list the result.

* `Application` and `apply`;
* `Closure.enter`, the frame of a call.
-/

namespace StepLisp

/-- What applying a list of values amounts to. -/
inductive Application where
  | value (v : Value)
  /-- The body of a closure is to be evaluated, in a new frame for these arguments. -/
  | enter (closure : Closure) (args : List Value)

/-- Applies the first of `values` to the rest. -/
def apply : List Value → Except Cause Application
  | .primitive p :: args => .ok (.value (p.call args))
  | .closure c :: args =>
    if args.length = c.arity then .ok (.enter c args)
    else .error (.arity c.arity args.length)
  | values => .ok (.value (.list values))

/-- The bindings of a call: each parameter with its argument, and of a repeated parameter the last
one. -/
def Closure.bindings (c : Closure) (args : List Value) : Bindings :=
  (c.params.zip args).foldl (fun bs p => Bindings.insert p.1 p.2 bs) []

/-- Creates the frame of a call, inside the frame that the closure was created in. -/
def Closure.enter (c : Closure) (args : List Value) (h : Heap) : FrameId × Heap :=
  h.allocate ⟨.call, some c.scope, c.bindings args⟩

end StepLisp
