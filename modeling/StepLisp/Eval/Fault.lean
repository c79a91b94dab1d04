import StepLisp.Eval.Form

/-!
# Faults

Why an evaluation fails, and at which node.

* `Cause` and `Cause.message`, the reason alone;
* `Fault` and `Fault.message`, which shows the node and where it stands.
-/

namespace StepLisp

/-- Why a node has no value. -/
inductive Cause where
  /-- No frame in sight binds the name. -/
  | unbound (name : String)
  /-- A closure was called with the wrong number of arguments. -/
  | arity (expected found : Nat)
  /-- A special form has the wrong parts. -/
  | malformed (m : Malformed)
  /-- An earlier step failed already. -/
  | halted
deriving DecidableEq, Repr

def Cause.message : Cause → String
  | .unbound name => "Unbound identifier: " ++ name
  | .arity expected found =>
    "Arity mismatch: closure takes " ++ expected.repr ++ " arguments but was given " ++ found.repr
  | .malformed m => "Malformed " ++ m.form ++ ": " ++ m.reason
  | .halted => "Evaluation already failed, no further steps are possible"

/-- A failed evaluation: why, and at which node. -/
structure Fault where
  cause : Cause
  node : Node

def Fault.message (f : Fault) : String :=
  "Error evaluating " ++ f.node.text ++ " at " ++ f.node.span.text ++ " - " ++ f.cause.message

end StepLisp
