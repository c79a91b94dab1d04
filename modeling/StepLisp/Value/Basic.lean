import StepLisp.Source.Node

/-!
# Values

The results of evaluation: numbers, booleans, closures, primitive procedures, lists, and void, which
a definition gives. Every value has a truth value and a numeric reading.

* `FrameId`, `Primitive`, `ClosureId`, `Closure`, `Value`;
* `Value.text`, `Value.isTruthy`, `Value.isCallable`, `Value.toNumber`;
* `Value.same`, the equality of values: closures are equal only if they are the same closure, and
  what is not a number is not equal to itself.
-/

namespace StepLisp

/-- The number of a frame in its heap, in the order of creation. -/
structure FrameId where
  index : Nat
deriving DecidableEq, Hashable, Repr, Inhabited

/-- The procedures that are built in. -/
inductive Primitive where
  | add
  | subtract
  | multiply
  | divide
  | less
deriving DecidableEq, Repr, Inhabited

namespace Primitive

def all : List Primitive := [.add, .subtract, .multiply, .divide, .less]

/-- The name that a primitive is bound to. -/
def name : Primitive → String
  | .add => "+"
  | .subtract => "-"
  | .multiply => "*"
  | .divide => "/"
  | .less => "<"

end Primitive

/-- The number of a closure: that of the session that created it, and how many closures this session
had created before. -/
structure ClosureId where
  session : Nat
  index : Nat
deriving DecidableEq, Repr, Inhabited

/-- The closure that is created next in the same session. -/
def ClosureId.next (i : ClosureId) : ClosureId := { i with index := i.index + 1 }

/-- The value of a lambda form: its parameters, its body and the frame it was created in. -/
structure Closure where
  number : ClosureId
  params : List String
  body : Node
  scope : FrameId
deriving Inhabited

namespace Closure

def arity (c : Closure) : Nat := c.params.length

/-- A closure shows its parameters. -/
def text (c : Closure) : String := "<lambda (" ++ " ".intercalate c.params ++ ")>"

end Closure

/-- A primitive shows its name. -/
def Primitive.text (p : Primitive) : String := "<builtin " ++ p.name ++ ">"

/-- The result of evaluating a node. -/
inductive Value where
  | number (x : Float)
  | boolean (b : Bool)
  | closure (c : Closure)
  | primitive (p : Primitive)
  | list (items : List Value)
  | void
deriving Inhabited

namespace Value

/-- What is not a number. -/
def nan : Float := 0.0 / 0.0

/-- False, zero, what is not a number, and void are false; everything else is true. -/
def isTruthy : Value → Bool
  | .number x => !(x == 0.0) && !x.isNaN
  | .boolean b => b
  | .void => false
  | _ => true

def isCallable : Value → Bool
  | .closure _ => true
  | .primitive _ => true
  | _ => false

/-- The numeric reading of a value: booleans count as zero and one, and everything else that is not
a number is not a number. -/
def toNumber : Value → Float
  | .number x => x
  | .boolean b => if b then 1.0 else 0.0
  | _ => nan

mutual

/-- The text of a value. -/
def text : Value → String
  | .number x => numberText x
  | .boolean b => if b then "true" else "false"
  | .closure c => c.text
  | .primitive p => p.text
  | .list items => "(" ++ textAll items ++ ")"
  | .void => "void"

def textAll : List Value → String
  | [] => ""
  | [v] => v.text
  | v :: w :: rest => v.text ++ " " ++ textAll (w :: rest)

end

mutual

/-- Equality of values. -/
def same : Value → Value → Bool
  | .number x, .number y => x == y
  | .boolean a, .boolean b => a == b
  | .closure c, .closure d => c.number == d.number
  | .primitive p, .primitive q => p.name == q.name
  | .list vs, .list ws => sameAll vs ws
  | .void, .void => true
  | _, _ => false

def sameAll : List Value → List Value → Bool
  | [], [] => true
  | v :: vs, w :: ws => v.same w && sameAll vs ws
  | _, _ => false

end

end Value

namespace Primitive

/-- The number read from argument `i`; what is missing is not a number. -/
def operand (args : List Value) (i : Nat) : Float :=
  match args[i]? with
  | some v => v.toNumber
  | none => Value.nan

/-- The result of a primitive. A sum takes all arguments, from the left and from negative zero, and
the other primitives take the first two. -/
def call : Primitive → List Value → Value
  | .add, args => .number (args.foldl (fun sum v => sum + v.toNumber) (-0.0))
  | .subtract, args => .number (operand args 0 - operand args 1)
  | .multiply, args => .number (operand args 0 * operand args 1)
  | .divide, args => .number (operand args 0 / operand args 1)
  | .less, args => .boolean (operand args 0 < operand args 1)

end Primitive

end StepLisp
