import StepLisp.Report.Quoted
import StepLisp.Session.Basic

/-!
# Inspections

Everything there is to see of a node, a value, a fault or a frame: records with named fields, nested
as the things are. Where a frame lives is not shown; `PTR` stands for it.

* `Value.inspect`, `Node.inspect`, `Fault.inspect`, `Frame.inspect`.
-/

namespace StepLisp

namespace Layout

/-- A record: its name and its fields. -/
def record (name : String) (fields : List (String × String)) : String :=
  name ++ " \x7b " ++ ", ".intercalate (fields.map fun f => f.1 ++ ": " ++ f.2) ++ " \x7d"

/-- Something with the name of its kind in front. -/
def tagged (name content : String) : String := name ++ "(" ++ content ++ ")"

/-- Several things in a row. -/
def row (items : List String) : String := "[" ++ ", ".intercalate items ++ "]"

/-- Something that may be missing. -/
def possible : Option String → String
  | none => "None"
  | some s => tagged "Some" s

/-- Where a frame lives. -/
def address : String := "PTR"

end Layout

open Layout

/-- The inspection of a node number. -/
def NodeId.inspect (id : NodeId) : String := tagged "NodeId" id.index.repr

/-- The inspection of a span. -/
def Span.inspect (s : Span) : String :=
  record "Span" [("start_line", s.start.line.repr), ("start_column", s.start.column.repr),
    ("end_line", s.stop.line.repr), ("end_column", s.stop.column.repr)]

/-- The inspection of a closure. -/
def Closure.inspect (c : Closure) : String :=
  record "Closure" [("params", row (c.params.map quote)), ("body", quote c.body.text),
    ("scope", address)]

namespace Value

mutual

/-- The inspection of a value. -/
def inspect : Value → String
  | .number x => tagged "Number" (NumberFormat.detailed.write x)
  | .boolean b => tagged "Boolean" (if b then "true" else "false")
  | .closure c => tagged "Closure" c.inspect
  | .primitive p => tagged "Builtin" (tagged "Builtin" p.name)
  | .list items => tagged "List" (row (inspectAll items))
  | .void => "Void"

/-- The inspections of several values. -/
def inspectAll : List Value → List String
  | [] => []
  | v :: rest => v.inspect :: inspectAll rest

end

end Value

/-- The inspection of an atom. -/
def Atom.inspect : Atom → String
  | .number x => tagged "Number" (NumberFormat.detailed.write x)
  | .identifier name => tagged "Identifier" (quote name)

namespace Node

/-- A node with its inspected content and its last value. -/
def inspectWith (place : Place) (span : Span) (kind : String) (r : Results) : String :=
  record "Node" [("id", place.id.inspect), ("kind", kind), ("span", span.inspect),
    ("result", possible (r[place]?.map Value.inspect))]

mutual

/-- The inspection of a node, with the last values of all its nodes. -/
def inspect (r : Results) : Node → String
  | .atom place span content => inspectWith place span content.inspect r
  | .expression place span children =>
    inspectWith place span (tagged "Expression" (row (inspectAll r children))) r

/-- The inspections of several nodes. -/
def inspectAll (r : Results) : List Node → List String
  | [] => []
  | n :: rest => n.inspect r :: inspectAll r rest

end

end Node

/-- The inspection of a cause. -/
def Cause.inspect : Cause → String
  | .unbound name => tagged "UnboundIdentifier" (quote name)
  | .arity expected found =>
    record "ArityMismatch" [("expected", expected.repr), ("found", found.repr)]
  | .malformed m =>
    record "MalformedSpecialForm" [("form", quote m.form), ("reason", quote m.reason)]
  | .halted => "Halted"

/-- The inspection of a fault. -/
def Fault.inspect (f : Fault) : String :=
  record "Execution" [("kind", f.cause.inspect), ("node", f.node.id.inspect),
    ("expression", quote f.node.text), ("span", f.node.span.inspect)]

/-- The inspection of the end of an evaluation. -/
def inspectOutcome : Except Fault Value → String
  | .ok v => tagged "Ok" v.inspect
  | .error f => tagged "Err" f.inspect

/-- The inspection of a kind of frame. -/
def FrameKind.inspect : FrameKind → String
  | .library => "Library"
  | .global => "Global"
  | .call => "Call"

/-- The inspection of a frame. -/
def Frame.inspect (f : Frame) : String :=
  record ("Scope<" ++ address ++ ">")
    [("kind", f.kind.inspect),
      ("bindings", row (f.bindings.map fun b => "(" ++ quote b.1 ++ ", " ++ quote b.2.text ++ ")")),
      ("parent", possible (f.parent.map fun _ => address))]

end StepLisp
