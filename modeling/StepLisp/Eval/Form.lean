import StepLisp.Source.Node

/-!
# Forms

How a node is evaluated is decided by the identifier at its head, at the time of evaluation: `if`,
`define` and `lambda` introduce special forms, which must have the right parts, and every other
expression is an application.

* `Form`, `Malformed`, and `Form.ofNode`, the form of a node;
* `Form.ofNode_eq_conditional`, `Form.ofNode_eq_definition`, `Form.ofNode_eq_abstraction`,
  `Form.ofNode_eq_application`: which nodes have these forms.
-/

namespace StepLisp

/-- How a node is evaluated. -/
inductive Form where
  | number (x : Float)
  | identifier (name : String)
  | conditional (condition consequence alternative : Node)
  | definition (name : String) (value : Node)
  | abstraction (params : List String) (body : Node)
  | application (children : List Node)

/-- What is wrong with a special form. -/
inductive Malformed where
  /-- An `if` has not four parts. -/
  | conditionalParts
  /-- A `define` has not three parts. -/
  | definitionParts
  /-- The second part of a `define` is not an identifier. -/
  | definedName
  /-- A `lambda` has not three parts. -/
  | abstractionParts
  /-- The second part of a `lambda` is not an expression. -/
  | parameterList
  /-- A parameter of a `lambda` is not an identifier. -/
  | parameterName
deriving DecidableEq, Repr

namespace Malformed

/-- The form that is malformed. -/
def form : Malformed → String
  | .conditionalParts => "if"
  | .definitionParts => "define"
  | .definedName => "define"
  | .abstractionParts => "lambda"
  | .parameterList => "lambda"
  | .parameterName => "lambda"

/-- What the form asks for. -/
def reason : Malformed → String
  | .conditionalParts => "expected (if condition consequence alternative)"
  | .definitionParts => "expected (define name value)"
  | .definedName => "the defined name must be an identifier"
  | .abstractionParts => "expected (lambda (params...) body)"
  | .parameterList => "parameters must be a parenthesized list"
  | .parameterName => "every parameter must be an identifier"

end Malformed

namespace Form

def conditionalOf : List Node → Except Malformed Form
  | [_, condition, consequence, alternative] => .ok (.conditional condition consequence alternative)
  | _ => .error .conditionalParts

def definitionOf : List Node → Except Malformed Form
  | [_, name, value] =>
    match name.identifier? with
    | some x => .ok (.definition x value)
    | none => .error .definedName
  | _ => .error .definitionParts

def abstractionOf : List Node → Except Malformed Form
  | [_, .expression _ _ params, body] =>
    match params.mapM Node.identifier? with
    | some names => .ok (.abstraction names body)
    | none => .error .parameterName
  | [_, .atom _ _ _, _] => .error .parameterList
  | _ => .error .abstractionParts

/-- The form of a node. -/
def ofNode : Node → Except Malformed Form
  | .atom _ _ (.number x) => .ok (.number x)
  | .atom _ _ (.identifier name) => .ok (.identifier name)
  | .expression _ _ children =>
    match children.head?.bind Node.identifier? with
    | some "if" => conditionalOf children
    | some "define" => definitionOf children
    | some "lambda" => abstractionOf children
    | _ => .ok (.application children)

theorem ofNode_eq_conditional {n c a b : Node} (h : Form.ofNode n = .ok (.conditional c a b)) :
    ∃ head, head.identifier? = some "if" ∧ n.children = [head, c, a, b] := by
  unfold Form.ofNode at h
  split at h
  · simp at h
  · simp at h
  · rename_i children
    split at h
    · rename_i hif
      unfold conditionalOf at h
      split at h
      · simp_all [Node.children]
      · simp at h
    · unfold definitionOf at h
      split at h
      · split at h <;> simp at h
      · simp at h
    · unfold abstractionOf at h
      split at h
      · split at h <;> simp at h
      · simp at h
      · simp at h
    · simp at h

theorem ofNode_eq_definition {n value : Node} {x : String}
    (h : Form.ofNode n = .ok (.definition x value)) :
    ∃ head name, head.identifier? = some "define" ∧ name.identifier? = some x ∧
      n.children = [head, name, value] := by
  unfold Form.ofNode at h
  split at h
  · simp at h
  · simp at h
  · rename_i children
    split at h
    · unfold conditionalOf at h
      split at h <;> simp at h
    · unfold definitionOf at h
      split at h
      · split at h <;> simp_all [Node.children]
      · simp at h
    · unfold abstractionOf at h
      split at h
      · split at h <;> simp at h
      · simp at h
      · simp at h
    · simp at h

theorem ofNode_eq_abstraction {n body : Node} {params : List String}
    (h : Form.ofNode n = .ok (.abstraction params body)) :
    ∃ head list, head.identifier? = some "lambda" ∧ n.children = [head, list, body] := by
  unfold Form.ofNode at h
  split at h
  · simp at h
  · simp at h
  · rename_i children
    split at h
    · unfold conditionalOf at h
      split at h <;> simp at h
    · unfold definitionOf at h
      split at h
      · split at h <;> simp at h
      · simp at h
    · unfold abstractionOf at h
      split at h
      · split at h <;> simp_all [Node.children]
      · simp at h
      · simp at h
    · simp at h

theorem ofNode_eq_application {n : Node} {children : List Node}
    (h : Form.ofNode n = .ok (.application children)) : n.children = children := by
  unfold Form.ofNode at h
  split at h
  · simp at h
  · simp at h
  · split at h
    · unfold conditionalOf at h
      split at h <;> simp at h
    · unfold definitionOf at h
      split at h
      · split at h <;> simp at h
      · simp at h
    · unfold abstractionOf at h
      split at h
      · split at h <;> simp at h
      · simp at h
      · simp at h
    · simpa [Node.children] using h

end Form

end StepLisp
