import StepLisp.Source.Node

/-!
# Trees

A program is the list of its top-level forms, held as the children of an expression that is not
written: the root.

* `Tree`, `Tree.nodes`, all nodes in pre-order, and `Tree.node?`, the node with a number;
* `Tree.text`, the forms without the parentheses of the root, and `Tree.same`.
-/

namespace StepLisp

/-- A program that was read. -/
structure Tree where
  root : Node
deriving Inhabited

namespace Tree

/-- All nodes of a tree, the root first, in pre-order. -/
def nodes (t : Tree) : List Node := Node.walk [t.root]

/-- The node with the number `id`, found by its distance from the number of the root. -/
def node? (t : Tree) (id : NodeId) : Option Node :=
  if t.root.id.index ≤ id.index then t.nodes[id.index - t.root.id.index]? else none

def isEmpty (t : Tree) : Bool := t.root.children.isEmpty

/-- The forms of a program in one line, without the parentheses of the root. -/
def text (t : Tree) : String := Node.textAll t.root.children

def same (t u : Tree) : Bool := t.root.same u.root

end Tree

end StepLisp
