import StepLisp.Source.Position
import StepLisp.Number.Format
import StepLisp.Number.Numeral

/-!
# Nodes

The nodes of a program: numbers, identifiers, and expressions over nodes. Every node knows its
place, which tells it apart from every other node, and the span it was read from; its shape is all
that counts for equality and for its text.

* `NodeId`, `Place`, `Atom`, `Node`;
* `Node.text`, the source text of a node, and `Node.same`, equality of shape;
* `Node.walk`, the nodes of a list of trees, each before its children.
-/

namespace StepLisp

/-- The number of a node. Within one tree the numbers follow each other in pre-order. -/
structure NodeId where
  index : Nat
deriving DecidableEq, Hashable, Repr, Inhabited

/-- A node identifier is shown as `#n`. -/
def NodeId.text (id : NodeId) : String := "#" ++ id.index.repr

/-- Where a node lives: the number of its tree and its own number. Two trees may use the same node
numbers, so the place is what a result is recorded under. -/
structure Place where
  tree : Nat
  id : NodeId
deriving DecidableEq, Hashable, Repr, Inhabited

/-- A node without children. -/
inductive Atom where
  | number (x : Float)
  | identifier (name : String)

namespace Atom

/-- An atom is a number if its text is a numeral, and otherwise an identifier. -/
def ofText (text : String) : Atom :=
  match Numeral.read? text with
  | some x => .number x
  | none => .identifier text

/-- The source text of an atom. -/
def text : Atom → String
  | .number x => numberText x
  | .identifier name => name

/-- Equality of atoms: numbers by numeric equality, identifiers by name. -/
def same : Atom → Atom → Bool
  | .number x, .number y => x == y
  | .identifier a, .identifier b => a == b
  | _, _ => false

end Atom

/-- A node of a program. -/
inductive Node where
  | atom (place : Place) (span : Span) (content : Atom)
  | expression (place : Place) (span : Span) (children : List Node)

namespace Node

instance : Inhabited Node := ⟨.expression default default []⟩

def place : Node → Place
  | .atom place _ _ => place
  | .expression place _ _ => place

def id (n : Node) : NodeId := n.place.id

/-- The piece of the source a node was read from. -/
def span : Node → Span
  | .atom _ span _ => span
  | .expression _ span _ => span

/-- The children of an expression; an atom has none. -/
def children : Node → List Node
  | .atom _ _ _ => []
  | .expression _ _ children => children

def identifier? : Node → Option String
  | .atom _ _ (.identifier name) => some name
  | _ => none

mutual

/-- How many nodes a node consists of. -/
def size : Node → Nat
  | .atom _ _ _ => 1
  | .expression _ _ children => sizeAll children + 1

def sizeAll : List Node → Nat
  | [] => 0
  | n :: rest => n.size + sizeAll rest

end

mutual

/-- The source text of a node, in one line. -/
def text : Node → String
  | .atom _ _ content => content.text
  | .expression _ _ children => "(" ++ textAll children ++ ")"

def textAll : List Node → String
  | [] => ""
  | [n] => n.text
  | n :: m :: rest => n.text ++ " " ++ textAll (m :: rest)

end

mutual

/-- Equality of shape: places and spans do not count. -/
def same : Node → Node → Bool
  | .atom _ _ a, .atom _ _ b => a.same b
  | .expression _ _ as, .expression _ _ bs => sameAll as bs
  | _, _ => false

def sameAll : List Node → List Node → Bool
  | [], [] => true
  | a :: as, b :: bs => a.same b && sameAll as bs
  | _, _ => false

end

theorem size_pos (n : Node) : 0 < n.size := by
  cases n <;> simp [size]

theorem sizeAll_append (as bs : List Node) : sizeAll (as ++ bs) = sizeAll as + sizeAll bs := by
  induction as with
  | nil => simp [sizeAll]
  | cons a as ih => simp [sizeAll, ih, Nat.add_assoc]

theorem size_eq (n : Node) : n.size = sizeAll n.children + 1 := by
  cases n <;> simp [size, children, sizeAll]

theorem size_lt_of_mem {n child : Node} (h : child ∈ n.children) : child.size < n.size := by
  have le : ∀ ns : List Node, child ∈ ns → child.size ≤ sizeAll ns := by
    intro ns hc
    induction ns with
    | nil => cases hc
    | cons m rest ih =>
      rw [sizeAll]
      rcases List.mem_cons.mp hc with rfl | hr
      · omega
      · have := ih hr
        omega
  have := le n.children h
  have := size_eq n
  omega

/-- The nodes of a list of trees, each node before its children and these before its successor. -/
def walk : List Node → List Node
  | [] => []
  | n :: rest => n :: walk (n.children ++ rest)
termination_by ns => sizeAll ns
decreasing_by rw [sizeAll_append, sizeAll, size_eq]; omega

end Node

end StepLisp
