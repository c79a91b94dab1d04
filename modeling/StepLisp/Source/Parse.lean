import StepLisp.Source.Token
import StepLisp.Source.Tree

/-!
# Reading programs

The tokens of a program are read from left to right with a stack of the expressions whose closing
parenthesis is still to come. Nodes get their numbers when they begin: the root first, then every
opening parenthesis and every atom in the order of the text.

* `SyntaxError` and its text;
* `Reading`, a program under way, and `Reading.finish`, what is left after all tokens;
* `Tree.ofTokens` and `Tree.ofSource`, which also tell the next free number: a program that is
  refused has used numbers up to the fault.
-/

namespace StepLisp

/-- Why a text is not a program. -/
inductive SyntaxError where
  /-- An opening parenthesis has no counterpart: its span. -/
  | unterminated (opening : Span)
  /-- A closing parenthesis has no counterpart: its span. -/
  | unexpectedClose (closing : Span)
deriving DecidableEq, Repr

def SyntaxError.message : SyntaxError → String
  | .unterminated s => "Unterminated expression: \"(\" at " ++ s.text ++ " is never closed"
  | .unexpectedClose s => "Unexpected \")\" at " ++ s.text ++ " with no matching \"(\""

/-- An expression whose closing parenthesis is still to come. -/
structure OpenExpression where
  id : NodeId
  opening : Span
  /-- The finished nodes of the level around it, the newest first. -/
  before : List Node

/-- A program under way. -/
structure Reading where
  /-- The next free node number. -/
  next : Nat
  /-- The finished nodes of the innermost level, the newest first. -/
  items : List Node
  /-- The expressions that are open, the innermost first. -/
  unclosed : List OpenExpression

/-- What reading a program gives: a tree or an error, and the next free node number. -/
structure ParseResult where
  outcome : Except SyntaxError Tree
  next : NodeId

namespace Reading

/-- Reads the remaining tokens of tree number `tree`, up to the first fault. -/
def finish (tree : Nat) (r : Reading) : List Token → Reading × Option SyntaxError
  | [] => (r, r.unclosed.head?.map fun e => .unterminated e.opening)
  | t :: rest =>
    match t.kind with
    | .opening => finish tree ⟨r.next + 1, [], ⟨⟨r.next⟩, t.span, r.items⟩ :: r.unclosed⟩ rest
    | .atom =>
      finish tree
        ⟨r.next + 1, .atom ⟨tree, ⟨r.next⟩⟩ t.span (.ofText t.text) :: r.items, r.unclosed⟩ rest
    | .closing =>
      match r.unclosed with
      | [] => (r, some (.unexpectedClose t.span))
      | e :: outer =>
        let node := .expression ⟨tree, e.id⟩ (e.opening.join t.span) r.items.reverse
        finish tree ⟨r.next, node :: e.before, outer⟩ rest

end Reading

namespace Tree

/-- The span of a whole program: from its first token to its last. -/
def rootSpan (tokens : List Token) : Span :=
  match tokens.head?, tokens.getLast? with
  | some first, some last => first.span.join last.span
  | _, _ => .empty

/-- The program with the given tokens, as tree number `tree` with node numbers from `first` on. -/
def ofTokens (tree : Nat) (first : NodeId) (tokens : List Token) : ParseResult :=
  let (r, fault) := Reading.finish tree ⟨first.index + 1, [], []⟩ tokens
  match fault with
  | some e => ⟨.error e, ⟨r.next⟩⟩
  | none => ⟨.ok ⟨.expression ⟨tree, first⟩ (rootSpan tokens) r.items.reverse⟩, ⟨r.next⟩⟩

/-- The program with the given text. -/
def ofSource (tree : Nat) (first : NodeId) (source : String) : ParseResult :=
  ofTokens tree first (Token.scan source)

/-- The program with the given text, on its own: tree zero with node numbers from zero on. -/
def parse (source : String) : Except SyntaxError Tree := (ofSource 0 ⟨0⟩ source).outcome

end Tree

end StepLisp
