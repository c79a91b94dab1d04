/-!
# Positions and spans

A position is a line and a column of a text, both counted from one; columns count characters. A
span runs from a start up to an end that it leaves out.

* `Position`, ordered by line and then by column, and `Position.after`, the position behind a
  character;
* `Span.onLine`, `Span.join`, the smallest span that covers two spans, and `Span.text`.
-/

namespace StepLisp

/-- A place in a text. -/
structure Position where
  line : Nat
  column : Nat
deriving DecidableEq, Repr, Inhabited

namespace Position

def first : Position := ⟨1, 1⟩

/-- Positions are ordered by line, and within a line by column. -/
instance : LE Position :=
  ⟨fun p q => p.line < q.line ∨ (p.line = q.line ∧ p.column ≤ q.column)⟩

theorem le_def (p q : Position) :
    p ≤ q ↔ p.line < q.line ∨ (p.line = q.line ∧ p.column ≤ q.column) := Iff.rfl

instance (p q : Position) : Decidable (p ≤ q) := decidable_of_iff _ (le_def p q).symm

def earlier (p q : Position) : Position := if p ≤ q then p else q

def later (p q : Position) : Position := if q ≤ p then p else q

/-- The position behind the character `c` at `p`: a line feed starts a new line, and every other
character takes one column. -/
def after (p : Position) (c : Char) : Position :=
  if c = '\n' then ⟨p.line + 1, 1⟩ else ⟨p.line, p.column + 1⟩

/-- The position behind a piece of text that starts at `p`. -/
def afterAll (p : Position) (cs : List Char) : Position := cs.foldl after p

end Position

/-- A piece of a text: from `start` up to `stop`, which is left out. -/
structure Span where
  start : Position
  stop : Position
deriving DecidableEq, Repr, Inhabited

namespace Span

/-- The span of a text that has no tokens. -/
def empty : Span := ⟨⟨0, 0⟩, ⟨0, 0⟩⟩

/-- The span of `length` characters on one line. -/
def onLine (p : Position) (length : Nat) : Span := ⟨p, ⟨p.line, p.column + length⟩⟩

/-- The smallest span that covers `a` and `b`. -/
def join (a b : Span) : Span := ⟨a.start.earlier b.start, a.stop.later b.stop⟩

/-- A span is shown by its start, as `line:column`. -/
def text (s : Span) : String := s.start.line.repr ++ ":" ++ s.start.column.repr

end Span

end StepLisp
