import StepLisp.Source.Position
import StepLisp.Source.Blank

/-!
# Tokens

A source text is a sequence of parentheses and atoms, where an atom is a longest run of characters
that are neither blank nor parentheses. Every text has tokens: nothing is refused here.

* `Token`, a text with its span, and `Token.kind`, which looks at the text alone;
* `Token.scan`, the tokens of a text.
-/

namespace StepLisp

/-- A token: its text and where it stands. -/
structure Token where
  text : String
  span : Span
deriving DecidableEq, Repr, Inhabited

/-- What a token is to the parser. -/
inductive TokenKind where
  | opening
  | closing
  | atom
deriving DecidableEq, Repr, Inhabited

namespace Token

/-- A token is a parenthesis if that is its whole text, and otherwise an atom. -/
def kind (t : Token) : TokenKind :=
  if t.text = "(" then .opening else if t.text = ")" then .closing else .atom

/-- The token with the characters `cs` that starts at `p`. -/
def ofChars (p : Position) (cs : List Char) : Token := ⟨String.ofList cs, .onLine p cs.length⟩

end Token

def isParen (c : Char) : Bool := c = '(' || c = ')'

/-- Whether a character may stand in an atom. -/
def isAtomChar (c : Char) : Bool := !isBlank c && !isParen c

/-- The tokens of the text `cs` that starts at `p`. -/
def Token.scanFrom (p : Position) : List Char → List Token
  | [] => []
  | c :: cs =>
    if isBlank c then scanFrom (p.after c) cs
    else if isParen c then Token.ofChars p [c] :: scanFrom (p.after c) cs
    else
      let word := c :: cs.takeWhile isAtomChar
      Token.ofChars p word :: scanFrom (p.afterAll word) (cs.dropWhile isAtomChar)
termination_by cs => cs.length
decreasing_by
  · simp
  · simp
  · exact Nat.lt_succ_of_le ((List.dropWhile_sublist _).length_le)

/-- The tokens of a source text. -/
def Token.scan (source : String) : List Token := scanFrom .first source.toList

end StepLisp
