import StepLisp.Source.Parse

/-!
# The spelling of a program

The tokens that spell a list of nodes, and what the reader makes of them: it keeps every token, adds
none, and gives the one list of nodes that they spell.

* `Spells`, which tokens spell which nodes, with `Spells.append`;
* `Consumed`, the tokens behind the nodes and open expressions of a reader, and `Ending`, the ways
  in which a reading ends;
* **`Reading.ending_finish`**: every reading ends in one of these ways;
* `Reading.finish_spells`: what is spelled is read;
* **`Tree.ofTokens_spells`**: an accepted program is spelled by its tokens, and no other is.
-/

namespace StepLisp

/-- What the text of a token denotes: the number that it spells, or else the identifier with that
text. -/
inductive Atom.Denoted (text : String) : Atom → Prop where
  | number {x : Float} (h : Numeral.read? text = some x) : Denoted text (.number x)
  | identifier (h : Numeral.read? text = none) : Denoted text (.identifier text)

theorem Atom.denoted_iff {text : String} {a : Atom} : a.Denoted text ↔ a = .ofText text := by
  unfold ofText
  rcases h : Numeral.read? text with _ | x
  · constructor
    · rintro (h' | -)
      · exact absurd (h.symm.trans h') (by simp)
      · rfl
    · rintro rfl
      exact .identifier h
  · constructor
    · rintro (h' | h')
      · rw [Option.some.inj (h.symm.trans h')]
      · exact absurd (h.symm.trans h') (by simp)
    · rintro rfl
      exact .number h

/-- **The tokens that spell a list of nodes.** An atom is spelled by the token that it was read
from, and an expression by a pair of parentheses with the spelling of its children in between. -/
inductive Spells : List Node → List Token → Prop where
  | nil : Spells [] []
  | atom {place : Place} {content : Atom} {t : Token} {ns : List Node} {ts : List Token}
      (ht : t.kind = .atom) (hc : content.Denoted t.text) (hs : Spells ns ts) :
      Spells (.atom place t.span content :: ns) (t :: ts)
  | expression {place : Place} {o c : Token} {children ns : List Node} {inside ts : List Token}
      (ho : o.kind = .opening) (hc : c.kind = .closing) (hi : Spells children inside)
      (hs : Spells ns ts) :
      Spells (.expression place (o.span.join c.span) children :: ns) (o :: (inside ++ c :: ts))

theorem Spells.append {ns ms : List Node} {ts us : List Token} (hn : Spells ns ts)
    (hm : Spells ms us) : Spells (ns ++ ms) (ts ++ us) := by
  induction hn with
  | nil => exact hm
  | atom ht hc _ ih => exact .atom ht hc ih
  | expression ho hc hi _ _ ih =>
    rw [List.cons_append, List.cons_append, List.append_assoc, List.cons_append]
    exact .expression ho hc hi ih

/-! ## What a reader has consumed -/

/-- The tokens behind the nodes `items` of the innermost level and the open expressions around it:
the nodes of every level are spelled by what stands behind its opening parenthesis. -/
inductive Consumed : List Node → List OpenExpression → List Token → Prop where
  | top {items : List Node} {ts : List Token} (hs : Spells items.reverse ts) : Consumed items [] ts
  | inside {items : List Node} {e : OpenExpression} {outer : List OpenExpression} {o : Token}
      {before ts : List Token} (hb : Consumed e.before outer before) (ho : o.kind = .opening)
      (he : o.span = e.opening) (hs : Spells items.reverse ts) :
      Consumed items (e :: outer) (before ++ o :: ts)

namespace Consumed

variable {items : List Node} {e : OpenExpression} {outer : List OpenExpression} {ts us : List Token}
  {t : Token}

theorem push {n : Node} (hc : Consumed items outer ts) (hn : Spells [n] us) :
    Consumed (n :: items) outer (ts ++ us) := by
  cases hc with
  | top hs =>
    refine .top ?_
    rw [List.reverse_cons]
    exact hs.append hn
  | inside hb ho he hs =>
    rw [List.append_assoc, List.cons_append]
    refine .inside hb ho he ?_
    rw [List.reverse_cons]
    exact hs.append hn

theorem opening (hc : Consumed items outer ts) (id : NodeId) (ht : t.kind = .opening) :
    Consumed [] (⟨id, t.span, items⟩ :: outer) (ts ++ [t]) :=
  .inside hc ht rfl .nil

theorem closing (hc : Consumed items (e :: outer) ts) (place : Place) (ht : t.kind = .closing) :
    Consumed (.expression place (e.opening.join t.span) items.reverse :: e.before) outer
      (ts ++ [t]) := by
  cases hc with
  | inside hb ho he hs =>
    rw [List.append_assoc, List.cons_append, ← he]
    exact hb.push (.expression ho ht hs .nil)

end Consumed

/-- **How a reading ends**, and the fault it ends with: every expression was closed, the innermost
open one was not, or a closing parenthesis was left over. -/
inductive Ending (tokens : List Token) : Reading → Option SyntaxError → Prop where
  | complete {next : Nat} {items : List Node} (hc : Consumed items [] tokens) :
      Ending tokens ⟨next, items, []⟩ none
  | unclosed {next : Nat} {items : List Node} {e : OpenExpression} {outer : List OpenExpression}
      (hc : Consumed items (e :: outer) tokens) :
      Ending tokens ⟨next, items, e :: outer⟩ (some (.unterminated e.opening))
  | leftOver {next : Nat} {items : List Node} {before after : List Token} {c : Token}
      (ht : tokens = before ++ c :: after) (hk : c.kind = .closing)
      (hc : Consumed items [] before) :
      Ending tokens ⟨next, items, []⟩ (some (.unexpectedClose c.span))

/-- **Every reading ends in one of these ways**, whatever was read before. -/
theorem Reading.ending_finish (tree : Nat) {r : Reading} {before : List Token}
    (hc : Consumed r.items r.unclosed before) (ts : List Token) :
    Ending (before ++ ts) (r.finish tree ts).1 (r.finish tree ts).2 := by
  induction ts generalizing r before with
  | nil =>
    rw [List.append_nil]
    obtain ⟨next, items, _ | ⟨e, outer⟩⟩ := r
    · exact .complete hc
    · exact .unclosed hc
  | cons t ts ih =>
    have hsplit : before ++ t :: ts = before ++ [t] ++ ts := by simp
    rcases hk : t.kind
    · simp only [finish, hk]
      rw [hsplit]
      exact ih (hc.opening ⟨r.next⟩ hk)
    · obtain ⟨next, items, _ | ⟨e, outer⟩⟩ := r
      · simp only [finish, hk]
        exact .leftOver rfl hk hc
      · simp only [finish, hk]
        rw [hsplit]
        exact ih (hc.closing ⟨tree, e.id⟩ hk)
    · simp only [finish, hk]
      rw [hsplit]
      exact ih (hc.push (.atom hk (Atom.denoted_iff.mpr rfl) .nil))

/-! ## What is spelled is read -/

mutual

/-- A node without the places in it. -/
def Node.unplaced : Node → Node
  | .atom _ span content => .atom default span content
  | .expression _ span children => .expression default span (unplacedAll children)

def Node.unplacedAll : List Node → List Node
  | [] => []
  | n :: rest => n.unplaced :: unplacedAll rest

end

theorem Reading.finish_spells {ns : List Node} {ts : List Token} (hs : Spells ns ts) (tree : Nat)
    (next : Nat) (items : List Node) (unclosed : List OpenExpression) (rest : List Token) :
    ∃ next' ms, Node.unplacedAll ms = Node.unplacedAll ns ∧
      finish tree ⟨next, items, unclosed⟩ (ts ++ rest) =
        finish tree ⟨next', ms.reverse ++ items, unclosed⟩ rest := by
  induction hs generalizing next items unclosed rest with
  | nil => exact ⟨next, [], rfl, rfl⟩
  | @atom place content t ns ts ht hc _ ih =>
    obtain rfl := Atom.denoted_iff.mp hc
    obtain ⟨next', ms, hms, hf⟩ :=
      ih (next + 1) (.atom ⟨tree, ⟨next⟩⟩ t.span (.ofText t.text) :: items) unclosed rest
    refine ⟨next', .atom ⟨tree, ⟨next⟩⟩ t.span (.ofText t.text) :: ms, ?_, ?_⟩
    · simp only [Node.unplacedAll, Node.unplaced, hms]
    · simp only [List.cons_append, finish, ht, hf, List.reverse_cons, List.append_assoc,
        List.nil_append]
  | @expression place o c children ns inside ts ho hc _ _ ihi ih =>
    obtain ⟨next₁, cs, hcs, hf₁⟩ :=
      ihi (next + 1) [] (⟨⟨next⟩, o.span, items⟩ :: unclosed) (c :: (ts ++ rest))
    obtain ⟨next₂, ms, hms, hf₂⟩ := ih next₁
      (.expression ⟨tree, ⟨next⟩⟩ (o.span.join c.span) cs :: items) unclosed rest
    refine ⟨next₂, .expression ⟨tree, ⟨next⟩⟩ (o.span.join c.span) cs :: ms, ?_, ?_⟩
    · simp only [Node.unplacedAll, Node.unplaced, hcs, hms]
    · have hsplit : o :: (inside ++ c :: ts) ++ rest = o :: (inside ++ c :: (ts ++ rest)) := by simp
      rw [hsplit]
      simp only [finish, ho, hf₁, hc, List.append_nil, List.reverse_reverse, hf₂,
        List.reverse_cons, List.append_assoc, List.cons_append, List.nil_append]

theorem Spells.unique {ns ms : List Node} {ts : List Token} (hn : Spells ns ts)
    (hm : Spells ms ts) : Node.unplacedAll ns = Node.unplacedAll ms := by
  obtain ⟨next, ns', hns, hfn⟩ := Reading.finish_spells hn 0 0 [] [] []
  obtain ⟨next', ms', hms, hfm⟩ := Reading.finish_spells hm 0 0 [] [] []
  have hread : (⟨next, ns'.reverse, []⟩ : Reading) = ⟨next', ms'.reverse, []⟩ := by
    simpa [Reading.finish] using hfn.symm.trans hfm
  have hitems : ns' = ms' := List.reverse_inj.mp (Reading.mk.inj hread).2.1
  rw [← hns, ← hms, hitems]

/-! ## Programs -/

namespace Tree

variable {tree : Nat} {first : NodeId} {tokens : List Token}

theorem ofTokens_cases (tree : Nat) (first : NodeId) (tokens : List Token) :
    (∃ t, (ofTokens tree first tokens).outcome = .ok t ∧ Spells t.root.children tokens) ∨
    (∃ items e outer, (ofTokens tree first tokens).outcome = .error (.unterminated e.opening) ∧
      Consumed items (e :: outer) tokens) ∨
    (∃ items before c after,
      (ofTokens tree first tokens).outcome = .error (.unexpectedClose c.span) ∧
      tokens = before ++ c :: after ∧ c.kind = .closing ∧ Consumed items [] before) := by
  have hend : Ending tokens _ _ :=
    Reading.ending_finish tree (r := ⟨first.index + 1, [], []⟩) (.top .nil) tokens
  unfold ofTokens
  generalize Reading.finish tree ⟨first.index + 1, [], []⟩ tokens = result at hend
  obtain ⟨r, fault⟩ := result
  cases hend with
  | complete hc =>
    cases hc with
    | top hs => exact .inl ⟨_, rfl, hs⟩
  | unclosed hc => exact .inr (.inl ⟨_, _, _, rfl, hc⟩)
  | leftOver ht hk hc => exact .inr (.inr ⟨_, _, _, _, rfl, ht, hk, hc⟩)

theorem spells_root {t : Tree} (h : (ofTokens tree first tokens).outcome = .ok t) :
    Spells t.root.children tokens := by
  rcases ofTokens_cases tree first tokens with ⟨u, hu, hs⟩ | ⟨_, _, _, he, -⟩ | ⟨_, _, _, _, he, -⟩
  · obtain rfl := Except.ok.inj (hu.symm.trans h)
    exact hs
  · cases he.symm.trans h
  · cases he.symm.trans h

theorem root_of_ofTokens {t : Tree} (h : (ofTokens tree first tokens).outcome = .ok t) :
    t.root = .expression ⟨tree, first⟩ (rootSpan tokens) t.root.children := by
  unfold ofTokens at h
  generalize Reading.finish tree ⟨first.index + 1, [], []⟩ tokens = result at h
  obtain ⟨r, _ | e⟩ := result
  · cases h
    rfl
  · cases h

theorem ofTokens_of_spells {ns : List Node} (hs : Spells ns tokens) (tree : Nat) (first : NodeId) :
    ∃ t, (ofTokens tree first tokens).outcome = .ok t ∧
      Node.unplacedAll t.root.children = Node.unplacedAll ns := by
  obtain ⟨next, ms, hms, hfinish⟩ := Reading.finish_spells hs tree (first.index + 1) [] [] []
  rw [List.append_nil, List.append_nil] at hfinish
  refine ⟨⟨.expression ⟨tree, first⟩ (rootSpan tokens) ms⟩, ?_, hms⟩
  rw [ofTokens, hfinish]
  simp [Reading.finish]

/-- **A program is spelled by its tokens**: written back, its forms give the tokens that were read,
with their spans and what they denote. No other forms, up to their places, have this spelling. -/
theorem ofTokens_spells {t : Tree} (h : (ofTokens tree first tokens).outcome = .ok t) :
    Spells t.root.children tokens ∧
    ∀ ns, Spells ns tokens → Node.unplacedAll ns = Node.unplacedAll t.root.children :=
  ⟨spells_root h, fun _ hn => hn.unique (spells_root h)⟩

/-- The tokens of `(a ()) 1`. -/
def nestedTokens : List Token :=
  [⟨"(", .onLine ⟨1, 1⟩ 1⟩, ⟨"a", .onLine ⟨1, 2⟩ 1⟩, ⟨"(", .onLine ⟨1, 4⟩ 1⟩,
    ⟨")", .onLine ⟨1, 5⟩ 1⟩, ⟨")", .onLine ⟨1, 6⟩ 1⟩, ⟨"1", .onLine ⟨1, 8⟩ 1⟩]

theorem ofTokens_spells_nested : ∃ t, (ofTokens 0 ⟨0⟩ nestedTokens).outcome = .ok t ∧
    Spells t.root.children nestedTokens ∧
    ∀ ns, Spells ns nestedTokens → Node.unplacedAll ns = Node.unplacedAll t.root.children :=
  ⟨_, rfl, ofTokens_spells rfl⟩

end Tree

end StepLisp
