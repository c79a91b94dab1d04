import Mathlib.Data.List.Forall2
import StepLisp.Source.Parse

/-!
# Programs alike

Two programs are alike if they differ in the spans of their nodes and in the atoms only, and the
atoms correspond. Programs whose tokens correspond are alike, down to the numbers of their nodes.

* `Alike`, for lists of nodes and a relation of atoms, with `Alike.append` and `Alike.reverse`;
* `Node.walk_cons`, the walk through a list of nodes, and `Alike.walk`: two programs alike are
  walked node by node;
* `Token.Matches` and `Reading.Alike`, and **`Reading.finish_alike`**: tokens that match lead
  readers that are alike to readings that are alike, and both to a fault or none;
* **`Tree.ofTokens_alike`**: tokens that match those of a program spell a program like it.
-/

namespace StepLisp

/-- Lists of nodes with the same places, whose atoms correspond under `R`. -/
inductive Alike (R : Atom → Atom → Prop) : List Node → List Node → Prop where
  | nil : Alike R [] []
  | atom {place : Place} {span span' : Span} {a b : Atom} {ns ms : List Node} (hab : R a b)
      (h : Alike R ns ms) : Alike R (.atom place span a :: ns) (.atom place span' b :: ms)
  | expression {place : Place} {span span' : Span} {cs ds ns ms : List Node} (hc : Alike R cs ds)
      (h : Alike R ns ms) :
      Alike R (.expression place span cs :: ns) (.expression place span' ds :: ms)

namespace Alike

variable {R : Atom → Atom → Prop} {ns ms ns' ms' : List Node}

theorem append (h : Alike R ns ms) (h' : Alike R ns' ms') : Alike R (ns ++ ns') (ms ++ ms') := by
  induction h with
  | nil => exact h'
  | atom hab _ ih => exact .atom hab ih
  | expression hc _ _ ih => exact .expression hc ih

theorem reverse (h : Alike R ns ms) : Alike R ns.reverse ms.reverse := by
  induction h with
  | nil => exact .nil
  | atom hab _ ih =>
    rw [List.reverse_cons, List.reverse_cons]
    exact ih.append (.atom hab .nil)
  | expression hc _ _ ih =>
    rw [List.reverse_cons, List.reverse_cons]
    exact ih.append (.expression hc .nil)

theorem length_eq (h : Alike R ns ms) : ns.length = ms.length := by
  induction h with
  | nil => rfl
  | atom _ _ ih => rw [List.length_cons, List.length_cons, ih]
  | expression _ _ _ ih => rw [List.length_cons, List.length_cons, ih]

theorem children {n m : Node} (h : Alike R [n] [m]) : Alike R n.children m.children := by
  cases h with
  | atom _ _ => exact .nil
  | expression hc _ => exact hc

end Alike

/-! ## Walking through programs -/

theorem Node.walk_append (ns ms : List Node) : walk (ns ++ ms) = walk ns ++ walk ms := by
  fun_induction walk ns with
  | case1 => rfl
  | case2 n rest ih => rw [List.cons_append, walk, ← List.append_assoc, ih, List.cons_append]

theorem Node.walk_cons (n : Node) (ns : List Node) :
    walk (n :: ns) = n :: (walk n.children ++ walk ns) := by
  rw [walk, walk_append]

theorem Tree.nodes_eq (t : Tree) : t.nodes = t.root :: Node.walk t.root.children := by
  rw [nodes, Node.walk, List.append_nil]

/-- Two nodes with the same place, and atoms that correspond or the same number of children. -/
inductive Node.Corresponds (R : Atom → Atom → Prop) : Node → Node → Prop where
  | atom {place : Place} {span span' : Span} {a b : Atom} (hab : R a b) :
      Corresponds R (.atom place span a) (.atom place span' b)
  | expression {place : Place} {span span' : Span} {cs ds : List Node}
      (h : cs.length = ds.length) :
      Corresponds R (.expression place span cs) (.expression place span' ds)

theorem Alike.walk {R : Atom → Atom → Prop} {ns ms : List Node} (h : Alike R ns ms) :
    List.Forall₂ (Node.Corresponds R) (Node.walk ns) (Node.walk ms) := by
  induction h with
  | nil =>
    rw [Node.walk]
    exact .nil
  | atom hab _ ih =>
    rw [Node.walk_cons, Node.walk_cons, Node.children, Node.children, Node.walk]
    exact .cons (.atom hab) ih
  | expression hc _ ihc ih =>
    rw [Node.walk_cons, Node.walk_cons]
    exact .cons (.expression hc.length_eq) (List.rel_append ihc ih)

/-! ## Reading tokens that match -/

/-- Two tokens of the same kind, which denote atoms that correspond if they are atoms. -/
structure Token.Matches (R : Atom → Atom → Prop) (t u : Token) : Prop where
  kind_eq : t.kind = u.kind
  content : t.kind = .atom → R (.ofText t.text) (.ofText u.text)

theorem Token.matches_of_text_eq {R : Atom → Atom → Prop}
    (hR : ∀ text, R (.ofText text) (.ofText text)) {ts us : List Token}
    (h : us.map Token.text = ts.map Token.text) : List.Forall₂ (Token.Matches R) ts us := by
  induction ts generalizing us with
  | nil =>
    obtain rfl : us = [] := List.map_eq_nil_iff.mp h
    exact .nil
  | cons t ts ih =>
    obtain ⟨u, us, rfl, hu, hus⟩ := List.map_eq_cons_iff.mp h
    refine .cons ⟨by rw [kind, kind, hu], fun _ => ?_⟩ (ih hus)
    rw [hu]
    exact hR t.text

/-- Open expressions with the same number, behind nodes that are alike. -/
structure OpenExpression.Alike (R : Atom → Atom → Prop) (e f : OpenExpression) : Prop where
  id_eq : e.id = f.id
  before : StepLisp.Alike R e.before f.before

/-- Readings with the same next number and with nodes and open expressions that are alike. -/
structure Reading.Alike (R : Atom → Atom → Prop) (r s : Reading) : Prop where
  next_eq : r.next = s.next
  items : StepLisp.Alike R r.items s.items
  unclosed : List.Forall₂ (OpenExpression.Alike R) r.unclosed s.unclosed

section Read

variable {R : Atom → Atom → Prop} {ts us : List Token}

/-- **Tokens that match lead readers that are alike to the same end.** -/
theorem Reading.finish_alike (tree : Nat) {r s : Reading} (h : Reading.Alike R r s)
    (hts : List.Forall₂ (Token.Matches R) ts us) :
    Reading.Alike R (r.finish tree ts).1 (s.finish tree us).1 ∧
      ((r.finish tree ts).2 = none ↔ (s.finish tree us).2 = none) := by
  induction hts generalizing r s with
  | nil =>
    obtain ⟨next, items, unclosed⟩ := r
    obtain ⟨next', items', unclosed'⟩ := s
    refine ⟨h, ?_⟩
    cases h.unclosed with
    | nil => exact Iff.rfl
    | cons he _ => exact ⟨nofun, nofun⟩
  | @cons t u ts us htu _ ih =>
    obtain ⟨next, items, unclosed⟩ := r
    obtain ⟨next', items', unclosed'⟩ := s
    obtain ⟨hnext, hitems, hunclosed⟩ := h
    obtain rfl : next = next' := hnext
    have hk' := htu.kind_eq
    rcases hk : t.kind <;> rw [hk] at hk'
    · simp only [finish, hk, ← hk']
      exact ih ⟨rfl, .nil, .cons ⟨rfl, hitems⟩ hunclosed⟩
    · cases hunclosed with
      | nil =>
        simp only [finish, hk, ← hk']
        exact ⟨⟨rfl, hitems, .nil⟩, nofun, nofun⟩
      | @cons e f outer outer' he houter =>
        simp only [finish, hk, ← hk', he.id_eq]
        exact ih ⟨rfl, .expression hitems.reverse he.before, houter⟩
    · simp only [finish, hk, ← hk']
      exact ih ⟨rfl, .atom (htu.content hk) hitems, hunclosed⟩

namespace Tree

/-- **Tokens that match those of a program spell a program like it.** -/
theorem ofTokens_alike {tree : Nat} {first : NodeId} {t : Tree}
    (hts : List.Forall₂ (Token.Matches R) ts us)
    (h : (ofTokens tree first ts).outcome = .ok t) :
    ∃ u, (ofTokens tree first us).outcome = .ok u ∧ Alike R [t.root] [u.root] := by
  have hstart : Reading.Alike R ⟨first.index + 1, [], []⟩ ⟨first.index + 1, [], []⟩ :=
    ⟨rfl, .nil, .nil⟩
  obtain ⟨hread, hfault⟩ := Reading.finish_alike tree hstart hts
  unfold ofTokens at h ⊢
  rcases hr : Reading.finish tree ⟨first.index + 1, [], []⟩ ts with ⟨r, _ | e⟩
  · rcases hs : Reading.finish tree ⟨first.index + 1, [], []⟩ us with ⟨s, _ | e⟩
    · rw [hr] at h hread
      rw [hs] at hread
      cases h
      exact ⟨_, rfl, .expression hread.items.reverse .nil⟩
    · rw [hr, hs] at hfault
      exact absurd (hfault.mp rfl) nofun
  · rw [hr] at h
    cases h

end Tree

end Read

end StepLisp
