import Mathlib.Data.List.Nodup
import StepLisp.Proofs.Alike
import StepLisp.Proofs.Balance
import StepLisp.Session.Basic

/-!
# The numbers of the nodes

Numbers are drawn while the tokens are read: one for the root, and one for every token that a node
begins with. So the nodes of a program are numbered in pre-order without a gap, a program that is
refused has used up the numbers of the nodes that were begun, and no number is ever drawn twice.

* `Node.preorder`, the nodes of a tree by recursion, with `Node.walk_eq`: walking with a stack comes
  to the same;
* `Reading.begun`, the numbers that a reader has drawn for its nodes, and
  **`Reading.begun_finish`**: they follow each other;
* `begins`, how many nodes some tokens begin, with `Consumed.length_begun`;
* `Tree.Numbered`, a program with consecutive numbers, and `Tree.Numbered.node?_eq_some`;
* `Session.Request` and `Session.serveAll`, the numbers that some requests get;
* **`Tree.ofTokens_numbers`**: the numbers of nodes.
-/

namespace StepLisp

/-! ## Pre-order by recursion -/

namespace Node

mutual

/-- The nodes of a tree: a node, and then the nodes of its children, one child after the other. -/
def preorder : Node → List Node
  | .atom place span content => [.atom place span content]
  | .expression place span children => .expression place span children :: preorderAll children

def preorderAll : List Node → List Node
  | [] => []
  | n :: rest => n.preorder ++ preorderAll rest

end

theorem preorder_eq (n : Node) : n.preorder = n :: preorderAll n.children := by
  cases n <;> simp [preorder, preorderAll, children]

theorem preorderAll_append (ns ms : List Node) :
    preorderAll (ns ++ ms) = preorderAll ns ++ preorderAll ms := by
  induction ns with
  | nil => rfl
  | cons n ns ih => rw [List.cons_append, preorderAll, ih, preorderAll, List.append_assoc]

theorem walk_eq (ns : List Node) : walk ns = preorderAll ns := by
  fun_induction walk ns with
  | case1 => rfl
  | case2 n rest ih => rw [ih, preorderAll_append, preorderAll, preorder_eq, List.cons_append]

/-- The numbers of some nodes and of all nodes below them, in pre-order. -/
def numbers (ns : List Node) : List NodeId := (walk ns).map id

theorem numbers_append (ns ms : List Node) : numbers (ns ++ ms) = numbers ns ++ numbers ms := by
  rw [numbers, walk_append, List.map_append]
  rfl

theorem numbers_atom (place : Place) (span : Span) (content : Atom) :
    numbers [.atom place span content] = [place.id] := by
  simp [numbers, walk, children, id, Node.place]

theorem numbers_expression (place : Place) (span : Span) (children : List Node) :
    numbers [.expression place span children] = place.id :: numbers children := by
  simp [numbers, walk, Node.children, id, Node.place]

end Node

/-! ## What a reader has drawn -/

/-- `count` numbers from `first` on. -/
def NodeId.consecutive (first count : Nat) : List NodeId := (List.range' first count).map NodeId.mk

namespace NodeId

theorem consecutive_succ (first count : Nat) :
    consecutive first (count + 1) = ⟨first⟩ :: consecutive (first + 1) count := rfl

theorem consecutive_append (first k l : Nat) :
    consecutive first k ++ consecutive (first + k) l = consecutive first (k + l) := by
  rw [consecutive, consecutive, consecutive, ← List.map_append, List.range'_append_1]

@[simp]
theorem length_consecutive (first count : Nat) : (consecutive first count).length = count := by
  simp [consecutive]

theorem getElem?_consecutive {first count i : Nat} (h : i < count) :
    (consecutive first count)[i]? = some ⟨first + i⟩ := by
  simp [consecutive, h]

theorem mem_consecutive {first count : Nat} {id : NodeId} :
    id ∈ consecutive first count ↔ first ≤ id.index ∧ id.index < first + count := by
  obtain ⟨i⟩ := id
  simp [consecutive, List.mem_range'_1]

theorem nodup_consecutive (first count : Nat) : (consecutive first count).Nodup :=
  List.Nodup.map (fun _ _ h => NodeId.mk.inj h) List.nodup_range'

end NodeId

namespace Reading

/-- The numbers of the nodes that were begun, in the order of the text: those around the innermost
open expression, its own, and those of the finished nodes in it. -/
def begun (items : List Node) : List OpenExpression → List NodeId
  | [] => Node.numbers items.reverse
  | e :: outer => begun e.before outer ++ e.id :: Node.numbers items.reverse

theorem begun_cons (n : Node) (items : List Node) (unclosed : List OpenExpression) :
    begun (n :: items) unclosed = begun items unclosed ++ Node.numbers [n] := by
  cases unclosed <;> simp [begun, Node.numbers_append]

/-- **The numbers that are drawn follow each other**, whatever was read before. -/
theorem begun_finish (tree : Nat) (r : Reading) (ts : List Token) :
    ∃ k, (r.finish tree ts).1.next = r.next + k ∧
      begun (r.finish tree ts).1.items (r.finish tree ts).1.unclosed =
        begun r.items r.unclosed ++ NodeId.consecutive r.next k := by
  induction ts generalizing r with
  | nil => exact ⟨0, rfl, (List.append_nil _).symm⟩
  | cons t ts ih =>
    obtain ⟨next, items, unclosed⟩ := r
    rcases hk : t.kind
    · simp only [finish, hk]
      obtain ⟨k, hnext, hbegun⟩ := ih ⟨next + 1, [], ⟨⟨next⟩, t.span, items⟩ :: unclosed⟩
      refine ⟨k + 1, by rw [hnext, Nat.add_assoc, Nat.add_comm 1], hbegun.trans ?_⟩
      simp [begun, Node.numbers, Node.walk, NodeId.consecutive_succ]
    · cases unclosed with
      | nil =>
        simp only [finish, hk]
        exact ⟨0, rfl, (List.append_nil _).symm⟩
      | cons e outer =>
        simp only [finish, hk]
        obtain ⟨k, hnext, hbegun⟩ := ih ⟨next,
          .expression ⟨tree, e.id⟩ (e.opening.join t.span) items.reverse :: e.before, outer⟩
        refine ⟨k, hnext, hbegun.trans ?_⟩
        rw [begun_cons, Node.numbers_expression, begun]
    · simp only [finish, hk]
      obtain ⟨k, hnext, hbegun⟩ := ih
        ⟨next + 1, .atom ⟨tree, ⟨next⟩⟩ t.span (.ofText t.text) :: items, unclosed⟩
      refine ⟨k + 1, by rw [hnext, Nat.add_assoc, Nat.add_comm 1], hbegun.trans ?_⟩
      simp [begun_cons, Node.numbers_atom, NodeId.consecutive_succ]

end Reading

/-! ## How many nodes some tokens begin -/

/-- The number of tokens that a node begins with: all but the closing parentheses. -/
def begins (ts : List Token) : Nat := ts.countP fun t => t.kind ≠ .closing

@[simp]
theorem begins_nil : begins [] = 0 := rfl

@[simp]
theorem begins_append (ts us : List Token) : begins (ts ++ us) = begins ts + begins us :=
  List.countP_append

theorem begins_cons (t : Token) (ts : List Token) :
    begins (t :: ts) = begins ts + if t.kind = .closing then 0 else 1 := by
  by_cases h : t.kind = .closing <;> simp [begins, h]

theorem Spells.length_numbers {ns : List Node} {ts : List Token} (hs : Spells ns ts) :
    (Node.numbers ns).length = begins ts := by
  induction hs with
  | nil => simp [Node.numbers, Node.walk]
  | @atom place content t ns ts ht _ _ ih =>
    rw [← List.singleton_append, Node.numbers_append, List.length_append, ih, Node.numbers_atom,
      begins_cons, if_neg (by simp [ht]), List.length_singleton, Nat.add_comm]
  | @expression place o c children ns inside ts ho hc _ _ ihi ih =>
    rw [← List.singleton_append, Node.numbers_append, List.length_append, ih,
      Node.numbers_expression, List.length_cons, ihi, begins_cons, begins_append, begins_cons,
      if_pos hc, if_neg (by simp [ho])]
    omega

theorem Consumed.length_begun {items : List Node} {unclosed : List OpenExpression}
    {ts : List Token} (hc : Consumed items unclosed ts) :
    (Reading.begun items unclosed).length = begins ts := by
  induction hc with
  | top hs => exact hs.length_numbers
  | @inside _ e outer o before ts _ ho _ hs ih =>
    rw [Reading.begun, List.length_append, ih, List.length_cons, hs.length_numbers, begins_append,
      begins_cons, if_neg (by simp [ho])]

/-! ## Programs -/

namespace Tree

/-- The nodes of a program have consecutive numbers from `first` on, in pre-order. -/
def Numbered (first : NodeId) (t : Tree) : Prop :=
  t.nodes.map Node.id = NodeId.consecutive first.index t.nodes.length

/-- The numbers that are drawn for a program, also if it is refused. -/
def drawn (tree : Nat) (first : NodeId) (tokens : List Token) : List NodeId :=
  let r := (Reading.finish tree ⟨first.index + 1, [], []⟩ tokens).1
  first :: Reading.begun r.items r.unclosed

variable {tree : Nat} {first : NodeId} {tokens : List Token} {t : Tree} {id : NodeId} {n : Node}

namespace Numbered

theorem id_getElem? (ht : t.Numbered first) {i : Nat} (hn : t.nodes[i]? = some n) :
    n.id = ⟨first.index + i⟩ := by
  have hi := (List.getElem?_eq_some_iff.mp hn).1
  have hid : (t.nodes.map Node.id)[i]? = some n.id := by rw [List.getElem?_map, hn, Option.map_some]
  rw [ht, NodeId.getElem?_consecutive hi] at hid
  exact (Option.some.inj hid).symm

theorem root_id (ht : t.Numbered first) : t.root.id = first :=
  ht.id_getElem? (i := 0) (by rw [nodes_eq, List.getElem?_cons_zero])

theorem node?_eq (ht : t.Numbered first) (id : NodeId) :
    t.node? id = if first.index ≤ id.index then t.nodes[id.index - first.index]? else none := by
  rw [node?, ht.root_id]

/-- **The node with a number is found by its number**, and no other. -/
theorem node?_eq_some (ht : t.Numbered first) : t.node? id = some n ↔ n ∈ t.nodes ∧ n.id = id := by
  rw [ht.node?_eq]
  constructor
  · intro h
    split at h
    · rename_i hle
      refine ⟨List.mem_of_getElem? h, ?_⟩
      rw [ht.id_getElem? h, Nat.add_sub_cancel' hle]
    · cases h
  · rintro ⟨hn, rfl⟩
    obtain ⟨i, hi⟩ := List.getElem?_of_mem hn
    rw [ht.id_getElem? hi, if_pos (Nat.le_add_right _ _), Nat.add_sub_cancel_left, hi]

theorem mem_range (ht : t.Numbered first) (hn : n ∈ t.nodes) :
    first.index ≤ n.id.index ∧ n.id.index < first.index + t.nodes.length :=
  NodeId.mem_consecutive.mp (ht ▸ List.mem_map_of_mem hn)

theorem unique (ht : t.Numbered first) {m : Node} (hn : n ∈ t.nodes) (hm : m ∈ t.nodes)
    (h : n.id = m.id) : n = m := by
  have hn' := ht.node?_eq_some.mpr ⟨hn, h⟩
  rw [ht.node?_eq_some.mpr ⟨hm, rfl⟩] at hn'
  exact (Option.some.inj hn').symm

theorem node?_eq_none (ht : t.Numbered first)
    (h : id.index < first.index ∨ first.index + t.nodes.length ≤ id.index) : t.node? id = none := by
  rw [ht.node?_eq]
  split
  · rw [List.getElem?_eq_none_iff]
    omega
  · rfl

theorem exists_node? (ht : t.Numbered first) (hle : first.index ≤ id.index)
    (hlt : id.index < first.index + t.nodes.length) : ∃ n, t.node? id = some n := by
  rw [ht.node?_eq, if_pos hle]
  exact ⟨_, List.getElem?_eq_getElem (by omega)⟩

end Numbered

/-- The numbers that are drawn for a program follow each other, up to the next free one. -/
theorem drawn_eq (tree : Nat) (first : NodeId) (tokens : List Token) :
    ∃ k, (ofTokens tree first tokens).next = ⟨first.index + 1 + k⟩ ∧
      drawn tree first tokens = NodeId.consecutive first.index (k + 1) := by
  obtain ⟨k, hnext, hbegun⟩ := Reading.begun_finish tree ⟨first.index + 1, [], []⟩ tokens
  refine ⟨k, ?_, ?_⟩
  · unfold ofTokens
    rw [← hnext]
    rcases Reading.finish tree ⟨first.index + 1, [], []⟩ tokens with ⟨r, _ | e⟩ <;> rfl
  · rw [drawn, hbegun, NodeId.consecutive_succ]
    simp [Reading.begun, Node.numbers, Node.walk]

theorem map_id_nodes (h : (ofTokens tree first tokens).outcome = .ok t) :
    t.nodes.map Node.id = drawn tree first tokens := by
  have hend : Ending tokens _ _ :=
    Reading.ending_finish tree (r := ⟨first.index + 1, [], []⟩) (.top .nil) tokens
  unfold ofTokens at h
  unfold drawn
  generalize Reading.finish tree ⟨first.index + 1, [], []⟩ tokens = result at hend h ⊢
  obtain ⟨r, fault⟩ := result
  cases hend with
  | complete hc =>
    cases h
    exact Node.numbers_expression _ _ _
  | unclosed hc => cases h
  | leftOver ht hk hc => cases h

theorem numbered_ofTokens (h : (ofTokens tree first tokens).outcome = .ok t) :
    t.Numbered first ∧ (ofTokens tree first tokens).next = ⟨first.index + t.nodes.length⟩ := by
  obtain ⟨k, hnext, hdrawn⟩ := drawn_eq tree first tokens
  have hids := (map_id_nodes h).trans hdrawn
  have hlen : t.nodes.length = k + 1 := by simpa using congrArg List.length hids
  exact ⟨by rw [Numbered, hids, hlen], by rw [hnext, hlen, Nat.add_assoc, Nat.add_comm 1]⟩

/-- A program that is refused has used up a number for the root, and one for each node begun. -/
theorem next_of_error {e : SyntaxError} (h : (ofTokens tree first tokens).outcome = .error e) :
    ∃ before, (ofTokens tree first tokens).next = ⟨first.index + 1 + begins before⟩ ∧
      ((∃ o, e = .unterminated o ∧ before = tokens) ∨
        ∃ c after, e = .unexpectedClose c.span ∧ tokens = before ++ c :: after ∧
          NoExcess before ∧ Excess (before ++ [c])) := by
  have hend : Ending tokens _ _ :=
    Reading.ending_finish tree (r := ⟨first.index + 1, [], []⟩) (.top .nil) tokens
  obtain ⟨k, hnext, hdrawn⟩ := drawn_eq tree first tokens
  have hlen := congrArg List.length hdrawn
  rw [NodeId.length_consecutive] at hlen
  rw [hnext]
  unfold ofTokens at h
  unfold drawn at hlen
  generalize Reading.finish tree ⟨first.index + 1, [], []⟩ tokens = result at hend h hlen
  obtain ⟨r, fault⟩ := result
  cases hend with
  | complete hc => cases h
  | @unclosed _ _ o _ hc =>
    cases h
    have hk : begins tokens = k := hc.length_begun.symm.trans (Nat.succ.inj hlen)
    exact ⟨tokens, by rw [hk], .inl ⟨o.opening, rfl, rfl⟩⟩
  | @leftOver _ _ before after c ht hkind hc =>
    cases h
    have hk : begins before = k := hc.length_begun.symm.trans (Nat.succ.inj hlen)
    have hbalanced : Balanced before := hc.noExcess
    exact ⟨before, by rw [hk], .inr ⟨c, after, rfl, ht, hbalanced.1, hbalanced.excess hkind⟩⟩

end Tree

/-! ## Requests to a session -/

namespace Session

/-- A request for numbers. -/
inductive Request where
  /-- A program is to be read, as tree number `tree`. -/
  | parse (tree : Nat) (source : String)
  | allocate

/-- The numbers that a request gets: those of the nodes of a program, or of the nodes that were
begun if it is refused. -/
def serve (s : Session) : Request → List NodeId × Session
  | .parse tree source =>
    match s.parse tree source with
    | (.ok t, s') => (t.nodes.map Node.id, s')
    | (.error _, s') => (Tree.drawn tree s.next (Token.scan source), s')
  | .allocate => ([s.allocate.1], s.allocate.2)

/-- The numbers that one request after the other gets. -/
def serveAll (s : Session) : List Request → List (List NodeId)
  | [] => []
  | q :: qs => (s.serve q).1 :: (s.serve q).2.serveAll qs

theorem serve_eq (s : Session) (q : Request) :
    ∃ k, (s.serve q).1 = NodeId.consecutive s.next.index k ∧
      (s.serve q).2.next = ⟨s.next.index + k⟩ := by
  cases q with
  | allocate => exact ⟨1, rfl, rfl⟩
  | parse tree source =>
    obtain ⟨k, hnext, hdrawn⟩ := Tree.drawn_eq tree s.next (Token.scan source)
    have hnext' : (s.parse tree source).2.next = ⟨s.next.index + (k + 1)⟩ := by
      rw [Nat.add_comm k, ← Nat.add_assoc]
      exact hnext
    refine ⟨k + 1, ?_⟩
    rw [serve]
    rcases h : s.parse tree source with ⟨e | t, s'⟩
    · rw [h] at hnext'
      exact ⟨hdrawn, hnext'⟩
    · have hok : (Tree.ofTokens tree s.next (Token.scan source)).outcome = .ok t :=
        congrArg Prod.fst h
      rw [h] at hnext'
      exact ⟨(Tree.map_id_nodes hok).trans hdrawn, hnext'⟩

theorem flatten_serveAll (s : Session) (qs : List Request) :
    ∃ k, (s.serveAll qs).flatten = NodeId.consecutive s.next.index k := by
  induction qs generalizing s with
  | nil => exact ⟨0, rfl⟩
  | cons q qs ih =>
    obtain ⟨k, hq, hnext⟩ := s.serve_eq q
    obtain ⟨l, hqs⟩ := ih (s.serve q).2
    rw [hnext] at hqs
    exact ⟨k + l, by rw [serveAll, List.flatten_cons, hq, hqs, NodeId.consecutive_append]⟩

end Session

/-- **The numbers of nodes** are drawn one after the other in pre-order, whether or not the program
is accepted, so the programs and the other requests of a session never get a number twice. -/
theorem Tree.ofTokens_numbers (tree : Nat) (first : NodeId) (tokens : List Token) :
    (∀ t, (ofTokens tree first tokens).outcome = .ok t →
      t.nodes = t.root.preorder ∧
      (∀ (i : Nat) (n : Node), t.nodes[i]? = some n → n.id = ⟨first.index + i⟩) ∧
      (ofTokens tree first tokens).next = ⟨first.index + t.nodes.length⟩ ∧
      (∀ id, first.index ≤ id.index → id.index < first.index + t.nodes.length →
        ∃ n, t.node? id = some n ∧ n ∈ t.nodes ∧ n.id = id) ∧
      ∀ id, id.index < first.index ∨ first.index + t.nodes.length ≤ id.index →
        t.node? id = none) ∧
    (∀ s, (ofTokens tree first tokens).outcome = .error (.unexpectedClose s) →
      ∃ before c after, tokens = before ++ c :: after ∧ s = c.span ∧
        NoExcess before ∧ Excess (before ++ [c]) ∧
        (ofTokens tree first tokens).next = ⟨first.index + 1 + begins before⟩) ∧
    (∀ s, (ofTokens tree first tokens).outcome = .error (.unterminated s) →
      (ofTokens tree first tokens).next = ⟨first.index + 1 + begins tokens⟩) ∧
    ∀ (s : Session) (qs : List Session.Request),
      (s.serveAll qs).flatten.Nodup ∧ (s.serveAll qs).Pairwise List.Disjoint := by
  refine ⟨fun t h => ?_, fun s h => ?_, fun s h => ?_, fun s qs => ?_⟩
  · -- an accepted program
    obtain ⟨ht, hnext⟩ := numbered_ofTokens h
    have hpreorder : t.nodes = t.root.preorder := by
      rw [nodes, Node.walk_eq, Node.preorderAll, Node.preorderAll, List.append_nil]
    refine ⟨hpreorder, fun i n => ht.id_getElem?, hnext, fun id hle hlt => ?_,
      fun id => ht.node?_eq_none⟩
    obtain ⟨n, hn⟩ := ht.exists_node? hle hlt
    exact ⟨n, hn, ht.node?_eq_some.mp hn⟩
  · obtain ⟨before, hnext, ⟨o, ho, -⟩ | ⟨c, after, hc, htokens, hno, hex⟩⟩ := next_of_error h
    · cases ho
    · exact ⟨before, c, after, htokens, SyntaxError.unexpectedClose.inj hc, hno, hex, hnext⟩
  · obtain ⟨before, hnext, ⟨o, -, rfl⟩ | ⟨c, after, hc, -⟩⟩ := next_of_error h
    · exact hnext
    · cases hc
  · obtain ⟨k, hk⟩ := s.flatten_serveAll qs
    have hnodup : (s.serveAll qs).flatten.Nodup := by
      rw [hk]
      exact NodeId.nodup_consecutive _ _
    exact ⟨hnodup, (List.nodup_flatten.mp hnodup).2⟩

end StepLisp
