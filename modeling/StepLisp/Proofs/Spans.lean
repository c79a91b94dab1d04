import StepLisp.Proofs.Layout
import StepLisp.Proofs.Reprint

/-!
# The spans of the nodes

A node is spelled by successive tokens of its program, and its span is what these span. So the piece
of the source that the span takes out has the words of the node and is read as that node, and the
spans of nodes are nested as the nodes are.

* `Spells.exists_infix` and `Spells.span_eq`: the tokens that spell a node, and their span;
* `Node.sameAll_unplacedAll`: places make no difference to the equality of nodes;
* **`Tree.parse_of_words`**: a text with the words of some nodes is read as these nodes;
* `Spells.pairwise` and `Spells.inside`: nodes stand one behind the other, inside of what they are
  spelled by;
* **`Tree.spans_faithful`**: the spans of a program.
-/

namespace StepLisp

/-! ## The tokens of a node -/

namespace Spells

variable {n : Node} {ns : List Node} {ts : List Token}

theorem exists_infix (hs : Spells ns ts) (hn : n ∈ Node.walk ns) :
    ∃ before inside after, ts = before ++ inside ++ after ∧ Spells [n] inside := by
  induction hs with
  | nil => simp [Node.walk] at hn
  | @atom place content t ns ts ht hc _ ih =>
    rw [Node.walk_cons, Node.children, Node.walk, List.nil_append] at hn
    rcases List.mem_cons.mp hn with rfl | hn
    · exact ⟨[], [t], ts, rfl, .atom ht hc .nil⟩
    · obtain ⟨before, inside, after, rfl, hi⟩ := ih hn
      exact ⟨t :: before, inside, after, rfl, hi⟩
  | @expression place o c children ns inner ts ho hc hi _ ihi ih =>
    rw [Node.walk_cons, Node.children] at hn
    rcases List.mem_cons.mp hn with rfl | hn
    · exact ⟨[], o :: (inner ++ [c]), ts, by simp, .expression ho hc hi .nil⟩
    · rcases List.mem_append.mp hn with hn | hn
      · obtain ⟨before, inside, after, rfl, hn⟩ := ihi hn
        exact ⟨o :: before, inside, after ++ c :: ts, by simp, hn⟩
      · obtain ⟨before, inside, after, rfl, hn⟩ := ih hn
        exact ⟨o :: (inner ++ c :: before), inside, after, by simp, hn⟩

theorem span_eq (hs : Spells [n] ts) : ∃ u us, ts = u :: us ∧ n.span = Tree.rootSpan ts := by
  cases hs with
  | @atom place content t _ _ ht hc hs =>
    cases hs
    refine ⟨t, [], rfl, ?_⟩
    simp [Tree.rootSpan, Node.span, Span.join, Position.earlier, Position.later]
  | @expression place o c children _ inner _ ho hc hi hs =>
    cases hs
    refine ⟨o, inner ++ [c], rfl, ?_⟩
    have hlast : (o :: (inner ++ [c])).getLast? = some c := List.getLast?_concat (l := o :: inner)
    rw [Tree.rootSpan, List.head?_cons, hlast]
    rfl

end Spells

/-! ## Nodes that have the same words -/

theorem Atom.same_ofText (text : String) : (ofText text).same (ofText text) = true := by
  rcases h : Numeral.read? text with _ | x
  · rw [ofText_eq_identifier h]
    exact beq_iff_eq.mpr rfl
  · rw [ofText_eq_number h]
    obtain ⟨n, -, rfl⟩ := Option.map_eq_some_iff.mp h
    exact beq_self n.value_ne_notANumber

namespace Node

mutual

theorem same_unplaced : ∀ n m : Node, n.unplaced.same m = n.same m
  | .atom _ _ _, .atom _ _ _ => rfl
  | .atom _ _ _, .expression _ _ _ => rfl
  | .expression _ _ _, .atom _ _ _ => rfl
  | .expression _ _ as, .expression _ _ bs => sameAll_unplacedAll as bs

theorem sameAll_unplacedAll : ∀ ns ms : List Node, sameAll (unplacedAll ns) ms = sameAll ns ms
  | [], [] => rfl
  | [], _ :: _ => rfl
  | _ :: _, [] => rfl
  | n :: ns, m :: ms => by
    rw [unplacedAll, sameAll, sameAll, same_unplaced n m, sameAll_unplacedAll ns ms]

end

end Node

theorem Alike.sameAll {ns ms : List Node} (h : Alike (fun a b => a.same b = true) ns ms) :
    Node.sameAll ns ms = true := by
  induction h with
  | nil => rfl
  | atom hab _ ih =>
    rw [Node.sameAll, Bool.and_eq_true]
    exact ⟨hab, ih⟩
  | expression _ _ ihc ih =>
    rw [Node.sameAll, Bool.and_eq_true]
    exact ⟨ihc, ih⟩

/-- **A text with the words of some nodes is read as these nodes.** -/
theorem Tree.parse_of_words {ns : List Node} {ts : List Token} {cs : List Char}
    (hs : Spells ns ts) (hw : words cs = ts.map Token.text) :
    ∃ u, parse (String.ofList cs) = .ok u ∧ Node.sameAll ns u.root.children = true := by
  obtain ⟨t, hread, hforms⟩ := ofTokens_of_spells hs 0 ⟨0⟩
  have htexts : (Token.scan (String.ofList cs)).map Token.text = ts.map Token.text := by
    rw [← hw, Token.scan, String.toList_ofList]
    rfl
  have hmatch : List.Forall₂ (Token.Matches fun a b => a.same b = true) ts
      (Token.scan (String.ofList cs)) := Token.matches_of_text_eq Atom.same_ofText htexts
  obtain ⟨u, hu, halike⟩ := ofTokens_alike hmatch hread
  refine ⟨u, hu, ?_⟩
  rw [← Node.sameAll_unplacedAll, ← hforms, Node.sameAll_unplacedAll]
  exact halike.children.sameAll

/-! ## The order of the nodes -/

section Order

variable {n m : Node} {ns : List Node} {t : Token} {ts : List Token}

theorem rootSpan_covers (ho : Ordered ts) (ht : t ∈ ts) :
    (Tree.rootSpan ts).start ≤ t.span.start ∧ t.span.stop ≤ (Tree.rootSpan ts).stop := by
  obtain ⟨u, us, rfl⟩ := List.exists_cons_of_ne_nil (List.ne_nil_of_mem ht)
  rw [rootSpan_eq ho]
  obtain ⟨hle, hbehind, hus⟩ := ordered_cons.mp ho
  obtain ⟨hstop, hall⟩ := hus.start_le_stopAll hbehind
  rcases List.mem_cons.mp ht with rfl | ht
  · exact ⟨le_rfl, hstop⟩
  · exact ⟨hle.trans (hbehind t ht), hall t ht⟩

theorem Spells.exists_ends (hs : Spells ns ts) (ho : Ordered ts) (hn : n ∈ ns) :
    (∃ t ∈ ts, n.span.start = t.span.start) ∧ ∃ t ∈ ts, n.span.stop = t.span.stop := by
  have hwalk : n ∈ Node.walk ns := by
    clear hs
    induction ns with
    | nil => cases hn
    | cons m ns ih =>
      rw [Node.walk_cons]
      rcases List.mem_cons.mp hn with rfl | hn
      · exact List.mem_cons_self
      · exact List.mem_cons_of_mem m (List.mem_append_right _ (ih hn))
  obtain ⟨before, inside, after, rfl, hi⟩ := hs.exists_infix hwalk
  obtain ⟨u, us, rfl, hspan⟩ := hi.span_eq
  have hinside : Ordered (u :: us) :=
    ho.sublist (((List.sublist_append_right before _).trans (List.sublist_append_left _ after)))
  rw [hspan, rootSpan_eq hinside]
  refine ⟨⟨u, by simp, rfl⟩, ?_⟩
  obtain ⟨v, hv, hstop⟩ := Token.exists_stopAll u us
  exact ⟨v, List.mem_append_left after (List.mem_append_right before hv), hstop⟩

theorem Spells.pairwise (hs : Spells ns ts) (ho : Ordered ts) :
    ns.Pairwise fun a b => a.span.stop ≤ b.span.start := by
  induction hs with
  | nil => exact .nil
  | @atom place content t ns ts _ _ hs ih =>
    obtain ⟨-, hbehind, hts⟩ := ordered_cons.mp ho
    refine List.pairwise_cons.mpr ⟨fun m hm => ?_, ih hts⟩
    obtain ⟨⟨u, hu, hstart⟩, -⟩ := hs.exists_ends hts hm
    rw [hstart]
    exact hbehind u hu
  | @expression place o c children ns inside ts hok hck hi hs _ ih =>
    have hsplit : o :: (inside ++ c :: ts) = o :: (inside ++ [c]) ++ ts := by simp
    rw [hsplit] at ho
    have hts : Ordered ts := ho.sublist (List.sublist_append_right _ ts)
    have hown : Ordered (o :: (inside ++ [c])) := ho.sublist (List.sublist_append_left _ ts)
    refine List.pairwise_cons.mpr ⟨fun m hm => ?_, ih hts⟩
    obtain ⟨⟨u, hu, hstart⟩, -⟩ := hs.exists_ends hts hm
    have hnode : Spells [.expression place (o.span.join c.span) children] (o :: (inside ++ [c])) :=
      .expression hok hck hi .nil
    obtain ⟨_, _, -, hspan⟩ := hnode.span_eq
    rw [hspan, rootSpan_eq hown, Token.stopAll_concat, hstart]
    exact (List.pairwise_append.mp ho.2).2.2 c (by simp) u hu

theorem Spells.inside (hs : Spells ns ts) (ho : Ordered ts) (hn : n ∈ ns) :
    (Tree.rootSpan ts).start ≤ n.span.start ∧ n.span.stop ≤ (Tree.rootSpan ts).stop := by
  obtain ⟨⟨t, ht, hstart⟩, u, hu, hstop⟩ := hs.exists_ends ho hn
  rw [hstart, hstop]
  exact ⟨(rootSpan_covers ho ht).1, (rootSpan_covers ho hu).2⟩

theorem Spells.children_nested (hs : Spells [n] ts) (ho : Ordered ts) :
    (∀ c ∈ n.children, n.span.start ≤ c.span.start ∧ c.span.stop ≤ n.span.stop) ∧
      n.children.Pairwise fun a b => a.span.stop ≤ b.span.start := by
  obtain ⟨_, _, -, hspan⟩ := hs.span_eq
  rw [hspan]
  cases hs with
  | atom => exact ⟨nofun, .nil⟩
  | @expression place o c children _ inside _ _ _ hi hs =>
    cases hs
    have hsub : inside.Sublist (o :: (inside ++ [c])) :=
      (List.sublist_append_left inside [c]).cons o
    refine ⟨fun m hm => ?_, hi.pairwise (ho.sublist hsub)⟩
    obtain ⟨⟨t, ht, hstart⟩, u, hu, hstop⟩ := hi.exists_ends (ho.sublist hsub) hm
    rw [hstart, hstop]
    exact ⟨(rootSpan_covers ho (hsub.subset ht)).1, (rootSpan_covers ho (hsub.subset hu)).2⟩

end Order

/-! ## Programs -/

namespace Tree

variable {source : String} {t : Tree} {n : Node}

/-- The tokens of the piece that successive tokens span are these tokens, up to where they stand. -/
theorem parse_piece {ns : List Node} {before inside after : List Token} (hne : inside ≠ [])
    (hs : Spells ns inside) (hscan : Token.scan source = before ++ inside ++ after) :
    ∃ u, parse ((rootSpan inside).piece source) = .ok u ∧
      Node.sameAll ns u.root.children = true := by
  obtain ⟨t, ts, rfl⟩ := List.exists_cons_of_ne_nil hne
  have hlaid := laid_scanFrom .first source.toList
  rw [show Token.scanFrom .first source.toList = Token.scan source from rfl, hscan] at hlaid
  exact parse_of_words hs hlaid.words_pieceFrom

theorem root_eq (h : parse source = .ok t) : ∃ place,
    t.root = .expression place (rootSpan (Token.scan source)) t.root.children :=
  ⟨_, root_of_ofTokens h⟩

/-- **The spans of a program are faithful**: the piece of the source that a span takes out is read
as that node alone, and the spans of children lie inside, one behind the other. -/
theorem spans_faithful (h : parse source = .ok t) :
    (∀ n ∈ t.nodes.tail, ∃ u m, parse (n.span.piece source) = .ok u ∧ u.root.children = [m] ∧
      n.same m = true) ∧
    (t.isEmpty = false → ∃ u, parse (t.root.span.piece source) = .ok u ∧ t.same u = true) ∧
    ∀ n ∈ t.nodes,
      (∀ c ∈ n.children, n.span.start ≤ c.span.start ∧ c.span.stop ≤ n.span.stop) ∧
      n.children.Pairwise fun a b => a.span.stop ≤ b.span.start := by
  have hspells : Spells t.root.children (Token.scan source) := spells_root h
  obtain ⟨place, hroot⟩ := root_eq h
  have hordered : Ordered (Token.scan source) := (laid_scanFrom .first source.toList).ordered.1
  have hnodes := t.nodes_eq
  refine ⟨fun n hn => ?_, fun hne => ?_, fun n hn => ?_⟩
  · rw [hnodes, List.tail_cons] at hn
    obtain ⟨before, inside, after, hscan, hi⟩ := hspells.exists_infix hn
    obtain ⟨_, _, hcons, hspan⟩ := hi.span_eq
    obtain ⟨u, hu, hsame⟩ := parse_piece (by simp [hcons]) hi hscan
    rw [hspan]
    rcases hchildren : u.root.children with _ | ⟨m, _ | ⟨m', ms⟩⟩
    · simp [hchildren, Node.sameAll] at hsame
    · exact ⟨u, m, hu, hchildren, by simpa [hchildren, Node.sameAll] using hsame⟩
    · simp [hchildren, Node.sameAll] at hsame
  · have htokens : Token.scan source ≠ [] := by
      intro hnil
      rw [hnil] at hspells
      generalize hchildren : t.root.children = ns at hspells
      cases hspells
      rw [isEmpty, hchildren] at hne
      cases hne
    have hscan : Token.scan source = [] ++ Token.scan source ++ [] := by
      rw [List.nil_append, List.append_nil]
    obtain ⟨u, hu, hsame⟩ := parse_piece htokens hspells hscan
    rw [hroot]
    refine ⟨u, hu, ?_⟩
    obtain ⟨place', hroot'⟩ := root_eq hu
    rw [same, hroot, hroot']
    exact hsame
  · rw [hnodes] at hn
    rcases List.mem_cons.mp hn with rfl | hn
    · have hspan : t.root.span = rootSpan (Token.scan source) := by rw [hroot, Node.span]
      rw [hspan]
      exact ⟨fun c hc => hspells.inside hordered hc, hspells.pairwise hordered⟩
    · obtain ⟨before, inside, after, hscan, hi⟩ := hspells.exists_infix hn
      refine hi.children_nested (hordered.sublist ?_)
      rw [hscan]
      exact (List.sublist_append_right before inside).trans (List.sublist_append_left _ after)

/-- The first form of this program goes over two lines, and its head is not of ASCII. -/
theorem spans_faithful_lines : ∃ t, parse "(é\n 1) x" = .ok t ∧
    t.nodes.map Node.span = [⟨⟨1, 1⟩, ⟨2, 6⟩⟩, ⟨⟨1, 1⟩, ⟨2, 4⟩⟩, ⟨⟨1, 2⟩, ⟨1, 3⟩⟩, ⟨⟨2, 2⟩, ⟨2, 3⟩⟩,
      ⟨⟨2, 5⟩, ⟨2, 6⟩⟩] ∧
    ∀ n ∈ t.nodes.tail, ∃ u m, parse (n.span.piece "(é\n 1) x") = .ok u ∧ u.root.children = [m] ∧
      n.same m = true := by
  have hscan : Token.scan "(é\n 1) x" = [⟨"(", ⟨⟨1, 1⟩, ⟨1, 2⟩⟩⟩, ⟨"é", ⟨⟨1, 2⟩, ⟨1, 3⟩⟩⟩,
      ⟨"1", ⟨⟨2, 2⟩, ⟨2, 3⟩⟩⟩, ⟨")", ⟨⟨2, 3⟩, ⟨2, 4⟩⟩⟩, ⟨"x", ⟨⟨2, 5⟩, ⟨2, 6⟩⟩⟩] := by cbv
  have hparse : parse "(é\n 1) x" = (ofTokens 0 ⟨0⟩ (Token.scan "(é\n 1) x")).outcome := rfl
  rw [hscan] at hparse
  have h := hparse.trans rfl
  refine ⟨_, h, ?_, (spans_faithful h).1⟩
  simp [nodes, Node.walk, Node.children, Node.span]
  exact ⟨rfl, rfl⟩

end Tree

end StepLisp
