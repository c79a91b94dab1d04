import StepLisp.Proofs.Alike
import StepLisp.Proofs.NumberText
import StepLisp.Proofs.Spelling
import StepLisp.Proofs.Words

/-!
# Reading what was printed

The text of a program is read as that program again, with the same nodes in the same places, except
that an infinite number comes back as the identifier with its text.

* `Atom.Reread`, what an atom comes back as, with `Atom.reread_ofText`;
* `words_textAll`: the words of a printed program are the texts of its tokens, printed;
* `Tree.parse_reprinted`: the text of a program is read as a program that is like it;
* **`Tree.parse_text`**: printing is a normal form, and what comes back differs in infinite numbers
  only;
* **`Tree.same_reparsed`**: what comes back is the same program iff it has no infinite number.
-/

namespace StepLisp

open Float.Model (UnpackedFloat)

/-- **What an atom comes back as**, after it was printed. -/
inductive Atom.Reread : Atom → Atom → Prop where
  | identifier (name : String) : Reread (.identifier name) (.identifier name)
  | finite {x : Float} (hx : FiniteNumber x) : Reread (.number x) (.number x)
  | positive {x : Float} (hx : x.toModel.unpack = .infinity .positive) :
      Reread (.number x) (.identifier "inf")
  | negative {x : Float} (hx : x.toModel.unpack = .infinity .negative) :
      Reread (.number x) (.identifier "-inf")

theorem Atom.ofText_eq_identifier {text : String} (h : Numeral.read? text = none) :
    ofText text = .identifier text := by
  rw [ofText, h]

theorem Atom.ofText_eq_number {text : String} {x : Float} (h : Numeral.read? text = some x) :
    ofText text = .number x := by
  rw [ofText, h]

theorem Atom.reread_ofText (text : String) : (ofText text).Reread (ofText (ofText text).text) := by
  rcases h : Numeral.read? text with _ | x
  · rw [ofText_eq_identifier h, Atom.text, ofText_eq_identifier h]
    exact .identifier text
  · rw [ofText_eq_number h, Atom.text]
    obtain ⟨n, -, rfl⟩ := Option.map_eq_some_iff.mp h
    have hn := n.value_ne_notANumber
    by_cases hi : ∃ s, n.value.toModel.unpack = .infinity s
    · obtain ⟨s, hs⟩ := hi
      rw [numberText_eq hs]
      cases s with
      | positive => exact .positive hs
      | negative => exact .negative hs
    · have hfinite : FiniteNumber n.value := ⟨hn, fun s hs => hi ⟨s, hs⟩⟩
      rw [ofText_eq_number (read?_numberText hfinite)]
      exact .finite hfinite

theorem Atom.Reread.text_eq {a b : Atom} (h : a.Reread b) : a.text = b.text := by
  cases h with
  | identifier name => rfl
  | finite hx => rfl
  | positive hx =>
    rw [Atom.text, numberText_eq hx]
    rfl
  | negative hx =>
    rw [Atom.text, numberText_eq hx]
    rfl

/-! ## Printed atoms are words -/

theorem isAtomChar_of_isDigit {c : Char} (h : c.isDigit = true) : isAtomChar c = true := by
  have hlow : 48 ≤ c.toNat := by simpa using (Char.isDigit_iff_toNat.mp h).1
  have hhigh : c.toNat ≤ 57 := by simpa using (Char.isDigit_iff_toNat.mp h).2
  refine isAtomChar_eq.mpr ⟨?_, ?_⟩
  · simp only [isBlank, blankRanges, List.any_cons, List.any_nil, Bool.or_false]
    simp
    omega
  · have hopen : c ≠ '(' := fun heq => by rw [heq] at h; exact absurd h (by decide)
    have hclose : c ≠ ')' := fun heq => by rw [heq] at h; exact absurd h (by decide)
    simp [isParen, hopen, hclose]

theorem Word.of_digits {ds : List Char} (hd : Numeral.Digits ds) (hne : ds ≠ []) : Word ds :=
  ⟨hne, fun c hc => isAtomChar_of_isDigit (hd c hc)⟩

theorem Word.cons {c : Char} {w : List Char} (hc : isAtomChar c = true) (hw : Word w) :
    Word (c :: w) := by
  refine ⟨List.cons_ne_nil _ _, fun d hd => ?_⟩
  rcases List.mem_cons.mp hd with rfl | hd
  · exact hc
  · exact hw.atomChars d hd

theorem Decimal.word_positional (d : Decimal) : Word (positional "" d).toList := by
  obtain ⟨g, k | k⟩ := d
  · rw [positional_ofNat]
    exact .of_digits ((Numeral.digits_repr g).append (Numeral.digits_replicate k)) (by simp)
  · obtain ⟨ds, fs, htext, hd, hf, -, hlen, -⟩ := positional_negSucc g k
    rw [htext]
    refine ⟨by simp, fun c hc => ?_⟩
    rcases List.mem_append.mp hc with hc | hc
    · exact isAtomChar_of_isDigit (hd c hc)
    rcases List.mem_cons.mp hc with rfl | hc
    · decide
    · exact isAtomChar_of_isDigit (hf c hc)

theorem word_numberText (x : Float) : Word (numberText x).toList := by
  rw [numberText, NumberFormat.write]
  rcases x.toModel.unpack with s | _ | s | ⟨s, m, e, hm⟩
  · cases s <;> exact .of_all rfl rfl
  · exact .of_all rfl rfl
  · cases s <;> exact .of_all rfl rfl
  · have hw := Decimal.word_positional (.shortest m e)
    cases s with
    | positive => simpa [NumberFormat.writeUnpacked, NumberFormat.signText,
        NumberFormat.writeDecimal, NumberFormat.plain] using hw
    | negative =>
      have hminus := hw.cons (c := '-') (by decide)
      simpa [NumberFormat.writeUnpacked, NumberFormat.signText,
        NumberFormat.writeDecimal, NumberFormat.plain] using hminus

theorem Atom.word_text {text : String} (h : Word text.toList) : Word (ofText text).text.toList := by
  rcases hr : Numeral.read? text with _ | x
  · rwa [ofText_eq_identifier hr]
  · rw [ofText_eq_number hr]
    exact word_numberText x

/-! ## The words of a printed program -/

/-- What stands between a node and its successors: a blank, if there are any. -/
def Node.tailText : List Node → String
  | [] => ""
  | n :: rest => " " ++ textAll (n :: rest)

theorem Node.textAll_cons (n : Node) (rest : List Node) :
    textAll (n :: rest) = n.text ++ tailText rest := by
  cases rest with
  | nil => rw [textAll, tailText, String.append_empty]
  | cons m rest => rw [textAll, tailText, String.append_assoc]

theorem Node.tailText_cons (n : Node) (rest : List Node) :
    tailText (n :: rest) = " " ++ (n.text ++ tailText rest) := by
  rw [tailText, textAll_cons]

theorem edge_tailText (ns : List Node) {rest : List Char} (hr : Edge rest) :
    Edge ((Node.tailText ns).toList ++ rest) := by
  cases ns with
  | nil => simpa [Node.tailText] using hr
  | cons n ns =>
    rw [Node.tailText, String.toList_append]
    exact edge_cons (by decide) _

theorem words_tailText (ns : List Node) (rest : List Char) :
    words ((Node.tailText ns).toList ++ rest) = words ((Node.textAll ns).toList ++ rest) := by
  cases ns with
  | nil => rfl
  | cons n ns =>
    rw [Node.tailText, String.toList_append]
    exact words_blank (by decide)

/-- The text that a token is printed with. -/
def Token.printed (t : Token) : String :=
  if t.kind = .atom then (Atom.ofText t.text).text else t.text

theorem Token.printed_opening {t : Token} (h : t.kind = .opening) :
    t.printed = String.singleton '(' := by
  rw [printed, if_neg (by simp [h]), kind_eq_opening.mp h]
  rfl

theorem Token.printed_closing {t : Token} (h : t.kind = .closing) :
    t.printed = String.singleton ')' := by
  rw [printed, if_neg (by simp [h]), kind_eq_closing.mp h]
  rfl

/-- **The words of a printed program are its tokens, printed.** -/
theorem words_textAll {ns : List Node} {ts : List Token} (hs : Spells ns ts)
    (hw : ∀ t ∈ ts, t.kind = .atom → Word t.text.toList) {rest : List Char} (hr : Edge rest) :
    words ((Node.textAll ns).toList ++ rest) = ts.map Token.printed ++ words rest := by
  induction hs generalizing rest with
  | nil => rfl
  | @atom place content t ns ts ht hc _ ih =>
    obtain rfl := Atom.denoted_iff.mp hc
    have hword := Atom.word_text (hw t List.mem_cons_self ht)
    have htail := ih (fun u hu => hw u (List.mem_cons_of_mem t hu)) hr
    rw [Node.textAll_cons, String.toList_append, List.append_assoc, Node.text,
      words_append_word hword (edge_tailText ns hr), words_tailText, htail, String.ofList_toList,
      List.map_cons, Token.printed, if_pos ht, List.cons_append]
  | @expression place o c children ns inside ts ho hc _ _ ihi ih =>
    have hinside := ihi (fun u hu => hw u (by simp [hu]))
      (edge_cons (by decide : isAtomChar ')' = false) ((Node.tailText ns).toList ++ rest))
    have htail := ih (fun u hu => hw u (by simp [hu])) hr
    have htext : (Node.textAll (.expression place (o.span.join c.span) children :: ns)).toList ++
        rest = '(' :: ((Node.textAll children).toList ++ ')' ::
          ((Node.tailText ns).toList ++ rest)) := by
      simp [Node.textAll_cons, Node.text]
    rw [htext, words_paren (by decide) (by decide), hinside, words_paren (by decide) (by decide),
      words_tailText, htail]
    simp [Token.printed_opening ho, Token.printed_closing hc]

theorem Token.matches_printed {t u : Token} (hw : t.kind = .atom → Word t.text.toList)
    (hu : u.text = t.printed) : t.Matches Atom.Reread u := by
  by_cases hk : t.kind = .atom
  · rw [printed, if_pos hk] at hu
    have hword : Word u.text.toList := hu ▸ Atom.word_text (hw hk)
    refine ⟨hk.trans hword.kind_eq.symm, fun _ => ?_⟩
    rw [hu]
    exact Atom.reread_ofText t.text
  · rw [printed, if_neg hk] at hu
    refine ⟨?_, fun h => absurd h hk⟩
    rw [kind, kind, hu]

theorem Token.matches_of_texts {ts us : List Token}
    (hw : ∀ t ∈ ts, t.kind = .atom → Word t.text.toList)
    (h : us.map Token.text = ts.map Token.printed) :
    List.Forall₂ (Token.Matches Atom.Reread) ts us := by
  induction ts generalizing us with
  | nil =>
    obtain rfl : us = [] := List.map_eq_nil_iff.mp h
    exact .nil
  | cons t ts ih =>
    obtain ⟨u, us, rfl, hu, hus⟩ := List.map_eq_cons_iff.mp h
    exact .cons (matches_printed (hw t List.mem_cons_self) hu)
      (ih (fun s hs => hw s (List.mem_cons_of_mem t hs)) hus)

/-! ## Programs -/

namespace Alike

variable {ns ms : List Node}

theorem textAll_eq (h : Alike Atom.Reread ns ms) :
    Node.textAll ns = Node.textAll ms ∧ Node.tailText ns = Node.tailText ms := by
  induction h with
  | nil => exact ⟨rfl, rfl⟩
  | atom hab _ ih =>
    simp only [Node.tailText_cons, Node.textAll_cons, Node.text, hab.text_eq, ih.2, and_self]
  | expression _ _ ihc ih =>
    simp only [Node.tailText_cons, Node.textAll_cons, Node.text, ihc.1, ih.2, and_self]

end Alike

namespace Tree

theorem parse_reprinted {source : String} {t : Tree} (h : parse source = .ok t) :
    ∃ u, parse t.text = .ok u ∧ Alike Atom.Reread [t.root] [u.root] := by
  have hw : ∀ s ∈ Token.scan source, s.kind = .atom → Word s.text.toList := fun s hs =>
    Token.word_of_mem_scan hs
  have hspells : Spells t.root.children (Token.scan source) := spells_root h
  have htexts : (Token.scan t.text).map Token.text = (Token.scan source).map Token.printed := by
    have hwords := words_textAll hspells hw edge_nil
    rwa [List.append_nil, words_nil, List.append_nil] at hwords
  exact ofTokens_alike (Token.matches_of_texts hw htexts) h

/-- **Printing is a normal form.** The text of a program is read as a program with the same text and
the same nodes in the same places, except that an infinite number has become the identifier with its
text. -/
theorem parse_text {source : String} {t : Tree} (h : parse source = .ok t) :
    ∃ u, parse t.text = .ok u ∧ u.text = t.text ∧ u.nodes.length = t.nodes.length ∧
      List.Forall₂ (Node.Corresponds Atom.Reread) t.nodes u.nodes := by
  obtain ⟨u, hu, halike⟩ := parse_reprinted h
  have htext : t.text = u.text := by
    obtain ⟨root⟩ := t
    obtain ⟨root'⟩ := u
    cases halike with
    | atom _ _ => rfl
    | expression hc _ => exact hc.textAll_eq.1
  have hnodes := halike.walk
  exact ⟨u, hu, htext.symm, hnodes.length_eq.symm, hnodes⟩

theorem parse_text_overflow : ∃ t, parse "(f -0) 1e9999" = .ok t ∧ t.text = "(f -0) inf" ∧
    ∃ u, parse t.text = .ok u ∧ u.text = t.text ∧ u.nodes.length = t.nodes.length ∧
      List.Forall₂ (Node.Corresponds Atom.Reread) t.nodes u.nodes := by
  have hscan : Token.scan "(f -0) 1e9999" = [⟨"(", ⟨⟨1, 1⟩, ⟨1, 2⟩⟩⟩, ⟨"f", ⟨⟨1, 2⟩, ⟨1, 3⟩⟩⟩,
      ⟨"-0", ⟨⟨1, 4⟩, ⟨1, 6⟩⟩⟩, ⟨")", ⟨⟨1, 6⟩, ⟨1, 7⟩⟩⟩, ⟨"1e9999", ⟨⟨1, 8⟩, ⟨1, 14⟩⟩⟩] := by cbv
  have htree : parse "(f -0) 1e9999" = (ofTokens 0 ⟨0⟩ (Token.scan "(f -0) 1e9999")).outcome := rfl
  rw [hscan] at htree
  exact ⟨_, htree.trans rfl, rfl, parse_text (htree.trans rfl)⟩

end Tree

/-! ## Equality -/

/-- Whether a node is an infinite number. -/
def Node.Infinite : Node → Prop
  | .atom _ _ (.number x) => ∃ s, x.toModel.unpack = .infinity s
  | _ => False

theorem Atom.Reread.same_iff {a b : Atom} (h : a.Reread b) (place : Place) (span : Span) :
    a.same b = true ↔ ¬ (Node.atom place span a).Infinite := by
  cases h with
  | identifier name => simp [Atom.same, Node.Infinite]
  | finite hx => exact ⟨fun _ ⟨s, hs⟩ => hx.2 s hs, fun _ => beq_self hx.1⟩
  | positive hx => exact ⟨nofun, fun hi => absurd ⟨_, hx⟩ hi⟩
  | negative hx => exact ⟨nofun, fun hi => absurd ⟨_, hx⟩ hi⟩

theorem Alike.sameAll_iff {ns ms : List Node} (h : Alike Atom.Reread ns ms) :
    Node.sameAll ns ms = true ↔ ∀ n ∈ Node.walk ns, ¬ n.Infinite := by
  induction h with
  | nil => simp [Node.sameAll, Node.walk]
  | @atom place span _ a b ns ms hab _ ih =>
    rw [Node.walk_cons, Node.children, Node.walk, List.nil_append, List.forall_mem_cons,
      Node.sameAll, Bool.and_eq_true, Node.same, hab.same_iff place span, ih]
  | @expression place span _ cs ds ns ms _ _ ihc ih =>
    have hnode : ¬ (Node.expression place span cs).Infinite := id
    rw [Node.walk_cons, Node.children, List.forall_mem_cons, List.forall_mem_append,
      Node.sameAll, Bool.and_eq_true, Node.same, ihc, ih]
    exact ⟨fun hs => ⟨hnode, hs⟩, fun hs => hs.2⟩

namespace Tree

/-- **What comes back is the same program iff it has no infinite number.** -/
theorem same_reparsed {source : String} {t : Tree} (h : parse source = .ok t) :
    ∃ u, parse t.text = .ok u ∧ (t.same u = true ↔ ∀ n ∈ t.nodes, ¬ n.Infinite) := by
  obtain ⟨u, hu, halike⟩ := parse_reprinted h
  refine ⟨u, hu, ?_⟩
  rw [nodes, ← halike.sameAll_iff, Node.sameAll, Node.sameAll, Bool.and_true, same]

theorem same_reparsed_negativeZero : ∃ t, parse "-0" = .ok t ∧
    ∃ u, parse t.text = .ok u ∧ t.same u = true := by
  have hscan : Token.scan "-0" = [⟨"-0", ⟨⟨1, 1⟩, ⟨1, 3⟩⟩⟩] := by cbv
  let zero : Node := .atom ⟨0, ⟨1⟩⟩ ⟨⟨1, 1⟩, ⟨1, 3⟩⟩ (.number (.ofModel (.pack (.zero .negative))))
  have hparse : parse "-0" = .ok ⟨.expression ⟨0, ⟨0⟩⟩ ⟨⟨1, 1⟩, ⟨1, 3⟩⟩ [zero]⟩ := by
    rw [parse, ofSource, hscan]
    rfl
  obtain ⟨u, hu, hsame⟩ := same_reparsed hparse
  refine ⟨_, hparse, u, hu, hsame.mpr ?_⟩
  have hzero : ¬ zero.Infinite := by
    rintro ⟨s, hs⟩
    exact UnpackedFloat.noConfusion (show UnpackedFloat.zero .negative = .infinity s from hs)
  simpa [nodes, Node.walk, Node.children, zero, Node.Infinite] using hzero

/-- A number that is too large is printed as an identifier. -/
theorem overflow_not_same : ∃ t, parse "1e9999" = .ok t ∧
    ∃ u, parse t.text = .ok u ∧ t.same u = false := by
  have ht : Token.scan "1e9999" = [⟨"1e9999", ⟨⟨1, 1⟩, ⟨1, 7⟩⟩⟩] := by cbv
  have hu : Token.scan "inf" = [⟨"inf", ⟨⟨1, 1⟩, ⟨1, 4⟩⟩⟩] := by cbv
  have htree : parse "1e9999" = (ofTokens 0 ⟨0⟩ [⟨"1e9999", ⟨⟨1, 1⟩, ⟨1, 7⟩⟩⟩]).outcome := by
    rw [parse, ofSource, ht]
  have htree' : parse "inf" = (ofTokens 0 ⟨0⟩ [⟨"inf", ⟨⟨1, 1⟩, ⟨1, 4⟩⟩⟩]).outcome := by
    rw [parse, ofSource, hu]
  exact ⟨_, htree.trans rfl, _, htree'.trans rfl, rfl⟩

end Tree

end StepLisp
