import Mathlib.Data.List.Induction
import Mathlib.Order.Lattice
import StepLisp.Proofs.Words
import StepLisp.Source.Parse

/-!
# The layout of a text

A text is made up of its tokens with blanks between them, and positions grow along it. So the tokens
stand in their order without overlap, and the piece of the text that a span takes out is what stands
between its two positions.

* the linear order of the positions, with `Position.lt_after`: they grow along a text;
* `Span.piece`, the piece of a text that a span takes out, and **`Span.pieceFrom_eq`**;
* `Laid`, the tokens that a text is made up of from a position on, with `laid_scanFrom` and
  `Laid.scanFrom_eq`: these are the tokens that are read from it; and **`Laid.split`**: it can be
  cut behind every token;
* `Ordered`, tokens one behind the other, and `Laid.ordered`;
* **`Laid.words_pieceFrom`**: successive tokens of a text are the words of the piece that they span.
-/

namespace StepLisp

/-! ## Positions along a text -/

namespace Position

/-- The order of the positions is linear. -/
instance : LinearOrder Position where
  le_refl p := .inr ⟨rfl, Nat.le_refl _⟩
  le_trans p q r h h' := by
    rw [le_def] at *
    omega
  le_antisymm p q h h' := by
    obtain ⟨l, c⟩ := p
    obtain ⟨l', c'⟩ := q
    simp only [le_def, mk.injEq] at *
    omega
  le_total p q := by
    simp only [le_def]
    omega
  toDecidableLE := inferInstance

theorem lt_after (p : Position) (c : Char) : p < p.after c := by
  rw [lt_iff_le_not_ge, le_def, le_def]
  unfold after
  split <;> dsimp only <;> omega

theorem afterAll_cons (p : Position) (c : Char) (cs : List Char) :
    p.afterAll (c :: cs) = (p.after c).afterAll cs := rfl

theorem afterAll_append (p : Position) (as bs : List Char) :
    p.afterAll (as ++ bs) = (p.afterAll as).afterAll bs := List.foldl_append

theorem le_afterAll (p : Position) (cs : List Char) : p ≤ p.afterAll cs := by
  induction cs generalizing p with
  | nil => exact le_rfl
  | cons c cs ih => exact (p.lt_after c).le.trans (ih (p.after c))

theorem lt_afterAll (p : Position) (c : Char) (cs : List Char) : p < p.afterAll (c :: cs) :=
  (p.lt_after c).trans_le ((p.after c).le_afterAll cs)

end Position

/-! ## Pieces of a text -/

namespace Span

/-- The piece that a span takes out of the text `cs` that starts at `p`: the characters at the
positions from the start of the span up to its end, which is left out. -/
def pieceFrom (s : Span) (p : Position) : List Char → List Char
  | [] => []
  | c :: cs =>
    if s.start ≤ p ∧ ¬ s.stop ≤ p then c :: s.pieceFrom (p.after c) cs
    else s.pieceFrom (p.after c) cs

/-- The piece of a source text that a span takes out. -/
def piece (s : Span) (source : String) : String :=
  String.ofList (s.pieceFrom .first source.toList)

variable {s : Span} {p : Position} {cs : List Char}

theorem pieceFrom_append (s : Span) (p : Position) (as bs : List Char) :
    s.pieceFrom p (as ++ bs) = s.pieceFrom p as ++ s.pieceFrom (p.afterAll as) bs := by
  induction as generalizing p with
  | nil => rfl
  | cons a as ih =>
    rw [List.cons_append, pieceFrom, pieceFrom, ih, Position.afterAll_cons]
    split <;> rfl

theorem pieceFrom_before (h : p.afterAll cs ≤ s.start) : s.pieceFrom p cs = [] := by
  induction cs generalizing p with
  | nil => rfl
  | cons c cs ih =>
    have hout : p < s.start := (p.lt_afterAll c cs).trans_le h
    rw [pieceFrom, if_neg fun hin => hout.not_ge hin.1, ih h]

theorem pieceFrom_inside (hp : s.start ≤ p) (h : p.afterAll cs ≤ s.stop) :
    s.pieceFrom p cs = cs := by
  induction cs generalizing p with
  | nil => rfl
  | cons c cs ih =>
    have hin : p < s.stop := (p.lt_afterAll c cs).trans_le h
    rw [pieceFrom, if_pos ⟨hp, hin.not_ge⟩, ih (hp.trans (p.lt_after c).le) h]

theorem pieceFrom_behind (h : s.stop ≤ p) : s.pieceFrom p cs = [] := by
  induction cs generalizing p with
  | nil => rfl
  | cons c cs ih =>
    rw [pieceFrom, if_neg fun hin => hin.2 h, ih (h.trans (p.lt_after c).le)]

/-- **A span takes out what stands between its two positions.** -/
theorem pieceFrom_eq (p : Position) (before inside after : List Char) :
    Span.pieceFrom ⟨p.afterAll before, p.afterAll (before ++ inside)⟩ p
      (before ++ inside ++ after) = inside := by
  rw [pieceFrom_append, pieceFrom_append, pieceFrom_before le_rfl, List.nil_append,
    pieceFrom_inside le_rfl (Position.afterAll_append _ _ _).ge, pieceFrom_behind le_rfl,
    List.append_nil]

end Span

/-! ## The tokens of a text -/

/-- **What a text is made up of**: blanks and tokens, from the position `p` on. A word ends where no
further character of an atom follows. -/
inductive Laid : Position → List Char → List Token → Prop where
  | nil {p : Position} : Laid p [] []
  | blank {p : Position} {c : Char} {cs : List Char} {ts : List Token} (hc : isBlank c = true)
      (h : Laid (p.after c) cs ts) : Laid p (c :: cs) ts
  | paren {p : Position} {c : Char} {cs : List Char} {ts : List Token} (hb : isBlank c = false)
      (hc : isParen c = true) (h : Laid (p.after c) cs ts) :
      Laid p (c :: cs) (.ofChars p [c] :: ts)
  | word {p : Position} {w cs : List Char} {ts : List Token} (hw : Word w) (he : Edge cs)
      (h : Laid (p.afterAll w) cs ts) : Laid p (w ++ cs) (.ofChars p w :: ts)

theorem edge_dropWhile (cs : List Char) : Edge (cs.dropWhile isAtomChar) := by
  induction cs with
  | nil => exact edge_nil
  | cons c cs ih =>
    by_cases hc : isAtomChar c = true
    · rwa [List.dropWhile_cons_of_pos hc]
    · rw [List.dropWhile_cons_of_neg hc]
      exact edge_cons (by simpa using hc) cs

theorem laid_scanFrom (p : Position) (cs : List Char) : Laid p cs (Token.scanFrom p cs) := by
  fun_induction Token.scanFrom p cs with
  | case1 => exact .nil
  | case2 p c cs hb ih => exact .blank hb ih
  | case3 p c cs hb hp ih => exact .paren (by simpa using hb) hp ih
  | case4 p c cs hb hp word ih =>
    have hc : isAtomChar c = true := isAtomChar_eq.mpr ⟨by simpa using hb, by simpa using hp⟩
    have hsplit : c :: cs = word ++ cs.dropWhile isAtomChar := by
      rw [List.cons_append, List.takeWhile_append_dropWhile]
    rw [hsplit]
    exact .word (.of_takeWhile hc cs) (edge_dropWhile cs) ih

/-! ### Where tokens end -/

theorem Word.afterAll_eq {w : List Char} (hw : ∀ c ∈ w, isAtomChar c = true) (p : Position) :
    p.afterAll w = ⟨p.line, p.column + w.length⟩ := by
  induction w generalizing p with
  | nil => rfl
  | cons c w ih =>
    have hc : c ≠ '\n' := by
      rintro rfl
      exact absurd (hw '\n' List.mem_cons_self) (by decide)
    rw [Position.afterAll_cons, Position.after, if_neg hc,
      ih fun d hd => hw d (List.mem_cons_of_mem c hd), List.length_cons, Nat.add_assoc,
      Nat.add_comm 1]

namespace Token

theorem stop_word {w : List Char} (hw : Word w) (p : Position) :
    (ofChars p w).span.stop = p.afterAll w := (Word.afterAll_eq hw.atomChars p).symm

theorem stop_paren {c : Char} (hc : isParen c = true) (p : Position) :
    (ofChars p [c]).span.stop = p.after c := by
  have hne : c ≠ '\n' := by
    rintro rfl
    exact absurd hc (by decide)
  rw [Position.after, if_neg hne]
  rfl

/-- The position behind some tokens, of which the first is expected at `p`. -/
def stopAll (p : Position) : List Token → Position
  | [] => p
  | t :: ts => stopAll t.span.stop ts

theorem stopAll_concat (p : Position) (ts : List Token) (t : Token) :
    stopAll p (ts ++ [t]) = t.span.stop := by
  induction ts generalizing p with
  | nil => rfl
  | cons u us ih => exact ih u.span.stop

theorem exists_stopAll (t : Token) (ts : List Token) :
    ∃ u ∈ t :: ts, stopAll t.span.stop ts = u.span.stop := by
  induction ts generalizing t with
  | nil => exact ⟨t, List.mem_cons_self, rfl⟩
  | cons v vs ih =>
    obtain ⟨u, hu, hstop⟩ := ih v
    exact ⟨u, List.mem_cons_of_mem t hu, hstop⟩

end Token

theorem Edge.of_append {as bs : List Char} (h : Edge (as ++ bs)) : Edge as := by
  cases as with
  | nil => exact edge_nil
  | cons a as =>
    by_cases ha : isAtomChar a = true
    · simp [Edge, ha] at h
    · exact edge_cons (by simpa using ha) as

namespace Laid

variable {p : Position} {cs : List Char} {t : Token} {ts us : List Token}

theorem scanFrom_eq (h : Laid p cs ts) : Token.scanFrom p cs = ts := by
  induction h with
  | nil => exact scanFrom_nil _
  | blank hc _ ih => rw [scanFrom_blank hc, ih]
  | paren hb hc _ ih => rw [scanFrom_paren hb hc, ih]
  | word hw he _ ih => rw [scanFrom_word hw he, ih]

theorem words_eq (h : Laid p cs ts) : words cs = ts.map Token.text := by
  rw [← map_text_scanFrom p, h.scanFrom_eq]

/-- **A text can be cut behind every token.** -/
theorem split (h : Laid p cs (ts ++ us)) :
    ∃ as bs, cs = as ++ bs ∧ Laid p as ts ∧ Token.stopAll p ts = p.afterAll as ∧
      Laid (p.afterAll as) bs us := by
  generalize hvs : ts ++ us = vs at h
  induction h generalizing ts with
  | nil =>
    obtain ⟨rfl, rfl⟩ := List.append_eq_nil_iff.mp hvs
    exact ⟨[], [], rfl, .nil, rfl, .nil⟩
  | @blank p c cs vs hc h ih =>
    cases ts with
    | nil =>
      subst hvs
      exact ⟨[], c :: cs, rfl, .nil, rfl, .blank hc h⟩
    | cons t ts =>
      obtain ⟨as, bs, rfl, has, hstop, hbs⟩ := ih hvs
      exact ⟨c :: as, bs, rfl, .blank hc has, hstop, hbs⟩
  | @paren p c cs vs hb hc h ih =>
    cases ts with
    | nil =>
      subst hvs
      exact ⟨[], c :: cs, rfl, .nil, rfl, .paren hb hc h⟩
    | cons t ts =>
      obtain ⟨rfl, hvs'⟩ := List.cons.inj hvs
      obtain ⟨as, bs, rfl, has, hstop, hbs⟩ := ih hvs'
      refine ⟨c :: as, bs, rfl, .paren hb hc has, ?_, hbs⟩
      rw [Token.stopAll, Token.stop_paren hc, hstop, Position.afterAll_cons]
  | @word p w cs vs hw he h ih =>
    cases ts with
    | nil =>
      subst hvs
      exact ⟨[], w ++ cs, rfl, .nil, rfl, .word hw he h⟩
    | cons t ts =>
      obtain ⟨rfl, hvs'⟩ := List.cons.inj hvs
      obtain ⟨as, bs, rfl, has, hstop, hbs⟩ := ih hvs'
      refine ⟨w ++ as, bs, (List.append_assoc _ _ _).symm, .word hw he.of_append has, ?_, ?_⟩
      · rw [Token.stopAll, Token.stop_word hw, hstop, Position.afterAll_append]
      · rwa [Position.afterAll_append]

theorem leading (h : Laid p cs (t :: ts)) :
    ∃ as bs, cs = as ++ bs ∧ t.span.start = p.afterAll as ∧ Laid (p.afterAll as) bs (t :: ts) := by
  generalize hvs : t :: ts = vs at h
  induction h with
  | nil => cases hvs
  | @blank p c cs vs hc _ ih =>
    obtain ⟨as, bs, rfl, hstart, hbs⟩ := ih hvs
    exact ⟨c :: as, bs, rfl, hstart, hbs⟩
  | @paren p c cs vs hb hc h _ =>
    obtain ⟨rfl, rfl⟩ := List.cons.inj hvs
    exact ⟨[], c :: cs, rfl, rfl, .paren hb hc h⟩
  | @word p w cs vs hw he h _ =>
    obtain ⟨rfl, rfl⟩ := List.cons.inj hvs
    exact ⟨[], w ++ cs, rfl, rfl, .word hw he h⟩

end Laid

/-! ### The order of the tokens -/

/-- Tokens one behind the other, none of which stops before it starts. -/
def Ordered (ts : List Token) : Prop :=
  (∀ t ∈ ts, t.span.start ≤ t.span.stop) ∧ ts.Pairwise fun t u => t.span.stop ≤ u.span.start

section Ordered

variable {p : Position} {cs : List Char} {t u : Token} {ts us : List Token}

theorem ordered_cons : Ordered (t :: ts) ↔
    t.span.start ≤ t.span.stop ∧ (∀ u ∈ ts, t.span.stop ≤ u.span.start) ∧ Ordered ts := by
  unfold Ordered
  rw [List.forall_mem_cons, List.pairwise_cons]
  exact ⟨fun ⟨⟨a, b⟩, c, d⟩ => ⟨a, c, b, d⟩, fun ⟨a, c, b, d⟩ => ⟨⟨a, b⟩, c, d⟩⟩

theorem Ordered.sublist (h : Ordered us) (hs : ts.Sublist us) : Ordered ts :=
  ⟨fun t ht => h.1 t (hs.subset ht), h.2.sublist hs⟩

theorem Laid.ordered (h : Laid p cs ts) : Ordered ts ∧ ∀ t ∈ ts, p ≤ t.span.start := by
  induction h with
  | nil => exact ⟨⟨nofun, .nil⟩, nofun⟩
  | @blank p c cs ts _ _ ih => exact ⟨ih.1, fun t ht => (p.lt_after c).le.trans (ih.2 t ht)⟩
  | @paren p c cs ts _ hc _ ih =>
    have hstop := Token.stop_paren hc p
    refine ⟨ordered_cons.mpr ⟨?_, fun u hu => ?_, ih.1⟩, fun t ht => ?_⟩
    · rw [hstop]
      exact (p.lt_after c).le
    · rw [hstop]
      exact ih.2 u hu
    · rcases List.mem_cons.mp ht with rfl | ht
      · exact le_rfl
      · exact (p.lt_after c).le.trans (ih.2 t ht)
  | @word p w cs ts hw _ _ ih =>
    have hstop := Token.stop_word hw p
    refine ⟨ordered_cons.mpr ⟨?_, fun u hu => ?_, ih.1⟩, fun t ht => ?_⟩
    · rw [hstop]
      exact p.le_afterAll w
    · rw [hstop]
      exact ih.2 u hu
    · rcases List.mem_cons.mp ht with rfl | ht
      · exact le_rfl
      · exact (p.le_afterAll w).trans (ih.2 t ht)

theorem Ordered.start_le_stopAll (h : Ordered ts) (hp : ∀ t ∈ ts, p ≤ t.span.start) :
    p ≤ Token.stopAll p ts ∧ ∀ t ∈ ts, t.span.stop ≤ Token.stopAll p ts := by
  induction ts generalizing p with
  | nil => exact ⟨le_rfl, nofun⟩
  | cons t ts ih =>
    obtain ⟨hle, hbehind, hts⟩ := ordered_cons.mp h
    obtain ⟨hstop, hall⟩ := ih hts hbehind
    refine ⟨(hp t List.mem_cons_self).trans (hle.trans hstop), fun u hu => ?_⟩
    rcases List.mem_cons.mp hu with rfl | hu
    · exact hstop
    · exact hall u hu

theorem rootSpan_eq (h : Ordered (t :: ts)) :
    Tree.rootSpan (t :: ts) = ⟨t.span.start, Token.stopAll t.span.stop ts⟩ := by
  obtain ⟨hle, hbehind, hts⟩ := ordered_cons.mp h
  induction ts using List.reverseRecOn with
  | nil => simp [Tree.rootSpan, Span.join, Position.earlier, Position.later, Token.stopAll]
  | append_singleton ts u _ =>
    have hu : u ∈ ts ++ [u] := by simp
    have hstart : t.span.start ≤ u.span.start := hle.trans (hbehind u hu)
    have hstop : t.span.stop ≤ u.span.stop := (hbehind u hu).trans (hts.1 u hu)
    have hlast : (t :: (ts ++ [u])).getLast? = some u := List.getLast?_concat (l := t :: ts)
    rw [Tree.rootSpan, List.head?_cons, hlast, Token.stopAll_concat]
    dsimp only
    rw [Span.join, Position.earlier, if_pos hstart, Position.later]
    split
    · rw [le_antisymm hstop ‹_›]
    · rfl

/-- **Successive tokens of a text are the words of the piece that they span.** -/
theorem Laid.words_pieceFrom {before after : List Token}
    (h : Laid p cs (before ++ (t :: ts) ++ after)) :
    words ((Tree.rootSpan (t :: ts)).pieceFrom p cs) = (t :: ts).map Token.text := by
  rw [List.append_assoc] at h
  obtain ⟨as, bs, rfl, -, -, hbs⟩ := h.split
  obtain ⟨cs, bs, rfl, hcs, hstop, -⟩ := hbs.split
  obtain ⟨blanks, piece, rfl, hstart, hpiece⟩ := hcs.leading
  have hspan : Tree.rootSpan (t :: ts) =
      ⟨p.afterAll (as ++ blanks), p.afterAll (as ++ blanks ++ piece)⟩ := by
    rw [rootSpan_eq hpiece.ordered.1, hstart, ← Position.afterAll_append, List.append_assoc,
      Position.afterAll_append p as (blanks ++ piece), ← hstop]
    rfl
  rw [hspan, ← List.append_assoc, ← List.append_assoc, Span.pieceFrom_eq]
  exact hpiece.words_eq

end Ordered

end StepLisp
