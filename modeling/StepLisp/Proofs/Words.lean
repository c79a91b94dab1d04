import Mathlib.Data.List.TakeWhile
import StepLisp.Source.Token

/-!
# The words of a text

The texts of the tokens of a source text, which do not depend on where it starts: parentheses, and
words of characters that may stand in an atom.

* `words`, the texts of the tokens; for the tokens and for their texts there is an equation for
  every kind of beginning;
* `Word`, and `Edge`, the texts at which a word before them ends;
* **`scanFrom_word`**: a word before an edge is one token;
* `Token.word_of_mem_scan`: the atoms of a text are words.
-/

namespace StepLisp

/-- The texts of the tokens of a text. -/
def words (cs : List Char) : List String := (Token.scanFrom .first cs).map Token.text

/-- A word is a non-empty text of characters that may stand in an atom. -/
structure Word (cs : List Char) : Prop where
  ne_nil : cs ≠ []
  atomChars : ∀ c ∈ cs, isAtomChar c = true

/-- A text that does not go on with a word. -/
def Edge (cs : List Char) : Prop := cs.takeWhile isAtomChar = []

theorem edge_nil : Edge [] := rfl

theorem edge_cons {c : Char} (hc : isAtomChar c = false) (cs : List Char) : Edge (c :: cs) := by
  simp [Edge, hc]

theorem Edge.dropWhile {cs : List Char} (h : Edge cs) : cs.dropWhile isAtomChar = cs := by
  have hsplit := List.takeWhile_append_dropWhile (p := isAtomChar) (l := cs)
  rwa [h, List.nil_append] at hsplit

theorem Edge.span_append {w rest : List Char} (hr : Edge rest)
    (hw : ∀ c ∈ w, isAtomChar c = true) :
    (w ++ rest).takeWhile isAtomChar = w ∧ (w ++ rest).dropWhile isAtomChar = rest := by
  rw [List.takeWhile_append_of_pos hw, List.dropWhile_append_of_pos hw, hr, hr.dropWhile,
    List.append_nil]
  exact ⟨rfl, rfl⟩

theorem isAtomChar_eq {c : Char} :
    isAtomChar c = true ↔ isBlank c = false ∧ isParen c = false := by
  simp [isAtomChar]

theorem Word.of_all {cs : List Char} (hne : cs.isEmpty = false)
    (h : cs.all isAtomChar = true) : Word cs :=
  ⟨List.isEmpty_eq_false_iff.mp hne, List.all_eq_true.mp h⟩

theorem Word.of_takeWhile {c : Char} (hc : isAtomChar c = true) (cs : List Char) :
    Word (c :: cs.takeWhile isAtomChar) := by
  refine ⟨List.cons_ne_nil _ _, fun d hd => ?_⟩
  rcases List.mem_cons.mp hd with rfl | hd
  · exact hc
  · exact List.mem_takeWhile_imp hd

/-! ## Scanning -/

section Scan

variable {c : Char} {cs : List Char}

theorem map_text_scanFrom (p : Position) (cs : List Char) :
    (Token.scanFrom p cs).map Token.text = words cs := by
  suffices h : ∀ q, (Token.scanFrom p cs).map Token.text = (Token.scanFrom q cs).map Token.text from
    h .first
  fun_induction Token.scanFrom p cs with
  | case1 => intro q; simp [Token.scanFrom]
  | case2 p c cs hb ih => intro q; simp [Token.scanFrom, hb, ih (q.after c)]
  | case3 p c cs hb hp ih =>
    intro q
    simp [Token.scanFrom, hb, hp, Token.ofChars, ih (q.after c)]
  | case4 p c cs hb hp word ih =>
    intro q
    simp [Token.scanFrom, hb, hp, Token.ofChars, word, ih (q.afterAll word)]

theorem scanFrom_nil (p : Position) : Token.scanFrom p [] = [] := by
  rw [Token.scanFrom]

theorem scanFrom_blank (hc : isBlank c = true) (p : Position) (cs : List Char) :
    Token.scanFrom p (c :: cs) = Token.scanFrom (p.after c) cs := by
  rw [Token.scanFrom, if_pos hc]

theorem scanFrom_paren (hb : isBlank c = false) (hp : isParen c = true) (p : Position)
    (cs : List Char) :
    Token.scanFrom p (c :: cs) = .ofChars p [c] :: Token.scanFrom (p.after c) cs := by
  rw [Token.scanFrom, if_neg (by simp [hb]), if_pos hp]

/-- **A word before an edge is one token.** -/
theorem scanFrom_word {w rest : List Char} (hw : Word w) (hr : Edge rest) (p : Position) :
    Token.scanFrom p (w ++ rest) = .ofChars p w :: Token.scanFrom (p.afterAll w) rest := by
  obtain ⟨c, w, rfl⟩ := List.exists_cons_of_ne_nil hw.ne_nil
  obtain ⟨hb, hp⟩ := isAtomChar_eq.mp (hw.atomChars c List.mem_cons_self)
  obtain ⟨htake, hdrop⟩ := hr.span_append fun d hd => hw.atomChars d (List.mem_cons_of_mem c hd)
  rw [List.cons_append, Token.scanFrom, if_neg (by simp [hb]), if_neg (by simp [hp])]
  simp only [htake, hdrop]

@[simp] theorem words_nil : words [] = [] := by
  rw [words, scanFrom_nil, List.map_nil]

theorem words_blank (hc : isBlank c = true) : words (c :: cs) = words cs := by
  rw [words, scanFrom_blank hc, map_text_scanFrom]

theorem words_paren (hb : isBlank c = false) (hp : isParen c = true) :
    words (c :: cs) = String.singleton c :: words cs := by
  rw [words, scanFrom_paren hb hp, List.map_cons, map_text_scanFrom]
  rfl

theorem words_append_word {w rest : List Char} (hw : Word w) (hr : Edge rest) :
    words (w ++ rest) = String.ofList w :: words rest := by
  rw [words, scanFrom_word hw hr, List.map_cons, map_text_scanFrom]
  rfl

end Scan

theorem Token.kind_eq_opening {t : Token} : t.kind = .opening ↔ t.text = "(" := by
  unfold kind
  split
  · simp_all
  · split <;> simp_all

theorem Token.kind_eq_closing {t : Token} : t.kind = .closing ↔ t.text = ")" := by
  unfold kind
  split
  · simp_all
  · split <;> simp_all

theorem Word.kind_eq {t : Token} (h : Word t.text.toList) : t.kind = .atom := by
  have hparen : ∀ c, isAtomChar c = false → t.text ≠ String.singleton c := by
    intro c hc heq
    have := h.atomChars c (by simp [heq])
    exact absurd (this.symm.trans hc) (by decide)
  have ho : t.text ≠ "(" := hparen '(' (by decide)
  have hc : t.text ≠ ")" := hparen ')' (by decide)
  rw [Token.kind, if_neg ho, if_neg hc]

theorem Token.word_of_mem_scan {p : Position} {cs : List Char} {t : Token}
    (ht : t ∈ Token.scanFrom p cs) (hk : t.kind = .atom) : Word t.text.toList := by
  fun_induction Token.scanFrom p cs with
  | case1 => cases ht
  | case2 p c cs hb ih => exact ih ht
  | case3 p c cs hb hp ih =>
    rcases List.mem_cons.mp ht with rfl | ht
    · rcases (by simpa [isParen] using hp : c = '(' ∨ c = ')') with rfl | rfl <;> cases hk
    · exact ih ht
  | case4 p c cs hb hp word ih =>
    rcases List.mem_cons.mp ht with rfl | ht
    · have hc : isAtomChar c = true := isAtomChar_eq.mpr ⟨by simpa using hb, by simpa using hp⟩
      simpa [Token.ofChars] using Word.of_takeWhile hc cs
    · exact ih ht

end StepLisp
