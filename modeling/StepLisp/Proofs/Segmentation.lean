import Mathlib.Data.List.Chain
import StepLisp.Proofs.Layout

/-!
# The segmentation of a text

A text can be cut into parentheses and words with blanks in between, and if no two words may stand
side by side, in one way only. This is how the tokens are found: blanks are skipped and the longest
match is taken, over and over, and there is a match until nothing is left of the text.

* `Matcher`, what takes a token off the front of a text, and `Matcher.token`, the longest match of
  the three kinds of tokens, with **`token_word`**: a word before an edge is matched as a whole;
* `Scanned`, a scan of a text up to the place where there is no match, and **`scanned_iff`**: it
  gives the tokens and leaves nothing;
* `Segmentation`, a text in pieces, and `Segmentation.Valid`, with **`Valid.unique`**;
* **`Token.scan_segmentation`**: the tokens of a text are its only segmentation.
-/

namespace StepLisp

/-! ## Matching -/

/-- What takes a token off the front of a text, and tells what is left behind it. -/
abbrev Matcher := List Char → Option (List Char × List Char)

namespace Matcher

/-- Matches one character. -/
def one (p : Char) : Matcher
  | [] => none
  | c :: cs => if c = p then some ([c], cs) else none

/-- Matches characters of a kind, as many as there are, and at least one. -/
def many (p : Char → Bool) : Matcher := fun cs =>
  if (cs.takeWhile p).isEmpty then none else some (cs.takeWhile p, cs.dropWhile p)

/-- How many bytes the encoding of a text has. -/
def bytes (cs : List Char) : Nat := (String.ofList cs).utf8ByteSize

/-- The match that leaves the fewest bytes; of several the first. -/
def longest (ms : List Matcher) : Matcher := fun cs =>
  (ms.filterMap fun m => m cs).foldl
    (fun best found =>
      match best with
      | none => some found
      | some b => if bytes found.2 < bytes b.2 then some found else some b)
    none

/-- Takes a token off the front of a text. -/
def token : Matcher := longest [one '(', one ')', many isAtomChar]

variable {c : Char} {cs w rest : List Char}

theorem one_of_ne {p : Char} (hc : c ≠ p) : one p (c :: cs) = none := if_neg hc

theorem many_of_edge (he : Edge cs) : many isAtomChar cs = none := by
  rw [many, he]
  rfl

theorem token_paren (hc : isParen c = true) : token (c :: cs) = some ([c], cs) := by
  have he : Edge (c :: cs) := edge_cons (by simp [isAtomChar, hc]) cs
  rcases (by simpa [isParen] using hc : c = '(' ∨ c = ')') with rfl | rfl
  · simp [token, longest, one, many_of_edge he]
  · simp [token, longest, one, many_of_edge he]

/-- **A word before an edge is matched as a whole.** -/
theorem token_word (hw : Word w) (he : Edge cs) : token (w ++ cs) = some (w, cs) := by
  obtain ⟨htake, hdrop⟩ := he.span_append hw.atomChars
  have hmany : many isAtomChar (w ++ cs) = some (w, cs) := by
    rw [many, htake, hdrop, if_neg (by simpa using hw.ne_nil)]
  have hone : ∀ p, isAtomChar p = false → one p (w ++ cs) = none := by
    intro p hp
    obtain ⟨d, ds, rfl⟩ := List.exists_cons_of_ne_nil hw.ne_nil
    refine one_of_ne ?_
    rintro rfl
    exact absurd ((hw.atomChars d List.mem_cons_self).symm.trans hp) (by decide)
  simp [token, longest, hone '(' (by decide), hone ')' (by decide), hmany]

theorem token_many (hc : isAtomChar c = true) :
    token (c :: cs) = some (c :: cs.takeWhile isAtomChar, cs.dropWhile isAtomChar) := by
  have hsplit : c :: cs = (c :: cs.takeWhile isAtomChar) ++ cs.dropWhile isAtomChar := by
    rw [List.cons_append, List.takeWhile_append_dropWhile]
  conv_lhs => rw [hsplit]
  exact token_word (.of_takeWhile hc cs) (edge_dropWhile cs)

end Matcher

/-! ## Scanning by matches -/

namespace Token

variable {cs : List Char}

theorem token_cases (hcs : cs.takeWhile isBlank = []) :
    cs = [] ∨ ∃ w rest, Matcher.token cs = some (w, rest) ∧
      ∀ p, scanFrom p cs = ofChars p w :: scanFrom (p.afterAll w) rest := by
  cases cs with
  | nil => exact .inl rfl
  | cons c cs =>
    have hb : isBlank c = false := by
      by_contra hb
      simp [hb] at hcs
    refine .inr ?_
    by_cases hp : isParen c = true
    · exact ⟨_, _, Matcher.token_paren hp, fun p => scanFrom_paren hb hp p cs⟩
    · have hc : isAtomChar c = true := isAtomChar_eq.mpr ⟨hb, by simpa using hp⟩
      refine ⟨_, _, Matcher.token_many hc, fun p => ?_⟩
      rw [← scanFrom_word (.of_takeWhile hc cs) (edge_dropWhile cs), List.cons_append,
        List.takeWhile_append_dropWhile]

end Token

/-- **A scan of a text** that starts at `p`: blanks are skipped and a token is matched, until there
is no match; the tokens, and what is left of the text. -/
inductive Scanned : Position → List Char → List Token → List Char → Prop where
  | stop {p : Position} {cs : List Char} (hm : Matcher.token (cs.dropWhile isBlank) = none) :
      Scanned p cs [] (cs.dropWhile isBlank)
  | token {p : Position} {cs w rest left : List Char} {ts : List Token}
      (hm : Matcher.token (cs.dropWhile isBlank) = some (w, rest))
      (h : Scanned ((p.afterAll (cs.takeWhile isBlank)).afterAll w) rest ts left) :
      Scanned p cs (.ofChars (p.afterAll (cs.takeWhile isBlank)) w :: ts) left

section Scanned

variable {p : Position} {cs left : List Char} {ts : List Token}

theorem Token.scanFrom_dropWhile (p : Position) (cs : List Char) :
    scanFrom (p.afterAll (cs.takeWhile isBlank)) (cs.dropWhile isBlank) = scanFrom p cs := by
  induction cs generalizing p with
  | nil => rfl
  | cons c cs ih =>
    by_cases hc : isBlank c = true
    · rw [List.takeWhile_cons_of_pos hc, List.dropWhile_cons_of_pos hc, scanFrom_blank hc]
      exact ih (p.after c)
    · rw [List.takeWhile_cons_of_neg hc, List.dropWhile_cons_of_neg hc]
      rfl

theorem takeWhile_dropWhile_isBlank (cs : List Char) :
    (cs.dropWhile isBlank).takeWhile isBlank = [] := by
  rw [List.takeWhile_eq_nil_iff]
  exact fun h => by simpa using List.dropWhile_get_zero_not isBlank cs h

theorem Scanned.blank {c : Char} (hc : isBlank c = true) (h : Scanned (p.after c) cs ts left) :
    Scanned p (c :: cs) ts left := by
  have hdrop : (c :: cs).dropWhile isBlank = cs.dropWhile isBlank := List.dropWhile_cons_of_pos hc
  have htake : p.afterAll ((c :: cs).takeWhile isBlank) =
      (p.after c).afterAll (cs.takeWhile isBlank) := by
    rw [List.takeWhile_cons_of_pos hc]
    rfl
  cases h with
  | stop hm =>
    rw [← hdrop] at hm ⊢
    exact .stop hm
  | token hm h =>
    rw [← hdrop] at hm
    rw [← htake] at h ⊢
    exact .token hm h

theorem Scanned.matched {c : Char} {w rest : List Char} (hc : isBlank c = false)
    (hm : Matcher.token (c :: cs) = some (w, rest)) (h : Scanned (p.afterAll w) rest ts left) :
    Scanned p (c :: cs) (.ofChars p w :: ts) left := by
  have hdrop : (c :: cs).dropWhile isBlank = c :: cs := List.dropWhile_cons_of_neg (by simp [hc])
  have htake : p.afterAll ((c :: cs).takeWhile isBlank) = p := by
    rw [List.takeWhile_cons_of_neg (by simp [hc])]
    rfl
  have hscan : Scanned p (c :: cs)
      (.ofChars (p.afterAll ((c :: cs).takeWhile isBlank)) w :: ts) left := by
    refine .token (by rwa [hdrop]) ?_
    rwa [htake]
  rwa [htake] at hscan

/-- **A scan gives the tokens of the text, and leaves nothing of it.** -/
theorem scanned_iff : Scanned p cs ts left ↔ ts = Token.scanFrom p cs ∧ left = [] := by
  constructor
  · intro h
    induction h with
    | @stop p cs hm =>
      rcases Token.token_cases (takeWhile_dropWhile_isBlank cs) with hnil | ⟨w, rest, hm', -⟩
      · rw [← Token.scanFrom_dropWhile, hnil, scanFrom_nil]
        exact ⟨rfl, rfl⟩
      · cases hm.symm.trans hm'
    | @token p cs w rest left ts hm _ ih =>
      rcases Token.token_cases (takeWhile_dropWhile_isBlank cs) with hnil | ⟨w', rest', hm', hs⟩
      · rw [hnil] at hm
        cases hm
      · cases hm.symm.trans hm'
        rw [← Token.scanFrom_dropWhile, hs, ih.1]
        exact ⟨rfl, ih.2⟩
  · rintro ⟨rfl, rfl⟩
    fun_induction Token.scanFrom p cs with
    | case1 => exact .stop rfl
    | case2 p c cs hb ih => exact ih.blank hb
    | case3 p c cs hb hp ih => exact .matched (by simpa using hb) (Matcher.token_paren hp) ih
    | case4 p c cs hb hp word ih =>
      have hc : isAtomChar c = true := isAtomChar_eq.mpr ⟨by simpa using hb, by simpa using hp⟩
      exact .matched (by simpa using hb) (Matcher.token_many hc) ih

end Scanned

/-! ## Segmentations -/

/-- A lexeme is a parenthesis or a word. -/
def Lexeme (w : List Char) : Prop := w = ['('] ∨ w = [')'] ∨ Word w

/-- A piece of a text: some characters, and what stands in the gap in front of them. -/
structure Segment where
  gap : List Char
  word : List Char

/-- A text in pieces, and what stands behind the last of them. -/
structure Segmentation where
  segments : List Segment
  rest : List Char

namespace Segmentation

/-- The pieces one after the other, in front of the text `rest`. -/
def textBefore (rest : List Char) : List Segment → List Char
  | [] => rest
  | s :: ss => s.gap ++ (s.word ++ textBefore rest ss)

/-- The whole text. -/
def text (g : Segmentation) : List Char := textBefore g.rest g.segments

def words (g : Segmentation) : List String := g.segments.map fun s => String.ofList s.word

/-- **What a segmentation is**: the pieces are lexemes with nothing but blanks in the gaps, and
there is a blank in the gap between two words. -/
structure Valid (g : Segmentation) : Prop where
  gaps : ∀ s ∈ g.segments, ∀ c ∈ s.gap, isBlank c = true
  rest : ∀ c ∈ g.rest, isBlank c = true
  lexemes : ∀ s ∈ g.segments, Lexeme s.word
  apart : g.segments.IsChain fun s t => Word s.word → Word t.word → t.gap ≠ []

variable {s : Segment} {ss : List Segment} {rest : List Char}

theorem Valid.edge (hg : Valid ⟨s :: ss, rest⟩) (hs : Word s.word) : Edge (textBefore rest ss) := by
  have hblank : ∀ c cs, isBlank c = true → Edge (c :: cs) :=
    fun c cs hc => edge_cons (by simp [isAtomChar, hc]) cs
  cases ss with
  | nil =>
    have hrest := hg.rest
    rw [textBefore]
    cases rest with
    | nil => exact edge_nil
    | cons c cs => exact hblank c cs (hrest c List.mem_cons_self)
  | cons t ts =>
    obtain ⟨-, hgaps⟩ := List.forall_mem_cons.mp hg.gaps
    obtain ⟨-, hlexemes⟩ := List.forall_mem_cons.mp hg.lexemes
    have hgap := hgaps t List.mem_cons_self
    have happart := (List.isChain_cons_cons.mp hg.apart).1 hs
    rw [textBefore]
    rcases ht : t.gap with _ | ⟨c, cs⟩
    · rcases hlexemes t List.mem_cons_self with hw | hw | hw
      · rw [hw]
        exact edge_cons (by decide) _
      · rw [hw]
        exact edge_cons (by decide) _
      · exact absurd ht (happart hw)
    · exact hblank c _ (hgap c (by simp [ht]))

/-- **The first piece is the match in front of the text.** -/
theorem Valid.token_eq (hg : Valid ⟨s :: ss, rest⟩) :
    Matcher.token (s.word ++ textBefore rest ss) = some (s.word, textBefore rest ss) := by
  rcases hg.lexemes s List.mem_cons_self with hw | hw | hw
  · rw [hw]
    exact Matcher.token_paren (by decide)
  · rw [hw]
    exact Matcher.token_paren (by decide)
  · exact Matcher.token_word hw (hg.edge hw)

theorem Lexeme.exists_cons {w : List Char} (hw : Lexeme w) :
    ∃ c cs, w = c :: cs ∧ isBlank c = false := by
  rcases hw with rfl | rfl | hw
  · exact ⟨_, _, rfl, by decide⟩
  · exact ⟨_, _, rfl, by decide⟩
  · obtain ⟨c, cs, rfl⟩ := List.exists_cons_of_ne_nil hw.ne_nil
    exact ⟨c, cs, rfl, (isAtomChar_eq.mp (hw.atomChars c List.mem_cons_self)).1⟩

theorem Valid.gap_eq (hg : Valid ⟨s :: ss, rest⟩) :
    (textBefore rest (s :: ss)).takeWhile isBlank = s.gap ∧
      (textBefore rest (s :: ss)).dropWhile isBlank = s.word ++ textBefore rest ss := by
  have hgap := hg.gaps s List.mem_cons_self
  obtain ⟨c, cs, hw, hc⟩ := Lexeme.exists_cons (hg.lexemes s List.mem_cons_self)
  rw [textBefore, List.takeWhile_append_of_pos hgap, List.dropWhile_append_of_pos hgap, hw,
    List.cons_append, List.takeWhile_cons_of_neg (by simp [hc]),
    List.dropWhile_cons_of_neg (by simp [hc]), List.append_nil]
  exact ⟨rfl, rfl⟩

theorem Valid.tail (hg : Valid ⟨s :: ss, rest⟩) : Valid ⟨ss, rest⟩ where
  gaps := (List.forall_mem_cons.mp hg.gaps).2
  rest := hg.rest
  lexemes := (List.forall_mem_cons.mp hg.lexemes).2
  apart := hg.apart.tail

theorem Valid.blank_text (hg : Valid ⟨[], rest⟩) : rest.dropWhile isBlank = [] :=
  List.dropWhile_eq_nil_iff.mpr hg.rest

/-- **A text has one segmentation only.** -/
theorem Valid.unique {g g' : Segmentation} (hg : g.Valid) (hg' : g'.Valid)
    (htext : g.text = g'.text) : g = g' := by
  obtain ⟨ss, rest⟩ := g
  obtain ⟨ss', rest'⟩ := g'
  change textBefore rest ss = textBefore rest' ss' at htext
  induction ss generalizing ss' with
  | nil =>
    cases ss' with
    | nil =>
      obtain rfl : rest = rest' := htext
      rfl
    | cons s' ss' =>
      have hdrop := hg'.gap_eq.2
      rw [← htext, textBefore, hg.blank_text] at hdrop
      cases (congrArg Matcher.token hdrop).trans hg'.token_eq
  | cons s ss ih =>
    cases ss' with
    | nil =>
      have hdrop := hg.gap_eq.2
      rw [htext, textBefore, hg'.blank_text] at hdrop
      cases (congrArg Matcher.token hdrop).trans hg.token_eq
    | cons s' ss' =>
      have hgap : s.gap = s'.gap := by rw [← hg.gap_eq.1, htext, hg'.gap_eq.1]
      have hmatch : some (s.word, textBefore rest ss) = some (s'.word, textBefore rest' ss') := by
        rw [← hg.token_eq, ← hg'.token_eq, ← hg.gap_eq.2, htext, hg'.gap_eq.2]
      obtain ⟨hword, hrest⟩ := Prod.mk.inj (Option.some.inj hmatch)
      cases ih hg.tail ss' hg'.tail hrest
      obtain ⟨gap, word⟩ := s
      obtain ⟨gap', word'⟩ := s'
      obtain rfl : gap = gap' := hgap
      obtain rfl : word = word' := hword
      rfl

/-! ### The segmentation into tokens -/

/-- A blank more in front. -/
def blankBefore (c : Char) : Segmentation → Segmentation
  | ⟨[], rest⟩ => ⟨[], c :: rest⟩
  | ⟨s :: ss, rest⟩ => ⟨⟨c :: s.gap, s.word⟩ :: ss, rest⟩

theorem Valid.blankBefore {c : Char} {g : Segmentation} (hg : g.Valid) (hc : isBlank c = true) :
    (g.blankBefore c).Valid := by
  obtain ⟨ss, rest⟩ := g
  cases ss with
  | nil => exact ⟨nofun, List.forall_mem_cons.mpr ⟨hc, hg.rest⟩, nofun, .nil⟩
  | cons s ss =>
    obtain ⟨hgap, hgaps⟩ := List.forall_mem_cons.mp hg.gaps
    refine ⟨List.forall_mem_cons.mpr ⟨List.forall_mem_cons.mpr ⟨hc, hgap⟩, hgaps⟩, hg.rest,
      List.forall_mem_cons.mpr (List.forall_mem_cons.mp hg.lexemes), ?_⟩
    cases ss with
    | nil => exact .singleton _
    | cons t ts => exact List.isChain_cons_cons.mpr (List.isChain_cons_cons.mp hg.apart)

theorem text_blankBefore (c : Char) (g : Segmentation) : (g.blankBefore c).text = c :: g.text := by
  obtain ⟨_ | ⟨s, ss⟩, rest⟩ := g <;> rfl

theorem words_blankBefore (c : Char) (g : Segmentation) : (g.blankBefore c).words = g.words := by
  obtain ⟨_ | ⟨s, ss⟩, rest⟩ := g <;> rfl

theorem Valid.cons {w : List Char} {g : Segmentation} (hg : g.Valid) (hw : Lexeme w)
    (he : Word w → Edge g.text) : Valid ⟨⟨[], w⟩ :: g.segments, g.rest⟩ where
  gaps := List.forall_mem_cons.mpr ⟨nofun, hg.gaps⟩
  rest := hg.rest
  lexemes := List.forall_mem_cons.mpr ⟨hw, hg.lexemes⟩
  apart := by
    obtain ⟨_ | ⟨t, ts⟩, rest⟩ := g
    · exact .singleton _
    · refine List.isChain_cons_cons.mpr ⟨fun hword ht hgap => ?_, hg.apart⟩
      have hedge := he hword
      rw [text, textBefore, hgap, List.nil_append] at hedge
      obtain ⟨c, cs, hc⟩ := List.exists_cons_of_ne_nil ht.ne_nil
      have hatom := ht.atomChars c (by simp [hc])
      simp [Edge, hc, hatom] at hedge

end Segmentation

theorem Laid.exists_segmentation {p : Position} {cs : List Char} {ts : List Token}
    (h : Laid p cs ts) :
    ∃ g : Segmentation, g.Valid ∧ g.text = cs ∧ g.words = ts.map Token.text := by
  induction h with
  | nil => exact ⟨⟨[], []⟩, ⟨nofun, nofun, nofun, .nil⟩, rfl, rfl⟩
  | blank hc _ ih =>
    obtain ⟨g, hg, rfl, hwords⟩ := ih
    exact ⟨_, hg.blankBefore hc, g.text_blankBefore _, (g.words_blankBefore _).trans hwords⟩
  | @paren p c cs ts hb hc _ ih =>
    obtain ⟨g, hg, rfl, hwords⟩ := ih
    have hlexeme : Lexeme [c] := by
      rcases (by simpa [isParen] using hc : c = '(' ∨ c = ')') with rfl | rfl
      · exact .inl rfl
      · exact .inr (.inl rfl)
    refine ⟨_, hg.cons hlexeme fun hw => ?_, rfl, ?_⟩
    · exact absurd (hw.atomChars c List.mem_cons_self) (by simp [isAtomChar, hc])
    · exact congrArg (String.ofList [c] :: ·) hwords
  | @word p w cs ts hw he _ ih =>
    obtain ⟨g, hg, rfl, hwords⟩ := ih
    exact ⟨_, hg.cons (.inr (.inr hw)) fun _ => he, rfl, congrArg (String.ofList w :: ·) hwords⟩

/-- **The tokens of a text are its segmentation** into words with blanks in the gaps, of which there
is one only, and a scan that takes the longest match comes to the end of the text with it. -/
theorem Token.scan_segmentation (source : String) :
    (∃ g : Segmentation, g.Valid ∧ g.text = source.toList ∧
      g.words = (Token.scan source).map Token.text ∧
      ∀ g' : Segmentation, g'.Valid → g'.text = source.toList → g' = g) ∧
    ∀ ts left, Scanned .first source.toList ts left ↔ ts = Token.scan source ∧ left = [] := by
  obtain ⟨g, hg, htext, hwords⟩ := (laid_scanFrom .first source.toList).exists_segmentation
  refine ⟨⟨g, hg, htext, hwords, fun g' hg' htext' => ?_⟩, fun ts left => scanned_iff⟩
  exact hg'.unique hg (htext'.trans htext.symm)

end StepLisp
