import StepLisp.Proofs.Segmentation

/-!
# Lines and columns

The position behind a text is found by counting: the line feeds in it, and the characters behind the
last of them. So the span of a token is told by the text in front of it and by its own length.

* `lastLine`, what stands behind the last line feed, and **`Position.afterAll_first`**;
* **`Laid.cut`**: a text can be cut in front of every token;
* **`Token.spans_exact`**: the spans of the tokens.
-/

namespace StepLisp

/-- What stands behind the last line feed of a text; all of it if there is none. -/
def lastLine (cs : List Char) : List Char := (cs.reverse.takeWhile (· ≠ '\n')).reverse

theorem lastLine_feed (cs : List Char) : lastLine (cs ++ ['\n']) = [] := by
  simp [lastLine]

theorem lastLine_concat {c : Char} (hc : c ≠ '\n') (cs : List Char) :
    lastLine (cs ++ [c]) = lastLine cs ++ [c] := by
  simp [lastLine, hc]

/-- **The position behind a text**, by counting. -/
theorem Position.afterAll_first (cs : List Char) :
    Position.first.afterAll cs = ⟨1 + cs.count '\n', 1 + (lastLine cs).length⟩ := by
  induction cs using List.reverseRecOn with
  | nil => rfl
  | append_singleton cs c ih =>
    rw [afterAll_append, ih, List.count_append]
    by_cases hc : c = '\n'
    · subst hc
      rw [lastLine_feed]
      rfl
    · rw [lastLine_concat hc, List.length_append, List.count_singleton, if_neg (by simpa using hc)]
      change Position.after _ c = _
      rw [after, if_neg hc]
      rfl

namespace Laid

variable {p : Position} {cs : List Char} {t : Token} {ts us : List Token}

/-- **A text can be cut in front of every token**, and the token is what stands there. -/
theorem cut (h : Laid p cs (ts ++ t :: us)) :
    ∃ as w bs, cs = as ++ w ++ bs ∧ w ≠ [] ∧ Laid p as ts ∧ t = .ofChars (p.afterAll as) w ∧
      t.span.stop = p.afterAll (as ++ w) := by
  generalize hvs : ts ++ t :: us = vs at h
  induction h generalizing ts with
  | nil => simp at hvs
  | @blank p c cs vs hc _ ih =>
    obtain ⟨as, w, bs, rfl, hw, has, ht, hstop⟩ := ih hvs
    exact ⟨c :: as, w, bs, rfl, hw, .blank hc has, ht, hstop⟩
  | @paren p c cs vs hb hc _ ih =>
    cases ts with
    | nil =>
      obtain ⟨rfl, -⟩ := List.cons.inj hvs
      exact ⟨[], [c], cs, rfl, nofun, .nil, rfl, Token.stop_paren hc p⟩
    | cons u ts =>
      obtain ⟨rfl, hvs'⟩ := List.cons.inj hvs
      obtain ⟨as, w, bs, rfl, hw, has, ht, hstop⟩ := ih hvs'
      exact ⟨c :: as, w, bs, rfl, hw, .paren hb hc has, ht, hstop⟩
  | @word p w cs vs hw he _ ih =>
    cases ts with
    | nil =>
      obtain ⟨rfl, -⟩ := List.cons.inj hvs
      exact ⟨[], w, cs, rfl, hw.ne_nil, .nil, rfl, Token.stop_word hw p⟩
    | cons u ts =>
      obtain ⟨rfl, hvs'⟩ := List.cons.inj hvs
      obtain ⟨as, w', bs, rfl, hw', has, ht, hstop⟩ := ih hvs'
      have hedge : Edge as := by
        rw [List.append_assoc] at he
        exact he.of_append
      refine ⟨w ++ as, w', bs, by simp, hw', .word hw hedge has, ?_, ?_⟩
      · rwa [Position.afterAll_append]
      · rwa [List.append_assoc, Position.afterAll_append]

end Laid

namespace Token

/-- **The spans of the tokens**: a token starts where the text in front of it ends, counted in lines
and characters, and ends in the same line behind as many characters as it has; and no two overlap.
-/
theorem spans_exact (source : String) :
    (∀ before t after, Token.scan source = before ++ t :: after →
      ∃ p r, source.toList = p ++ t.text.toList ++ r ∧ Token.scan (String.ofList p) = before ∧
        t.span.start = ⟨1 + p.count '\n', 1 + (lastLine p).length⟩ ∧
        t.span.stop = ⟨t.span.start.line, t.span.start.column + t.text.length⟩) ∧
    (∀ t ∈ Token.scan source, t.span.start < t.span.stop) ∧
    (Token.scan source).Pairwise fun t u =>
      t.span.start < u.span.start ∧ t.span.stop ≤ u.span.start := by
  have hlaid := laid_scanFrom .first source.toList
  have hnonempty : ∀ t ∈ Token.scan source, t.span.start < t.span.stop := by
    intro t ht
    obtain ⟨before, after, hsplit⟩ := List.append_of_mem ht
    rw [show Token.scanFrom .first source.toList = before ++ t :: after from hsplit] at hlaid
    obtain ⟨p, w, r, -, hw, -, ht, hstop⟩ := hlaid.cut
    obtain ⟨c, cs, rfl⟩ := List.exists_cons_of_ne_nil hw
    rw [hstop, ht, Position.afterAll_append]
    exact Position.lt_afterAll _ c cs
  refine ⟨fun before t after hsplit => ?_, hnonempty, ?_⟩
  · rw [show Token.scanFrom .first source.toList = before ++ t :: after from hsplit] at hlaid
    obtain ⟨p, w, r, hsource, -, hp, rfl, -⟩ := hlaid.cut
    refine ⟨p, r, ?_, ?_, ?_, ?_⟩
    · rw [hsource, ofChars, String.toList_ofList]
    · rw [Token.scan, String.toList_ofList, hp.scanFrom_eq]
    · rw [← Position.afterAll_first]
      rfl
    · rw [ofChars, String.length_ofList]
      rfl
  · refine hlaid.ordered.1.2.imp_of_mem fun ht _ hle => ⟨?_, hle⟩
    exact (hnonempty _ ht).trans_le hle

end Token

end StepLisp
