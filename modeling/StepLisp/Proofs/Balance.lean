import Mathlib.Data.List.Induction
import StepLisp.Proofs.Spelling

/-!
# Balanced parentheses

Which lists of tokens are programs, and which parenthesis is blamed for one that is not.

* `opens` and `closes`, the numbers of parentheses, and `Excess`, more closing than opening ones;
* `Balanced`, `FirstExcess` and `LastUnmatched`, the three kinds of lists;
* `matched_iff`: the counterpart of a parenthesis stands behind the shortest excess;
* `Spells.balanced`, `Consumed.noExcess`: what is spelled is balanced, and what a reader has
  consumed has no excess;
* `Tree.ofTokens_balanced`: what becomes of a program, by its parentheses.
-/

namespace StepLisp

def opens (ts : List Token) : Nat := ts.countP fun t => t.kind = .opening

def closes (ts : List Token) : Nat := ts.countP fun t => t.kind = .closing

/-- More closing than opening parentheses. -/
def Excess (ts : List Token) : Prop := opens ts < closes ts

/-- No prefix has more closing than opening parentheses. -/
def NoExcess (ts : List Token) : Prop := ∀ p, p <+: ts → ¬ Excess p

/-- As many closing as opening parentheses, and nowhere more of them. -/
def Balanced (ts : List Token) : Prop := NoExcess ts ∧ opens ts = closes ts

/-- The token `c` ends the shortest prefix with more closing than opening parentheses. -/
def FirstExcess (tokens : List Token) (c : Token) : Prop :=
  ∃ p, p ++ [c] <+: tokens ∧ Excess (p ++ [c]) ∧ NoExcess p

/-- An opening parenthesis with the tokens `rest` behind it has its counterpart among them. -/
def Matched (rest : List Token) : Prop :=
  ∃ inside c after, rest = inside ++ c :: after ∧ Balanced inside ∧ c.kind = .closing

/-- The token `o` is the last opening parenthesis that has no counterpart. -/
def LastUnmatched (tokens : List Token) (o : Token) : Prop :=
  ∃ before rest, tokens = before ++ o :: rest ∧ o.kind = .opening ∧ ¬ Matched rest ∧
    ∀ between o' rest', rest = between ++ o' :: rest' → o'.kind = .opening → Matched rest'

/-! ## Counting -/

section Counting

variable {ts us : List Token} {t : Token}

@[simp]
theorem opens_append (ts us : List Token) : opens (ts ++ us) = opens ts + opens us :=
  List.countP_append

@[simp]
theorem closes_append (ts us : List Token) : closes (ts ++ us) = closes ts + closes us :=
  List.countP_append

theorem opens_cons (t : Token) (ts : List Token) :
    opens (t :: ts) = opens ts + if t.kind = .opening then 1 else 0 := by
  simp [opens, List.countP_cons]

theorem closes_cons (t : Token) (ts : List Token) :
    closes (t :: ts) = closes ts + if t.kind = .closing then 1 else 0 := by
  simp [closes, List.countP_cons]

@[simp]
theorem opens_nil : opens [] = 0 := rfl

@[simp]
theorem closes_nil : closes [] = 0 := rfl

theorem excess_append : Excess (ts ++ us) ↔ opens ts + opens us < closes ts + closes us := by
  rw [Excess, opens_append, closes_append]

theorem excess_concat : Excess (ts ++ [t]) ↔
    opens ts + (if t.kind = .opening then 1 else 0) <
      closes ts + (if t.kind = .closing then 1 else 0) := by
  rw [excess_append, opens_cons, closes_cons, opens_nil, closes_nil, Nat.zero_add, Nat.zero_add]

theorem NoExcess.le (h : NoExcess ts) : closes ts ≤ opens ts :=
  Nat.le_of_not_lt (h ts List.prefix_rfl)

theorem noExcess_nil : NoExcess [] := by
  intro p hp
  rw [List.prefix_nil.mp hp]
  exact Nat.not_lt_zero _

theorem NoExcess.mono (h : NoExcess ts) (hp : us <+: ts) : NoExcess us :=
  fun p hq => h p (hq.trans hp)

theorem NoExcess.concat (h : NoExcess ts) (ht : ¬ Excess (ts ++ [t])) : NoExcess (ts ++ [t]) := by
  intro p hp
  rcases List.prefix_concat_iff.mp hp with rfl | hp
  · exact ht
  · exact h p hp

theorem NoExcess.append (h : NoExcess ts) (hu : NoExcess us) : NoExcess (ts ++ us) := by
  intro p hp
  rcases List.prefix_or_prefix_of_prefix hp (List.prefix_append ts us) with hp | ⟨q, rfl⟩
  · exact h p hp
  · have hle := h.le
    have hq := Nat.le_of_not_lt (hu q ((List.prefix_append_right_inj ts).mp hp))
    rw [excess_append]
    omega

theorem Balanced.excess (h : Balanced ts) (ht : t.kind = .closing) : Excess (ts ++ [t]) := by
  rw [excess_concat, if_pos ht, if_neg (by simp [ht]), h.2]
  exact Nat.lt_succ_self _

/-- A parenthesis has its counterpart where the tokens behind it first have an excess. -/
theorem matched_iff : Matched ts ↔ ¬ NoExcess ts := by
  constructor
  · rintro ⟨inside, c, after, rfl, hin, hc⟩ h
    exact h (inside ++ [c]) ⟨after, by simp⟩ (hin.excess hc)
  · intro h
    induction ts using List.reverseRecOn with
    | nil => exact absurd noExcess_nil h
    | append_singleton ts t ih =>
      by_cases hts : NoExcess ts
      · have hex : Excess (ts ++ [t]) := by
          by_contra ht
          exact h (hts.concat ht)
        have hle := hts.le
        rw [excess_concat] at hex
        have hc : t.kind = .closing := by
          by_contra hc
          rw [if_neg hc] at hex
          omega
        rw [if_neg (by simp [hc]), if_pos hc] at hex
        exact ⟨ts, t, [], rfl, ⟨hts, by omega⟩, hc⟩
      · obtain ⟨inside, c, after, rfl, hin, hc⟩ := ih hts
        exact ⟨inside, c, after ++ [t], by simp, hin, hc⟩

end Counting

/-! ## What is spelled is balanced -/

theorem noExcess_singleton {t : Token} (ht : t.kind ≠ .closing) : NoExcess [t] := by
  have h : ¬ Excess ([] ++ [t]) := by
    rw [excess_concat, if_neg ht]
    exact Nat.not_lt_zero _
  exact noExcess_nil.concat h

theorem Spells.balanced {ns : List Node} {ts : List Token} (hs : Spells ns ts) : Balanced ts := by
  induction hs with
  | nil => exact ⟨noExcess_nil, rfl⟩
  | @atom _ _ t _ ts ht _ _ ih =>
    refine ⟨(noExcess_singleton (by simp [ht])).append ih.1, ?_⟩
    rw [opens_cons, closes_cons, if_neg (by simp [ht]), if_neg (by simp [ht]), ih.2]
  | @expression _ o c _ _ inside ts ho hc _ _ ihi ih =>
    have hopen : NoExcess (o :: inside) := (noExcess_singleton (by simp [ho])).append ihi.1
    have heq : opens (o :: inside ++ [c]) = closes (o :: inside ++ [c]) := by
      simp [opens_cons, closes_cons, ho, hc, ihi.2]
    have hpair : NoExcess (o :: inside ++ [c]) :=
      hopen.concat (by rw [Excess, heq]; exact Nat.lt_irrefl _)
    have hsplit : o :: (inside ++ c :: ts) = (o :: inside ++ [c]) ++ ts := by simp
    rw [hsplit]
    exact ⟨hpair.append ih.1, by rw [opens_append, closes_append, heq, ih.2]⟩

theorem Consumed.noExcess {items : List Node} {unclosed : List OpenExpression} {ts : List Token}
    (hc : Consumed items unclosed ts) :
    NoExcess ts ∧ opens ts = closes ts + unclosed.length := by
  induction hc with
  | top hs => exact hs.balanced
  | @inside _ e outer o before ts _ ho _ hs ih =>
    have hopen : NoExcess (o :: ts) :=
      (noExcess_singleton (by simp [ho])).append hs.balanced.1
    refine ⟨ih.1.append hopen, ?_⟩
    rw [opens_append, closes_append, opens_cons, closes_cons, if_pos ho, if_neg (by simp [ho]),
      ih.2, hs.balanced.2, List.length_cons]
    omega

/-! ## The parenthesis that is blamed -/

section Blamed

variable {tokens : List Token} {c c' o o' : Token}

theorem FirstExcess.not_noExcess (h : FirstExcess tokens c) : ¬ NoExcess tokens := by
  obtain ⟨p, hp, hex, -⟩ := h
  exact fun hn => hn _ hp hex

theorem exists_firstExcess (h : ¬ NoExcess tokens) : ∃ c, FirstExcess tokens c := by
  obtain ⟨inside, c, after, rfl, hin, hc⟩ := matched_iff.mpr h
  exact ⟨c, inside, ⟨after, by simp⟩, hin.excess hc, hin.1⟩

theorem FirstExcess.unique (h : FirstExcess tokens c) (h' : FirstExcess tokens c') : c = c' := by
  obtain ⟨p, hp, hex, hn⟩ := h
  obtain ⟨p', hp', hex', hn'⟩ := h'
  rcases List.prefix_or_prefix_of_prefix hp hp' with hle | hle
  · rcases List.prefix_concat_iff.mp hle with heq | hle
    · exact (List.append_inj' heq rfl).2 |> List.singleton_inj.mp
    · exact absurd hex (hn' _ hle)
  · rcases List.prefix_concat_iff.mp hle with heq | hle
    · exact (List.append_inj' heq rfl).2 |> List.singleton_inj.mp |> Eq.symm
    · exact absurd hex' (hn _ hle)

theorem LastUnmatched.unique (h : LastUnmatched tokens o) (h' : LastUnmatched tokens o') :
    o = o' := by
  obtain ⟨before, rest, rfl, ho, hu, hl⟩ := h
  obtain ⟨before', rest', heq, ho', hu', hl'⟩ := h'
  rcases List.append_eq_append_iff.mp heq with ⟨x, -, hx⟩ | ⟨x, -, hx⟩
  · cases x with
    | nil => exact (List.cons.inj hx).1
    | cons t x => exact absurd (hl x o' rest' (List.cons.inj hx).2 ho') hu'
  · cases x with
    | nil => exact (List.cons.inj hx).1.symm
    | cons t x => exact absurd (hl' x o rest (List.cons.inj hx).2 ho) hu

theorem Balanced.matched {ts before rest : List Token} (h : Balanced ts)
    (ht : ts = before ++ o :: rest) (ho : o.kind = .opening) : Matched rest := by
  subst ht
  refine matched_iff.mpr fun hrest => ?_
  have hbefore := (h.1.mono (List.prefix_append before _)).le
  have heq := h.2
  have hle := hrest.le
  rw [opens_append, closes_append, opens_cons, closes_cons, if_pos ho, if_neg (by simp [ho])] at heq
  omega

theorem firstExcess_of_consumed {items : List Node} {before after : List Token}
    (hc : Consumed items [] before) (hk : c.kind = .closing) :
    FirstExcess (before ++ c :: after) c := by
  have hbalanced : Balanced before := hc.noExcess
  exact ⟨before, ⟨after, by simp⟩, hbalanced.excess hk, hbalanced.1⟩

theorem lastUnmatched_of_consumed {items : List Node} {e : OpenExpression}
    {outer : List OpenExpression} (hc : Consumed items (e :: outer) tokens) :
    ∃ o, LastUnmatched tokens o ∧ e.opening = o.span := by
  cases hc with
  | @inside _ _ _ o before ts _ ho he hs =>
    refine ⟨o, ⟨before, ts, rfl, ho, ?_, ?_⟩, he.symm⟩
    · rw [matched_iff, not_not]
      exact hs.balanced.1
    · intro between o' rest' hsplit ho'
      exact hs.balanced.matched hsplit ho'

end Blamed

/-- **What becomes of a program, by its parentheses**: it is accepted if they are balanced; else the
closing parenthesis is blamed that ends the first excess; and if there is none, the last opening
parenthesis that has no counterpart. -/
theorem Tree.ofTokens_balanced (tree : Nat) (first : NodeId) (tokens : List Token) :
    ((∃ t, (ofTokens tree first tokens).outcome = .ok t) ↔ Balanced tokens) ∧
    (∀ s, (ofTokens tree first tokens).outcome = .error (.unexpectedClose s) ↔
      ∃ c, FirstExcess tokens c ∧ s = c.span) ∧
    (∀ s, (ofTokens tree first tokens).outcome = .error (.unterminated s) ↔
      NoExcess tokens ∧ opens tokens ≠ closes tokens ∧
        ∃ o, LastUnmatched tokens o ∧ s = o.span) := by
  rcases ofTokens_cases tree first tokens with
    ⟨t, h, hs⟩ | ⟨items, e, outer, h, hc⟩ | ⟨items, before, c, after, h, rfl, hk, hc⟩
  · have hb := hs.balanced
    refine ⟨⟨fun _ => hb, fun _ => ⟨t, h⟩⟩, fun s => ⟨?_, ?_⟩, fun s => ⟨?_, ?_⟩⟩
    · exact fun h' => nomatch h.symm.trans h'
    · rintro ⟨c, hc, -⟩
      exact absurd hb.1 hc.not_noExcess
    · exact fun h' => nomatch h.symm.trans h'
    · rintro ⟨-, hne, -⟩
      exact absurd hb.2 hne
  · obtain ⟨hn, hcount⟩ := hc.noExcess
    obtain ⟨o, ho, hspan⟩ := lastUnmatched_of_consumed hc
    have hne : opens tokens ≠ closes tokens := by
      rw [hcount, List.length_cons]
      omega
    refine ⟨⟨?_, ?_⟩, fun s => ⟨?_, ?_⟩, fun s => ⟨?_, ?_⟩⟩
    · exact fun ⟨t, h'⟩ => nomatch h.symm.trans h'
    · exact fun hb => absurd hb.2 hne
    · exact fun h' => nomatch h.symm.trans h'
    · rintro ⟨c, hc, -⟩
      exact absurd hn hc.not_noExcess
    · intro h'
      cases h.symm.trans h'
      exact ⟨hn, hne, o, ho, hspan⟩
    · rintro ⟨-, -, o', ho', rfl⟩
      rw [h, hspan, ho.unique ho']
  · have hex : FirstExcess (before ++ c :: after) c := firstExcess_of_consumed hc hk
    refine ⟨⟨?_, ?_⟩, fun s => ⟨?_, ?_⟩, fun s => ⟨?_, ?_⟩⟩
    · exact fun ⟨t, h'⟩ => nomatch h.symm.trans h'
    · exact fun hb => absurd hb.1 hex.not_noExcess
    · intro h'
      cases h.symm.trans h'
      exact ⟨c, hex, rfl⟩
    · rintro ⟨c', hex', rfl⟩
      rw [h, hex.unique hex']
    · exact fun h' => nomatch h.symm.trans h'
    · rintro ⟨hn, -⟩
      exact absurd hn hex.not_noExcess

end StepLisp
