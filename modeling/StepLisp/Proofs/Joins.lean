import Mathlib.Data.Prod.Lex
import Mathlib.Order.Bounds.Basic
import Mathlib.Order.MinMax
import StepLisp.Proofs.Layout

/-!
# Joined spans

The join of two spans takes the start of one and the end of one, each chosen by the order of the
positions alone. So the spans that are joined need not be in any order nor apart from each other,
and of several spans it does not count how they are joined, but only which spans there are.

* `Position.key`, a position as a pair that is ordered lexicographically, with `Position.key_min`
  and `Position.key_max`: the join is the minimum of the starts and the maximum of the ends;
* `Span.join_comm`, `Span.join_assoc` and `Span.join_self`;
* `Joining`, a way to join several spans two at a time, with `Joining.isLeast_start` and
  `Joining.isGreatest_stop`;
* **`Span.join_laws`**: all of this, and two ways to join the same spans have the same result.
-/

namespace StepLisp

/-! ## The earlier and the later position -/

namespace Position

theorem earlier_eq_min (p q : Position) : p.earlier q = min p q := (min_def p q).symm

theorem later_eq_max (p q : Position) : p.later q = max p q := (max_def' p q).symm

/-- A position as a pair of the line and the column. -/
def key (p : Position) : ℕ ×ₗ ℕ := toLex (p.line, p.column)

theorem key_le_key {p q : Position} : p.key ≤ q.key ↔ p ≤ q := Prod.Lex.toLex_le_toLex

theorem key_mono : Monotone key := fun _ _ => key_le_key.mpr

theorem key_min (p q : Position) : (min p q).key = min p.key q.key := key_mono.map_min

theorem key_max (p q : Position) : (max p q).key = max p.key q.key := key_mono.map_max

end Position

/-! ## Two and three spans -/

namespace Span

theorem join_eq (a b : Span) : a.join b = ⟨min a.start b.start, max a.stop b.stop⟩ := by
  rw [join, Position.earlier_eq_min, Position.later_eq_max]

theorem join_comm (a b : Span) : a.join b = b.join a := by
  rw [join_eq, join_eq, min_comm, max_comm]

theorem join_assoc (a b c : Span) : (a.join b).join c = a.join (b.join c) := by
  simp only [join_eq, min_assoc, max_assoc]

theorem join_self (a : Span) : a.join a = a := by
  rw [join_eq, min_self, max_self]

end Span

/-! ## Several spans -/

/-- A way to join several spans, two at a time. -/
inductive Joining where
  | one (s : Span)
  | both (i j : Joining)

namespace Joining

/-- The spans that are joined, from left to right. -/
def spans : Joining → List Span
  | one s => [s]
  | both i j => i.spans ++ j.spans

def result : Joining → Span
  | one s => s
  | both i j => i.result.join j.result

theorem setOf_both (f : Span → Position) (i j : Joining) :
    {p | ∃ s ∈ (both i j).spans, f s = p} =
      {p | ∃ s ∈ i.spans, f s = p} ∪ {p | ∃ s ∈ j.spans, f s = p} := by
  ext p
  simp [spans, or_and_right, exists_or]

theorem isLeast_start (j : Joining) :
    IsLeast {p | ∃ s ∈ j.spans, s.start = p} j.result.start := by
  induction j with
  | one s => simp [spans, result]
  | both i j hi hj =>
    rw [setOf_both, result, Span.join_eq]
    exact hi.union hj

theorem isGreatest_stop (j : Joining) :
    IsGreatest {p | ∃ s ∈ j.spans, s.stop = p} j.result.stop := by
  induction j with
  | one s => simp [spans, result]
  | both i j hi hj =>
    rw [setOf_both, result, Span.join_eq]
    exact hi.union hj

/-- **Only the spans count**, and not how they are joined. -/
theorem result_congr {i j : Joining} (h : ∀ s, s ∈ i.spans ↔ s ∈ j.spans) :
    i.result = j.result := by
  have hi := i.isLeast_start
  have hi' := i.isGreatest_stop
  simp only [h] at hi hi'
  exact congrArg₂ Span.mk (hi.unique j.isLeast_start) (hi'.unique j.isGreatest_stop)

theorem exists_foldl (s : Span) (ss : List Span) :
    ∃ j : Joining, j.spans = s :: ss ∧ j.result = ss.foldl Span.join s := by
  induction ss using List.reverseRecOn with
  | nil => exact ⟨one s, rfl, rfl⟩
  | append_singleton ss t ih =>
    obtain ⟨j, hspans, hresult⟩ := ih
    refine ⟨both j (one t), ?_, ?_⟩
    · rw [spans, hspans]
      rfl
    · rw [result, hresult, List.foldl_append]
      rfl

end Joining

/-- **The laws of joining spans**: the result goes from the earliest start to the latest end, so it
depends on the set of spans that are joined alone, in whatever order, grouping and number. -/
theorem Span.join_laws :
    (∀ a b : Span, a.join b = b.join a) ∧
    (∀ a b c : Span, (a.join b).join c = a.join (b.join c)) ∧
    (∀ a : Span, a.join a = a) ∧
    (∀ a b : Span, (a.join b).start.key = min a.start.key b.start.key ∧
      (a.join b).stop.key = max a.stop.key b.stop.key) ∧
    (∀ i j : Joining, (∀ s, s ∈ i.spans ↔ s ∈ j.spans) → i.result = j.result) ∧
    ∀ (j : Joining) (s : Span) (ss : List Span), (∀ t, t ∈ j.spans ↔ t ∈ s :: ss) →
      j.result = ss.foldl Span.join s := by
  refine ⟨join_comm, join_assoc, join_self, fun a b => ?_, fun i j => Joining.result_congr, ?_⟩
  · rw [join_eq]
    exact ⟨Position.key_min _ _, Position.key_max _ _⟩
  · intro j s ss h
    obtain ⟨i, hspans, hresult⟩ := Joining.exists_foldl s ss
    rw [← hresult]
    exact Joining.result_congr (by rwa [hspans])

/-- Of three spans on two lines, the one in the middle turned round, the joins in two orders and
groupings agree, one of which has a span twice. -/
theorem Span.join_laws_inverted :
    let a : Span := ⟨⟨2, 7⟩, ⟨2, 10⟩⟩
    let b : Span := ⟨⟨3, 1⟩, ⟨1, 9⟩⟩
    let c : Span := ⟨⟨2, 3⟩, ⟨2, 9⟩⟩
    (a.join b).join c = ⟨⟨2, 3⟩, ⟨2, 10⟩⟩ ∧ (c.join (b.join c)).join a = (a.join b).join c := by
  intro a b c
  obtain ⟨-, -, -, -, hsame, -⟩ := join_laws
  refine ⟨by decide, hsame (.both (.both (.one c) (.both (.one b) (.one c))) (.one a))
    (.both (.both (.one a) (.one b)) (.one c)) fun s => ?_⟩
  simp only [Joining.spans, List.mem_append, List.mem_singleton]
  tauto

end StepLisp
