import StepLisp.Proofs.Listing
import StepLisp.Proofs.Stepping

/-!
# Steppers from their start on

Since a stepper was started, its machine has changed or stopped, while other work was done in its
session. What was heard of it on the way is known at every moment, also in the midst of an advance.

* `Machine.Goes` and `Stepper.Goes`, to go on by a run and perhaps to its stop, with `goes_change`,
  `goes_advance` and `goes_follow`: whatever a stepper does, it goes on in this way;
* `Stepper.Overheard`, what is heard of a stepper until some moment;
* `Stepper.Lasting`, what holds of a stepper at its start and from then on, such as
  `Stepper.Started` and `Stepper.Coherent`.
-/

namespace StepLisp

/-! ## Going on -/

namespace Machine

variable {h h₁ h' : Heap} {m m₁ m' : Machine} {es fs : List Event} {k : Nat}

/-- The machine goes on by a run, and perhaps to its stop. -/
def Goes (h : Heap) (m : Machine) (es : List Event) (h' : Heap) (m' : Machine) : Prop :=
  ∃ k m₁, Runs k h m es h' m₁ ∧ (m' = m₁ ∨ ∃ a, Stop h' m₁ a m')

theorem goes_advance (h : Heap) (m : Machine) :
    m.Goes h (m.advance h).events (m.advance h).heap (m.advance h).machine := by
  rcases advance_cases h m with ⟨k, n, v, -, hr⟩ | ⟨k, m₁, hr, hs⟩
  · exact ⟨k, _, hr, .inl rfl⟩
  · exact ⟨k, m₁, hr, .inr ⟨_, hs⟩⟩

theorem Runs.goes (hr : Runs k h m es h₁ m₁) (hg : m₁.Goes h₁ fs h' m') :
    m.Goes h (es ++ fs) h' m' := by
  obtain ⟨l, m₂, hr', hend⟩ := hg
  exact ⟨k + l, m₂, hr.trans hr', hend⟩

theorem Goes.grows (hg : m.Goes h es h' m') : h.Grows h' := by
  obtain ⟨k, m₁, hr, -⟩ := hg
  exact hr.grows

end Machine

namespace Stepper

open Machine

variable {s s' : Stepper} {h₁ : Heap} {m₁ : Machine} {es fs : List Event} {k : Nat}

/-- The stepper goes on, and what its machine suspends at becomes a result. -/
inductive Goes (s : Stepper) : List Event → Stepper → Prop where
  | moved {es : List Event} {h' : Heap} {m' : Machine}
      (hg : s.machine.Goes s.session.heap es h' m') :
      Goes s es (s.moved h' m' (s.results.recordAll (suspensions es).reverse))

theorem Goes.after_runs (hr : Runs k s.session.heap s.machine es h₁ m₁)
    (hg : (s.moved h₁ m₁ (s.results.recordAll (suspensions es).reverse)).Goes fs s') :
    s.Goes (es ++ fs) s' := by
  cases hg with
  | moved hg =>
    have hall := Goes.moved (hr.goes hg)
    rw [suspensions_append, List.reverse_append, Results.recordAll_append] at hall
    exact hall

/-- One change of a stepper in the midst of an advance; it stays as it is if there is none. -/
def change (s : Stepper) : Stepper :=
  match s.machine.transition s.session.heap with
  | .proceed m h e => s.moved h m (s.results.follow e.toList)
  | .pause (.suspended n v) m h => s.moved h m (s.results.record n v)
  | .pause _ _ _ => s

theorem change_eq {e : Option Event} {h' : Heap} {m' : Machine}
    (hm : Change s.session.heap s.machine e h' m') :
    s.change = s.moved h' m' (s.results.follow e.toList) := by
  rw [change, hm.transition_eq]
  rcases silent_or_suspended e with he | ⟨n, v, rfl⟩
  · rw [Transition.after_of_silent he]
  · rfl

theorem goes_change (s : Stepper) : ∃ es, s.Goes es s.change := by
  rcases change_or_stop s.session.heap s.machine with ⟨e, h', m', hm⟩ | ⟨a, m', hs⟩
  · rw [change_eq hm, Results.follow_eq_recordAll]
    exact ⟨_, .moved ⟨1, m', .single hm, .inl rfl⟩⟩
  · refine ⟨[], ?_⟩
    rw [change, hs.transition_eq]
    cases a with
    | suspended n v => exact absurd rfl (hs.not_suspended n v)
    | _ => exact .moved ⟨0, s.machine, .refl, .inl rfl⟩

theorem goes_advance (s : Stepper) : s.Goes s.advance.events s.advance.stepper := by
  rw [s.advance_events, s.advance_eq.2]
  exact .moved (Machine.goes_advance _ _)

theorem goes_follow {σ : Type} {listen : σ → List Event → Stepper → σ} {limit : Nat}
    {heard heard' : σ} {outcome : Except Fault Value}
    (hf : Stepper.follow listen limit heard s = some (outcome, heard', s')) :
    ∃ es, s.Goes es s' := by
  induction limit generalizing s heard with
  | zero => cases hf
  | succ limit ih =>
    have hfirst := s.goes_advance
    obtain ⟨hanswer, hstepper⟩ := s.advance_eq
    rw [Stepper.follow] at hf
    rcases hadv : s.advance with ⟨answer, events, s₁⟩
    rw [hadv] at hf hfirst hanswer hstepper
    cases answer with
    | suspended n v =>
      obtain ⟨fs, hrest⟩ := ih hf
      -- the machine does not stop where it suspends, so its run can go on
      rcases advance_cases s.session.heap s.machine with ⟨k, n', v', -, hr⟩ | ⟨k, m₁, hr, hs⟩
      · rw [show s₁ = _ from hstepper] at hrest
        exact ⟨_, .after_runs hr hrest⟩
      · exact absurd hanswer.symm (hs.not_suspended n v)
    | done v =>
      cases hf
      exact ⟨_, hfirst⟩
    | failed f =>
      cases hf
      exact ⟨_, hfirst⟩

/-! ## What is heard of a stepper -/

/-- **What is heard of a stepper** until some moment, between two advances or in the midst of one.
Its session may be used for other programs too, and its results may be those of others. -/
inductive Overheard (s : Stepper) : List Event → Stepper → Prop where
  | start : Overheard s [] s
  | change {es : List Event} {s' : Stepper} (hs : Overheard s es s') {e : Option Event} {h' : Heap}
      {m' : Machine} (hm : Change s'.session.heap s'.machine e h' m') :
      Overheard s (es ++ e.toList) (s'.moved h' m' (s'.results.follow e.toList))
  | stop {es : List Event} {s' : Stepper} (hs : Overheard s es s') {a : Answer} {m' : Machine}
      (hm : Stop s'.session.heap s'.machine a m') :
      Overheard s es (s'.moved s'.session.heap m' s'.results)
  | meanwhile {es : List Event} {s' : Stepper} (hs : Overheard s es s') {session : Session}
      (hl : s'.session.Later session) (r : Results) :
      Overheard s es { s' with session := session, results := r }

variable {s'' : Stepper} {r : Results} {h' : Heap} {m' : Machine}

namespace Overheard

theorem trans (hs : s.Overheard es s') (hs' : s'.Overheard fs s'') :
    s.Overheard (es ++ fs) s'' := by
  induction hs' with
  | start => rwa [List.append_nil]
  | change _ hm ih =>
    rw [← List.append_assoc]
    exact ih.change hm
  | stop _ hm ih => exact ih.stop hm
  | meanwhile _ hl r ih => exact ih.meanwhile hl r

/-- The results are not looked at. -/
theorem of_results (hs : s.Overheard es (s'.moved h' m' r)) (r' : Results) :
    s.Overheard es (s'.moved h' m' r') := hs.meanwhile (.refl _) r'

theorem runs (hr : Runs k s.session.heap s.machine es h' m') (r : Results) :
    s.Overheard es (s.moved h' m' r) := by
  generalize hh : s.session.heap = h at hr
  generalize hm : s.machine = m at hr
  induction hr generalizing s with
  | refl =>
    subst hh hm
    exact Overheard.start.meanwhile (.refl _) r
  | @step _ _ h₁ _ _ m₁ _ e _ hchange _ ih =>
    subst hh hm
    have hfirst := Overheard.start.change hchange
    exact hfirst.trans (@ih (s.moved h₁ m₁ (s.results.follow e.toList)) rfl rfl)

theorem goes (hg : s.Goes es s') : s.Overheard es s' := by
  cases hg with
  | moved hg =>
    obtain ⟨k, m₁, hr, rfl | ⟨a, hs⟩⟩ := hg
    · exact runs hr _
    · exact ((runs hr s.results).stop hs).of_results _

theorem later (hs : s.Overheard es s') : s'.tree = s.tree ∧ s.session.Later s'.session := by
  induction hs with
  | start => exact ⟨rfl, .refl _⟩
  | change _ hm ih => exact ⟨ih.1, ih.2.trans ⟨rfl, rfl, hm.grows⟩⟩
  | stop _ hm ih => exact ⟨ih.1, ih.2.trans ⟨rfl, rfl, .refl _⟩⟩
  | meanwhile _ hl r ih => exact ⟨ih.1, ih.2.trans hl⟩

end Overheard

theorem Goes.later (hg : s.Goes es s') : s'.tree = s.tree ∧ s.session.Later s'.session :=
  (Overheard.goes hg).later

/-! ## What lasts -/

/-- What holds of every stepper at its start, and then for good: whatever its machine does, and
whatever is done in its session. -/
structure Lasting (Q : Stepper → Prop) : Prop where
  start : ∀ t session r, Q (.start t session r)
  overheard : ∀ {s s' es}, Q s → s.Overheard es s' → Q s'

/-- The stepper was started some time before. -/
def Started (s : Stepper) : Prop :=
  ∃ session r es, (Stepper.start s.tree session r).Overheard es s

theorem lasting_started : Lasting Started where
  start := fun _ session r => ⟨session, r, [], .start⟩
  overheard := by
    rintro s s' fs ⟨session, r, es, hs⟩ hs'
    refine ⟨session, r, es ++ fs, ?_⟩
    rw [hs'.later.1]
    exact hs.trans hs'

theorem lasting_coherent : Lasting Coherent where
  start := coherent_start
  overheard := by
    intro s s' es hs hs'
    induction hs' with
    | start => exact hs
    | change _ hm ih => exact ih.change hm
    | stop _ hm ih => exact ih.stop hm
    | meanwhile _ hl r ih =>
      rw [Coherent, hl.library, hl.global]
      exact ih.later hl.heap

end Stepper

end StepLisp
