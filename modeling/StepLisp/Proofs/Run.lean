import StepLisp.Proofs.Change

/-!
# Runs of the machine

A run is a sequence of changes, with all the events on the way. The number of changes counts, since
it is what tells a run that ends from one that does not.

* `suspensions`, the values that the nodes got, read off a list of events;
* `Machine.Runs`, with `Runs.trans`; `Machine.Lasts`, a run of a given length;
* `Runs.le_of_stop`: no run is longer than one that comes to a stop;
* `advance_of_proceed`, `advance_of_suspend`, `advance_of_stop`: an advance goes through the silent
  changes, up to a suspension or a stop; `advance_cases`, the run of an advance;
* `advance_of_runs_cons`, `advance_of_runs_nil`: an advance from the beginning of a run comes to the
  first suspension of the run, and if there is none, to the answer of its last machine.
-/

namespace StepLisp

/-- The node and the value of a suspension. -/
def Event.suspension? : Event → Option (Node × Value)
  | .suspended n v => some (n, v)
  | _ => none

/-- The node that got a value, if the answer is of one. -/
def Answer.node? : Answer → Option Node
  | .suspended n _ => some n
  | _ => none

/-- The suspensions among some events. -/
def suspensions (es : List Event) : List (Node × Value) := es.filterMap Event.suspension?

@[simp] theorem suspensions_append (es fs : List Event) :
    suspensions (es ++ fs) = suspensions es ++ suspensions fs := List.filterMap_append

@[simp] theorem suspensions_suspended (n : Node) (v : Value) :
    suspensions [.suspended n v] = [(n, v)] := rfl

@[simp] theorem suspensions_none : suspensions (none : Option Event).toList = [] := rfl

/-- The event is not a suspension. -/
def Silent (e : Option Event) : Prop := suspensions e.toList = []

theorem silent_none : Silent none := rfl

theorem silent_entered (f : FrameId) : Silent (some (.entered f)) := rfl

theorem silent_left (f : FrameId) : Silent (some (.left f)) := rfl

theorem silent_or_suspended (e : Option Event) : Silent e ∨ ∃ n v, e = some (.suspended n v) := by
  rcases e with _ | ⟨f | f | ⟨n, v⟩⟩
  · exact .inl rfl
  · exact .inl rfl
  · exact .inl rfl
  · exact .inr ⟨n, v, rfl⟩

theorem Transition.after_of_silent {e : Option Event} (he : Silent e) (m : Machine) (h : Heap) :
    Transition.after e m h = .proceed m h e := by
  rcases e with _ | ⟨f | f | ⟨n, v⟩⟩
  · rfl
  · rfl
  · rfl
  · cases he

theorem Transition.after_inj {e e' : Option Event} {m m' : Machine} {h h' : Heap}
    (heq : Transition.after e m h = .after e' m' h') : e = e' ∧ m = m' ∧ h = h' := by
  rcases silent_or_suspended e with he | ⟨n, v, rfl⟩ <;>
    rcases silent_or_suspended e' with he' | ⟨n', v', rfl⟩
  · rw [after_of_silent he, after_of_silent he'] at heq
    obtain ⟨rfl, rfl, rfl⟩ := Transition.proceed.inj heq
    exact ⟨rfl, rfl, rfl⟩
  · rw [after_of_silent he] at heq
    cases heq
  · rw [after_of_silent he'] at heq
    cases heq
  · cases heq
    exact ⟨rfl, rfl, rfl⟩

namespace Machine

variable {h h' h₁ : Heap} {m m' m₁ m₂ : Machine} {e : Option Event} {es fs : List Event}
  {k l : Nat} {a : Answer}

theorem Change.unique (hm : Change h m e h' m') {e' : Option Event} (hm' : Change h m e' h₁ m₁) :
    e = e' ∧ m' = m₁ ∧ h' = h₁ :=
  Transition.after_inj (hm.transition_eq.symm.trans hm'.transition_eq)

theorem Change.steps_of_silent (hm : Change h m e h' m') (he : Silent e) : m'.steps = m.steps := by
  cases hm <;> first | rfl | cases he

theorem silent_of_proceed (ht : m.transition h = .proceed m' h' e) : Silent e := by
  rcases silent_or_suspended e with he | ⟨n, v, rfl⟩
  · exact he
  · have := (change_of_proceed ht).transition_eq.symm.trans ht
    cases this

theorem Stop.not_change (hs : Stop h m a m') (hm : Change h m e h₁ m₁) : False := by
  have heq := hs.transition_eq.symm.trans hm.transition_eq
  rcases silent_or_suspended e with he | ⟨n, v, rfl⟩
  · rw [Transition.after_of_silent he] at heq
    cases heq
  · exact hs.not_suspended n v (Transition.pause.inj heq).1

/-- **A run**: `k` changes from one heap and machine to another, with the events on the way. -/
inductive Runs : Nat → Heap → Machine → List Event → Heap → Machine → Prop where
  | refl {h : Heap} {m : Machine} : Runs 0 h m [] h m
  | step {k : Nat} {h h₁ h' : Heap} {m m₁ m' : Machine} {e : Option Event} {es : List Event}
      (hm : Change h m e h₁ m₁) (hr : Runs k h₁ m₁ es h' m') :
      Runs (k + 1) h m (e.toList ++ es) h' m'

theorem Runs.single (hm : Change h m e h' m') : Runs 1 h m e.toList h' m' := by
  have := Runs.step hm .refl
  rwa [List.append_nil] at this

theorem Runs.trans (hr : Runs k h m es h₁ m₁) (hr' : Runs l h₁ m₁ fs h' m') :
    Runs (k + l) h m (es ++ fs) h' m' := by
  induction hr with
  | refl => rwa [Nat.zero_add, List.nil_append]
  | step hm _ ih =>
    rw [Nat.add_right_comm, List.append_assoc]
    exact .step hm (ih hr')

/-- The machine can change `k` times. -/
def Lasts (k : Nat) (h : Heap) (m : Machine) : Prop := ∃ es h' m', Runs k h m es h' m'

theorem Lasts.zero : Lasts 0 h m := ⟨_, _, _, .refl⟩

theorem Lasts.after_runs (hr : Runs k h m es h₁ m₁) (hl : Lasts l h₁ m₁) : Lasts (k + l) h m := by
  obtain ⟨fs, h', m', hr'⟩ := hl
  exact ⟨_, _, _, hr.trans hr'⟩

theorem Lasts.of_le (hl : Lasts l h m) (hk : k ≤ l) : Lasts k h m := by
  obtain ⟨es, h', m', hr⟩ := hl
  induction hr generalizing k with
  | refl =>
    obtain rfl : k = 0 := by omega
    exact .zero
  | step hm _ ih =>
    cases k with
    | zero => exact .zero
    | succ k =>
      rw [Nat.add_comm]
      exact Lasts.after_runs (.single hm) (ih (by omega))

/-- **No run is longer than one that comes to a stop.** -/
theorem Runs.le_of_stop (hr : Runs k h m es h' m') (hs : Stop h' m' a m₁) (hl : Lasts l h m) :
    l ≤ k := by
  induction hr generalizing l with
  | refl =>
    obtain ⟨fs, h₂, m₂, hr'⟩ := hl
    cases hr' with
    | refl => exact Nat.le_refl _
    | step hm _ => exact (hs.not_change hm).elim
  | step hm _ ih =>
    obtain ⟨fs, h₂, m₂, hr'⟩ := hl
    cases hr' with
    | refl => exact Nat.zero_le _
    | step hm' hr' =>
      obtain ⟨-, rfl, rfl⟩ := hm.unique hm'
      exact Nat.succ_le_succ (ih hs ⟨_, _, _, hr'⟩)

/-! ## Advances -/

theorem advance_of_proceed (ht : m.transition h = .proceed m' h' e) :
    m.advance h =
      { m'.advance h' with events := e.toList ++ (m'.advance h').events } := by
  rw [Machine.advance]
  split
  · rename_i ht'
    rw [ht] at ht'
    cases ht'
  · rename_i ht'
    obtain ⟨rfl, rfl, rfl⟩ := Transition.proceed.inj (ht.symm.trans ht')
    rfl

theorem advance_of_silent (hm : Change h m e h' m') (he : Silent e) :
    m.advance h =
      { m'.advance h' with events := e.toList ++ (m'.advance h').events } :=
  advance_of_proceed (hm.transition_eq.trans (Transition.after_of_silent he m' h'))

theorem advance_of_pause (ht : m.transition h = .pause a m' h') :
    m.advance h = ⟨a, m', h', a.events⟩ := by
  rw [Machine.advance]
  split
  · rename_i ht'
    obtain ⟨rfl, rfl, rfl⟩ := Transition.pause.inj (ht.symm.trans ht')
    rfl
  · rename_i ht'
    rw [ht] at ht'
    cases ht'

theorem advance_of_suspend {n : Node} {v : Value} (hm : Change h m (some (.suspended n v)) h' m') :
    m.advance h = ⟨.suspended n v, m', h', [.suspended n v]⟩ :=
  advance_of_pause hm.transition_eq

theorem Stop.events_eq (hs : Stop h m a m') : a.events = [] := by
  cases hs <;> rfl

theorem advance_of_stop (hs : Stop h m a m') : m.advance h = ⟨a, m', h, []⟩ := by
  rw [advance_of_pause hs.transition_eq, hs.events_eq]

/-- **The run of an advance**: it ends with a suspension or with a stop. -/
theorem advance_cases (h : Heap) (m : Machine) :
    (∃ k n v, (m.advance h).answer = .suspended n v ∧
      Runs k h m (m.advance h).events (m.advance h).heap (m.advance h).machine) ∨
    ∃ k m₁, Runs k h m (m.advance h).events (m.advance h).heap m₁ ∧
      Stop (m.advance h).heap m₁ (m.advance h).answer (m.advance h).machine := by
  -- along the recursion of the advance, one silent change after the other
  induction h, m using Machine.advance.induct with
  | case1 h m a m' h' ht =>
    rw [advance_of_pause ht]
    rcases pause_cases ht with ⟨n, v, rfl, hm⟩ | ⟨rfl, hs⟩
    · exact .inl ⟨1, n, v, rfl, .single hm⟩
    · rw [hs.events_eq]
      exact .inr ⟨0, m, .refl, hs⟩
  | case2 h m m' h' e ht ih =>
    have hm := change_of_proceed ht
    rw [advance_of_proceed ht]
    rcases ih with ⟨k, n, v, ha, hr⟩ | ⟨k, m₁, hr, hs⟩
    · exact .inl ⟨k + 1, n, v, ha, .step hm hr⟩
    · exact .inr ⟨k + 1, m₁, .step hm hr, hs⟩

/-- An advance from the beginning of a run without suspensions gives what an advance from its end
gives. -/
theorem advance_of_runs_nil (hr : Runs k h m es h' m') (hes : suspensions es = []) :
    ∃ fs, suspensions fs = [] ∧
      m.advance h = { m'.advance h' with events := fs ++ (m'.advance h').events } := by
  induction hr with
  | refl => exact ⟨[], rfl, rfl⟩
  | @step _ _ _ _ _ _ _ e _ hm _ ih =>
    rw [suspensions_append, List.append_eq_nil_iff] at hes
    obtain ⟨fs, hfs, hadv⟩ := ih hes.2
    refine ⟨e.toList ++ fs, by rw [suspensions_append, hes.1, hfs]; rfl, ?_⟩
    rw [advance_of_silent hm hes.1, hadv]
    simp

theorem advance_of_runs_cons (hr : Runs k h m es h' m') {n : Node} {v : Value}
    {log : List (Node × Value)} (hes : suspensions es = (n, v) :: log) :
    (m.advance h).answer = .suspended n v ∧ suspensions (m.advance h).events = [(n, v)] ∧
      (m.advance h).machine.steps = m.steps + 1 ∧
      ∃ l fs, Runs l (m.advance h).heap (m.advance h).machine fs h' m' ∧ suspensions fs = log := by
  induction hr with
  | refl => cases hes
  | @step l _ _ _ _ _ _ e fs hm hr ih =>
    rcases silent_or_suspended e with he | ⟨n', v', rfl⟩
    · rw [suspensions_append, show suspensions e.toList = [] from he, List.nil_append] at hes
      obtain ⟨ha, hev, hst, hrest⟩ := ih hes
      rw [advance_of_silent hm he]
      refine ⟨ha, ?_, hst.trans ?_, hrest⟩
      · rw [suspensions_append, show suspensions e.toList = [] from he, hev]
        rfl
      · rw [hm.steps_of_silent he]
    · obtain ⟨⟨rfl, rfl⟩, rfl⟩ : (n' = n ∧ v' = v) ∧ suspensions fs = log := by
        simpa [suspensions, Event.suspension?] using hes
      rw [advance_of_suspend hm]
      refine ⟨rfl, rfl, ?_, l, fs, hr, rfl⟩
      cases hm
      rfl

end Machine

end StepLisp
