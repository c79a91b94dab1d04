import StepLisp.Proofs.Protocol
import StepLisp.Proofs.Reachable

/-!
# Independent sessions

Steppers in different sessions share the results of the nodes, and nothing else: sessions own
disjoint frames, since `Session.new` and `Session.numbered` create them anew for each of them, and
no value passes from one session to another. A stepper writes results but never reads any, so what
it does is the same whatever the others do meanwhile, even if they step through the very same
program.

* `Stepper.withResults`, with **`Stepper.advance_withResults`**: an advance does not depend on the
  results;
* `Stepper.heardAfter`, the texts of the events that a lone stepper hears of;
* `Workbench.advanceAll`, advances of several steppers in any order, with their answers;
* `Workbench.Apart`, a stepper stands where it would stand alone, with `Apart.own` and
  `Apart.other`;
* **`Workbench.independent`**: each stepper goes the same way as alone.
-/

namespace StepLisp

namespace Stepper

/-- The stepper, if the nodes have other results. -/
def withResults (s : Stepper) (r : Results) : Stepper := { s with results := r }

/-- **An advance does not depend on the results of the nodes.** -/
theorem advance_withResults (s : Stepper) (r : Results) :
    (s.withResults r).advance.answer = s.advance.answer ∧
      (s.withResults r).advance.events = s.advance.events ∧
      ∃ r', (s.withResults r).advance.stepper = s.advance.stepper.withResults r' := by
  obtain ⟨tree, ⟨heap, library, global, next, started⟩, results, machine⟩ := s
  exact ⟨rfl, rfl, _, rfl⟩

/-- The texts of the events of the first advances, the latest first, in front of earlier ones. -/
def heardAfter (s : Stepper) (earlier : List String) : Nat → List String
  | 0 => earlier
  | n + 1 =>
    Workbench.listen (s.heardAfter earlier n) (s.after n).advance.events (s.after (n + 1))

end Stepper

namespace Workbench

/-- Advances steppers in the given order, each answer with the number of the stepper. What is no
stepper is passed over. -/
def advanceAll (w : Workbench) : List Nat → List (Nat × Answer) × Workbench
  | [] => ([], w)
  | k :: schedule =>
    match w.advance k with
    | none => w.advanceAll schedule
    | some (a, w) => ((k, a) :: (w.advanceAll schedule).1, (w.advanceAll schedule).2)

/-- The parked stepper `b` has got as far as `n` advances take the lone stepper `s`. -/
structure Apart (w : Workbench) (k : Nat) (b : Parked) (s : Stepper) (n : Nat) : Prop where
  parked : w.steppers[k]? =
    some { b with machine := (s.after n).machine, heard := s.heardAfter b.heard n }
  tree : w.trees[b.tree]? = some (s.after n).tree
  session : w.sessions[b.session]? = some (s.after n).session

variable {w w' : Workbench} {j k n : Nat} {b c : Parked} {s : Stepper} {a : Answer}

theorem session_of_advance (ha : w.advance j = some (a, w')) (i : Nat) :
    w'.steppers[i]?.map Parked.session = w.steppers[i]?.map Parked.session := by
  obtain ⟨c, s, hc, -, -, rfl⟩ := advance_eq_some.mp ha
  rw [put, hc]
  dsimp only
  rw [Array.getElem?_setIfInBounds]
  split
  · rename_i hji
    subst hji
    rw [if_pos (Array.getElem?_eq_some_iff.mp hc).1, hc]
    rfl
  · rfl

namespace Apart

theorem start (hb : w.steppers[k]? = some b) (hk : w.stepper? k = some s) : Apart w k b s 0 := by
  obtain ⟨c, t, session, hc, ht, hsession, rfl⟩ := stepper?_eq_some.mp hk
  cases hb.symm.trans hc
  exact ⟨hb, ht, hsession⟩

theorem stepper (hw : Apart w k b s n) :
    w.stepper? k = some ((s.after n).withResults w.results) :=
  stepper?_eq_some.mpr ⟨_, _, _, hw.parked, hw.tree, hw.session, rfl⟩

/-- **The stepper itself is advanced**, as it is alone. -/
theorem own (hw : Apart w k b s n) :
    ∃ w', w.advance k = some (s.answer n, w') ∧ Apart w' k b s (n + 1) := by
  obtain ⟨hanswer, hevents, r, hstepper⟩ := (s.after n).advance_withResults w.results
  refine ⟨_, advance_eq_some.mpr ⟨_, _, hw.parked, hw.stepper, hanswer.symm, rfl⟩, ?_⟩
  rw [hevents, hstepper, put, hw.parked]
  constructor
  · show (w.steppers.setIfInBounds k _)[k]? = _
    rw [Array.getElem?_setIfInBounds_self, if_pos (Array.getElem?_eq_some_iff.mp hw.parked).1]
    rfl
  · rw [Stepper.after, (s.after n).advance_eq.2]
    exact hw.tree
  · show (w.sessions.setIfInBounds b.session _)[b.session]? = _
    rw [Array.getElem?_setIfInBounds_self, if_pos (Array.getElem?_eq_some_iff.mp hw.session).1]
    rfl

/-- **Another stepper is advanced**, in another session. -/
theorem other (hw : Apart w k b s n) (ha : w.advance j = some (a, w')) (hj : j ≠ k)
    (hc : ∀ c, w.steppers[j]? = some c → c.session ≠ b.session) : Apart w' k b s n := by
  obtain ⟨c, st, hcj, -, -, rfl⟩ := advance_eq_some.mp ha
  rw [put, hcj]
  constructor
  · show (w.steppers.setIfInBounds j _)[k]? = _
    rw [Array.getElem?_setIfInBounds_ne hj]
    exact hw.parked
  · exact hw.tree
  · show (w.sessions.setIfInBounds c.session _)[b.session]? = _
    rw [Array.getElem?_setIfInBounds_ne (hc c hcj)]
    exact hw.session

theorem advanceAll {schedule : List Nat} (hw : Apart w k b s n)
    (hother : ∀ j ∈ schedule, j ≠ k → ∀ c, w.steppers[j]? = some c → c.session ≠ b.session) :
    answersOf k (w.advanceAll schedule).1 =
        (List.range' n (schedule.count k)).map s.answer ∧
      Apart (w.advanceAll schedule).2 k b s (n + schedule.count k) := by
  induction schedule generalizing w n with
  | nil => exact ⟨rfl, hw⟩
  | cons j schedule ih =>
    obtain ⟨hj, hschedule⟩ := List.forall_mem_cons.mp hother
    -- the sessions of the steppers stay what they are
    have hrest : ∀ {a w'}, w.advance j = some (a, w') →
        ∀ i ∈ schedule, i ≠ k → ∀ c, w'.steppers[i]? = some c → c.session ≠ b.session := by
      intro a w' ha i hi hik c hc
      have hsession := session_of_advance ha i
      rw [hc] at hsession
      obtain ⟨d, hd, hdc⟩ := Option.map_eq_some_iff.mp hsession.symm
      exact hdc ▸ hschedule i hi hik d hd
    by_cases hjk : j = k
    · subst hjk
      obtain ⟨w', ha, hw'⟩ := hw.own
      obtain ⟨hanswers, hend⟩ := ih hw' (hrest ha)
      rw [Workbench.advanceAll, ha, List.count_cons_self, List.range'_succ, List.map_cons,
        ← hanswers]
      refine ⟨answersOf_cons_self _ _ _, ?_⟩
      rwa [Nat.add_right_comm, Nat.add_assoc] at hend
    · rw [Workbench.advanceAll, List.count_cons_of_ne hjk]
      cases ha : w.advance j with
      | none => exact ih hw hschedule
      | some aw =>
        obtain ⟨hanswers, hend⟩ := ih (hw.other ha hjk (hj hjk)) (hrest ha)
        exact ⟨(answersOf_cons_of_ne _ _ hjk).trans hanswers, hend⟩

end Apart

/-- **Sessions do not interfere**: however the advances of a stepper are mixed with those of others
in other sessions, it gives the answers, hears of the events and comes to the state that it would
alone. Only the results of the nodes are shared. -/
theorem independent (hb : w.steppers[k]? = some b) (hk : w.stepper? k = some s)
    {schedule : List Nat}
    (hother : ∀ j ∈ schedule, j ≠ k → ∀ c, w.steppers[j]? = some c → c.session ≠ b.session) :
    answersOf k (w.advanceAll schedule).1 = (List.range (schedule.count k)).map s.answer ∧
      (∃ c, (w.advanceAll schedule).2.steppers[k]? = some c ∧
        c.heard = s.heardAfter b.heard (schedule.count k)) ∧
      ∃ r, (w.advanceAll schedule).2.stepper? k =
        some ((s.after (schedule.count k)).withResults r) := by
  obtain ⟨hanswers, hend⟩ := (Apart.start hb hk).advanceAll hother
  rw [Nat.zero_add] at hend
  rw [List.range_eq_range']
  exact ⟨hanswers, ⟨_, hend.parked, rfl⟩, _, hend.stepper⟩

/-- Two steppers go through the program `((lambda (x) x) ())` in turns, in two sessions. -/
theorem independent_same_tree : ∃ (w : Workbench) (b c : Parked) (s : Stepper),
    w.steppers[0]? = some b ∧ w.steppers[1]? = some c ∧ c.tree = b.tree ∧
    c.session ≠ b.session ∧ w.stepper? 0 = some s ∧ s.tree = .identityCall ∧
    answersOf 0 (w.advanceAll [0, 1, 1, 0, 1, 0]).1 = [s.answer 0, s.answer 1, s.answer 2] ∧
    ∃ r, (w.advanceAll [0, 1, 1, 0, 1, 0]).2.stepper? 0 = some ((s.after 3).withResults r) := by
  let opened := { Workbench.new.newSession.2 with trees := #[Tree.identityCall] }
  let w := (start (start opened 0 0).2 0 1).2
  have hother : ∀ j ∈ [0, 1, 1, 0, 1, 0], j ≠ 0 → ∀ c, w.steppers[j]? = some c →
      c.session ≠ 0 := by
    intro j hj hne c hc
    obtain rfl : j = 1 := by
      simp at hj
      omega
    cases hc
    decide
  have hfirst : w.steppers[0]? = some _ := rfl
  have hstepper : w.stepper? 0 = some _ := rfl
  obtain ⟨hanswers, -, hend⟩ := independent hfirst hstepper hother
  exact ⟨w, _, _, _, hfirst, rfl, rfl, by decide, hstepper, rfl, hanswers, hend⟩

end Workbench

end StepLisp
