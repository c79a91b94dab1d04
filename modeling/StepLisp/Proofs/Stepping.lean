import StepLisp.Session.Stepper
import StepLisp.Proofs.Run

/-!
# Runs of a stepper

A stepper moves as its machine does, and records a value for each suspension on the way.

* `latest?`, the last value that was written for a node, and `Results.of?_recordAll`;
* `Stepper.advance_eq` and `Stepper.run_succ`, one advance of a stepper and the first of a run;
* **`Stepper.run_of_runs`** and `Stepper.runs_of_run`: runs of the stepper and of its machine;
* `Stepper.after`, a stepper after some advances, and **`Stepper.after_runs`**, where this is on a
  run.
-/

namespace StepLisp

theorem eq_ok_of_toOption {ε α : Type} {r : Except ε α} {a : α} (h : r.toOption = some a) :
    r = .ok a := by
  cases r with
  | error e => cases h
  | ok b => exact congrArg Except.ok (Option.some.inj h)

/-- How the program ends, if the answer is an end. -/
def Answer.outcome? : Answer → Option (Except Fault Value)
  | .suspended _ _ => none
  | .done v => some (.ok v)
  | .failed e => some (.error e)

/-! ## Results -/

/-- The last value of a node, among written ones of which the latest is the first. -/
def latest? (written : List (Node × Value)) (node : Node) : Option Value :=
  (written.find? fun w => w.1.place == node.place).map (·.2)

namespace Results

variable (r : Results)

/-- Among recorded values the latest counts; where there is none, the former results stay. -/
theorem of?_recordAll (written : List (Node × Value)) (node : Node) :
    (r.recordAll written).of? node = (latest? written node).or (r.of? node) := by
  induction written with
  | nil => rfl
  | cons w written ih =>
    have hcons : r.recordAll (w :: written) = (r.recordAll written).record w.1 w.2 := rfl
    rw [hcons, of?, record, Std.HashMap.getElem?_insert, latest?, List.find?_cons]
    by_cases hw : w.1.place == node.place
    · simp [hw]
    · simpa [hw, latest?, of?] using ih

theorem recordAll_append (ws us : List (Node × Value)) :
    r.recordAll (ws ++ us) = (r.recordAll us).recordAll ws := by
  rw [recordAll, List.foldr_append]
  rfl

theorem follow_eq_recordAll (es : List Event) :
    r.follow es = r.recordAll (suspensions es).reverse := by
  induction es generalizing r with
  | nil => rfl
  | cons e es ih =>
    cases e with
    | entered f => exact ih r
    | left f => exact ih r
    | suspended n v =>
      have hcons : suspensions (.suspended n v :: es) = (n, v) :: suspensions es := rfl
      rw [hcons, List.reverse_cons, recordAll_append]
      exact ih (r.record n v)

end Results

namespace Stepper

open Machine

variable {s : Stepper} {h' : Heap} {m' m'' : Machine} {es : List Event} {k limit : Nat}
  {a : Answer} {o : Except Fault Value}

/-- The stepper with another heap, other results and another machine. -/
def moved (s : Stepper) (h : Heap) (m : Machine) (r : Results) : Stepper :=
  { s with session := { s.session with heap := h }, machine := m, results := r }

theorem advance_eq (s : Stepper) :
    s.advance.answer = (s.machine.advance s.session.heap).answer ∧
      s.advance.stepper = s.moved (s.machine.advance s.session.heap).heap
        (s.machine.advance s.session.heap).machine
        (s.results.recordAll
          (suspensions (s.machine.advance s.session.heap).events).reverse) := by
  obtain ⟨tree, ⟨heap, library, global, next, started⟩, results, machine⟩ := s
  refine ⟨rfl, ?_⟩
  rw [← Results.follow_eq_recordAll]
  rfl

theorem advance_events (s : Stepper) :
    s.advance.events = (s.machine.advance s.session.heap).events := by
  obtain ⟨tree, ⟨heap, library, global, next, started⟩, results, machine⟩ := s
  rfl

theorem run_succ (s : Stepper) (limit : Nat) :
    s.run (limit + 1) =
      match s.advance.answer.outcome? with
      | some o => some (o, s.advance.stepper)
      | none => s.advance.stepper.run limit := by
  rw [run, follow]
  rcases s.advance with ⟨_ | v | e, events, s'⟩ <;> rfl

theorem run_unique {limit' : Nat} {x y : Except Fault Value × Stepper}
    (hx : s.run limit = some x) (hy : s.run limit' = some y) : x = y := by
  induction limit generalizing s limit' with
  | zero => cases hx
  | succ limit ih =>
    cases limit' with
    | zero => cases hy
    | succ limit' =>
      rw [run_succ] at hx hy
      cases ho : s.advance.answer.outcome? with
      | some o =>
        rw [ho] at hx hy
        exact Option.some.inj (hx.symm.trans hy)
      | none =>
        rw [ho] at hx hy
        exact ih hx hy

/-- **A run of the machine that comes to a stop is a run of the stepper**, with the suspensions as
the values that are recorded. -/
theorem run_of_runs (hr : Runs k s.session.heap s.machine es h' m') (hs : Stop h' m' a m'')
    (ho : a.outcome? = some o) :
    s.run ((suspensions es).length + 1) =
      some (o, s.moved h' m'' (s.results.recordAll (suspensions es).reverse)) := by
  obtain ⟨log, hlog⟩ : ∃ log, suspensions es = log := ⟨_, rfl⟩
  induction log generalizing s k es with
  | nil =>
    obtain ⟨fs, hfs, hadv⟩ := advance_of_runs_nil hr hlog
    obtain ⟨hans, hst⟩ := s.advance_eq
    rw [advance_of_stop hs] at hadv
    rw [hadv] at hans hst
    rw [run_succ, hans, ho, hst, hlog]
    simp [hfs]
  | cons w log ih =>
    obtain ⟨hans, hev, -, l, fs, hr', hfs⟩ := advance_of_runs_cons hr hlog
    obtain ⟨hans', hst⟩ := s.advance_eq
    rw [hev] at hst
    have hrest : Runs l s.advance.stepper.session.heap s.advance.stepper.machine fs h' m' := by
      rw [hst]
      exact hr'
    have hnext := ih hrest hfs
    rw [hfs] at hnext
    rw [hlog, List.length_cons, run_succ, hans', hans, List.reverse_cons]
    dsimp only [Answer.outcome?]
    rw [hnext, hst, Results.recordAll_append]
    rfl

theorem runs_of_run {x : Except Fault Value × Stepper} (hx : s.run limit = some x) :
    ∃ k es h' m' a m'', Runs k s.session.heap s.machine es h' m' ∧ Stop h' m' a m'' := by
  induction limit generalizing s with
  | zero => cases hx
  | succ limit ih =>
    rcases advance_cases s.session.heap s.machine with ⟨k, n, v, ha, hr⟩ | ⟨k, m₁, hr, hs⟩
    · obtain ⟨hans, hst⟩ := s.advance_eq
      rw [run_succ, hans, ha] at hx
      obtain ⟨l, fs, h', m', a, m'', hr', hs⟩ := ih hx
      rw [hst] at hr'
      exact ⟨k + l, _, h', m', a, m'', hr.trans hr', hs⟩
    · exact ⟨k, _, _, m₁, _, _, hr, hs⟩

/-! ## Advances one after the other -/

/-- The stepper after `j` advances. -/
def after (s : Stepper) : Nat → Stepper
  | 0 => s
  | j + 1 => (s.after j).advance.stepper

/-- **After `j` advances along a run**, the stepper is on the rest of the run, behind the first `j`
suspensions. -/
theorem after_runs (hr : Runs k s.session.heap s.machine es h' m') {j : Nat}
    (hj : j ≤ (suspensions es).length) :
    (∃ l fs, Runs l (s.after j).session.heap (s.after j).machine fs h' m' ∧
      suspensions fs = (suspensions es).drop j) ∧
    (s.after j).machine.steps = s.machine.steps + j ∧
    (s.after j).results = s.results.recordAll ((suspensions es).take j).reverse := by
  induction j with
  | zero => exact ⟨⟨k, es, hr, rfl⟩, rfl, rfl⟩
  | succ j ih =>
    obtain ⟨⟨l, fs, hr', hfs⟩, hsteps, hres⟩ := ih (by omega)
    rw [List.drop_eq_getElem_cons (by omega)] at hfs
    obtain ⟨-, hev, hst, hrest⟩ := advance_of_runs_cons hr' hfs
    have hmove := (s.after j).advance_eq.2
    rw [hev] at hmove
    rw [after, hmove]
    refine ⟨hrest, hst.trans (congrArg (· + 1) hsteps), ?_⟩
    rw [List.take_succ_eq_append_getElem (by omega), List.reverse_append, Results.recordAll_append,
      ← hres]
    rfl

end Stepper

end StepLisp
