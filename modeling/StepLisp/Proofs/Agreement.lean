import StepLisp.Proofs.Simulation
import StepLisp.Proofs.Stepping

/-!
# Stepping agrees with recursive evaluation

A program that is stepped through ends exactly if its recursive evaluation does, with the same
outcome, the same bindings in all frames and the same results of all nodes; and it pauses exactly
where the recursive evaluation writes the value of a node.

* `Stepper.run_of_evaluate` and `Stepper.evaluate_of_run`, from one to the other;
* **`Stepper.run_agrees_evaluate`**: stepping agrees with recursive evaluation;
* **`Stepper.suspended_eq_written`**: the suspensions are the written values, one by one.
-/

namespace StepLisp

/-- The program `((lambda (x) x) ())`, with the numbers of its nodes. -/
def Tree.identityCall : Tree :=
  let node := fun id children => Node.expression ⟨0, ⟨id⟩⟩ default children
  let name := fun id x => Node.atom ⟨0, ⟨id⟩⟩ default (.identifier x)
  ⟨node 0 [node 1 [node 2 [name 3 "lambda", node 4 [name 5 "x"], name 6 "x"], node 7 []]]⟩

namespace Stepper

open Machine

variable {t : Tree} {s₀ : Session} {r : Results} {depth k : Nat} {outcome : Except Fault Value}
  {trail : Trail} {h' : Heap} {m' m'' : Machine} {a : Answer}

theorem stops_of_evaluate
    (he : StepLisp.evaluate depth t.root s₀.global ⟨s₀.heap, []⟩ = some (outcome, trail)) :
    ∃ k es m' a m'', Runs k s₀.heap (.start t.root s₀.library s₀.global) es trail.heap m' ∧
      Stop trail.heap m' a m'' ∧ a.outcome? = some outcome ∧
      (suspensions es).reverse = trail.written := by
  have hf := follows_evaluate depth t.root s₀.global ⟨s₀.heap, []⟩
    (.start t.root s₀.library s₀.global) _ _ rfl rfl rfl
  rw [he] at hf
  cases outcome with
  | error f =>
    obtain ⟨k, es, m', m'', hr, hw, hs⟩ := hf
    exact ⟨k, es, m', _, m'', hr, hs, rfl, by rw [hw, List.append_nil]⟩
  | ok v =>
    obtain ⟨k, es, m', hr, hw, hd⟩ := hf
    have hm : Change trail.heap m' none trail.heap _ := .finish hd.control hd.pending
    refine ⟨k + 1, _, _, _, _, hr.trans (.single hm), .done rfl, rfl, ?_⟩
    rw [suspensions_append, suspensions_none, List.append_nil, hw, List.append_nil]

theorem evaluate_of_runs {es : List Event}
    (hr : Runs k s₀.heap (.start t.root s₀.library s₀.global) es h' m') (hs : Stop h' m' a m'') :
    ∃ x, StepLisp.evaluate (k + 1) t.root s₀.global ⟨s₀.heap, []⟩ = some x := by
  have hf := follows_evaluate (k + 1) t.root s₀.global ⟨s₀.heap, []⟩
    (.start t.root s₀.library s₀.global) _ _ rfl rfl rfl
  cases hx : StepLisp.evaluate (k + 1) t.root s₀.global ⟨s₀.heap, []⟩ with
  | some x => exact ⟨x, rfl⟩
  | none =>
    -- without a value the machine would run for longer than it does
    rw [hx] at hf
    exact absurd (hr.le_of_stop hs hf) (by omega)

theorem evaluate_eq_some {s' : Session} {r' : Results} :
    s₀.evaluate t r depth = some (outcome, s', r') ↔
      ∃ trail, StepLisp.evaluate depth t.root s₀.global ⟨s₀.heap, []⟩ = some (outcome, trail) ∧
        s' = { s₀ with heap := trail.heap } ∧ r' = r.recordAll trail.written := by
  obtain ⟨heap, library, global, next, started⟩ := s₀
  unfold Session.evaluate
  dsimp only
  rcases StepLisp.evaluate depth t.root global ⟨heap, []⟩ with _ | ⟨o, heap', written⟩
  · simp
  · constructor
    · intro he
      cases he
      exact ⟨_, rfl, rfl, rfl⟩
    · rintro ⟨trail, he, rfl, rfl⟩
      cases he
      rfl

theorem run_of_evaluate {s' : Session} {r' : Results}
    (he : s₀.evaluate t r depth = some (outcome, s', r')) :
    ∃ limit st, (Stepper.start t s₀ r).run limit = some (outcome, st) ∧
      st.session = s'.register t ∧ st.results = r' := by
  obtain ⟨trail, he', rfl, rfl⟩ := evaluate_eq_some.mp he
  obtain ⟨k, es, m', a, m'', hr, hs, ho, hw⟩ := stops_of_evaluate he'
  have hrun := run_of_runs (s := Stepper.start t s₀ r) hr hs ho
  rw [hw] at hrun
  exact ⟨_, _, hrun, rfl, rfl⟩

theorem evaluate_of_run {limit : Nat} {st : Stepper}
    (hrun : (Stepper.start t s₀ r).run limit = some (outcome, st)) :
    ∃ depth trail,
      StepLisp.evaluate depth t.root s₀.global ⟨s₀.heap, []⟩ = some (outcome, trail) ∧
        st.session = Session.register { s₀ with heap := trail.heap } t := by
  obtain ⟨k, es, h', m', a, m'', hr, hs⟩ := runs_of_run hrun
  have hend : ∃ x, StepLisp.evaluate (k + 1) t.root s₀.global ⟨s₀.heap, []⟩ = some x :=
    evaluate_of_runs hr hs
  obtain ⟨⟨outcome', trail⟩, he⟩ := hend
  obtain ⟨limit', st', hrun', hsession, -⟩ :=
    run_of_evaluate (r := r) (evaluate_eq_some.mpr ⟨trail, he, rfl, rfl⟩)
  obtain ⟨rfl, rfl⟩ := Prod.mk.inj (run_unique hrun hrun')
  exact ⟨k + 1, trail, he, hsession⟩

/-- **Stepping agrees with recursive evaluation**, for every program, in every session and with any
former results: one ends iff the other does, and then with the same outcome, the same frames and the
same results. -/
theorem run_agrees_evaluate (t : Tree) (s : Session) (r : Results) :
    ((∃ depth, (s.evaluate t r depth).isSome) ↔
      ∃ limit, ((Stepper.start t s r).run limit).isSome) ∧
    ∀ depth limit outcome s' r' outcome' st,
      s.evaluate t r depth = some (outcome, s', r') →
      (Stepper.start t s r).run limit = some (outcome', st) →
      outcome' = outcome ∧ st.session = s'.register t ∧ st.results = r' := by
  refine ⟨⟨?_, ?_⟩, ?_⟩
  · rintro ⟨depth, he⟩
    obtain ⟨⟨outcome, s', r'⟩, he⟩ := Option.isSome_iff_exists.mp he
    obtain ⟨limit, st, hrun, -⟩ := run_of_evaluate he
    exact ⟨limit, by rw [hrun]; rfl⟩
  · rintro ⟨limit, hrun⟩
    obtain ⟨x, hrun⟩ := Option.isSome_iff_exists.mp hrun
    obtain ⟨k, es, h', m', a, m'', hr, hs⟩ := runs_of_run hrun
    have hend : ∃ x, StepLisp.evaluate (k + 1) t.root s.global ⟨s.heap, []⟩ = some x :=
      evaluate_of_runs hr hs
    obtain ⟨⟨outcome, trail⟩, he⟩ := hend
    exact ⟨k + 1, by rw [evaluate_eq_some.mpr ⟨trail, he, rfl, rfl⟩]; rfl⟩
  · intro depth limit outcome s' r' outcome' st he hrun
    obtain ⟨limit', st', hrun', hsession, hresults⟩ := run_of_evaluate he
    obtain ⟨rfl, rfl⟩ := Prod.mk.inj (run_unique hrun hrun')
    exact ⟨rfl, hsession, hresults⟩

/-- **The suspensions are the values that the recursive evaluation writes**, in their order, and
nothing else: behind `j` of them `j` steps are shown, and every node has the last of the values that
were written for it. -/
theorem suspended_eq_written
    (he : StepLisp.evaluate depth t.root s₀.global ⟨s₀.heap, []⟩ = some (outcome, trail)) :
    (∀ j n v, trail.written.reverse[j]? = some (n, v) →
      ((Stepper.start t s₀ r).after j).advance.answer = .suspended n v) ∧
    (((Stepper.start t s₀ r).after trail.written.length).advance.answer.outcome? = some outcome) ∧
    ∀ j ≤ trail.written.length,
      ((Stepper.start t s₀ r).after j).snapshot.steps = j ∧
      ∀ node, ((Stepper.start t s₀ r).after j).results.of? node =
        (latest? (trail.written.reverse.take j).reverse node).or (r.of? node) := by
  obtain ⟨k, es, m', a, m'', hr, hs, ho, hw⟩ := stops_of_evaluate he
  have hlog : suspensions es = trail.written.reverse := by rw [← hw, List.reverse_reverse]
  have hlen : (suspensions es).length = trail.written.length := by rw [hlog, List.length_reverse]
  have hafter := fun j => after_runs (s := Stepper.start t s₀ r) hr (j := j)
  refine ⟨fun j n v hj => ?_, ?_, fun j hj => ?_⟩
  · rw [← hlog] at hj
    obtain ⟨hlt, hj⟩ := List.getElem?_eq_some_iff.mp hj
    obtain ⟨⟨l, fs, hr', hfs⟩, -⟩ := hafter j (by omega)
    rw [List.drop_eq_getElem_cons hlt, hj] at hfs
    rw [advance_eq _ |>.1]
    exact (advance_of_runs_cons hr' hfs).1
  · obtain ⟨⟨l, fs, hr', hfs⟩, -⟩ := hafter trail.written.length (by omega)
    rw [← hlen, List.drop_length] at hfs
    obtain ⟨gs, -, hadv⟩ := advance_of_runs_nil hr' hfs
    rw [advance_eq _ |>.1, hadv, advance_of_stop hs, ho]
  · obtain ⟨-, hsteps, hres⟩ := hafter j (by omega)
    rw [hres, hlog]
    exact ⟨hsteps.trans (Nat.zero_add j), fun node => r.of?_recordAll _ node⟩

/-- The closure and its argument come first, then the body, the call and the root; the sixth advance
ends the program. -/
theorem suspended_identityCall : ∃ outcome trail,
    StepLisp.evaluate 4 Tree.identityCall.root Session.new.global ⟨Session.new.heap, []⟩ =
      some (outcome, trail) ∧
    trail.written.reverse.map (fun w => w.1.id.index) = [2, 7, 6, 1, 0] ∧
    ((Stepper.start .identityCall .new ∅).after 5).advance.answer.outcome? = some outcome := by
  have hmap :
      (StepLisp.evaluate 4 Tree.identityCall.root Session.new.global ⟨Session.new.heap, []⟩).map
        (fun x => x.2.written.reverse.map fun w => w.1.id.index) = some [2, 7, 6, 1, 0] := by
    simp [evaluate, evaluateEach, Tree.identityCall, Form.ofNode, Form.abstractionOf,
      Node.identifier?, Node.id, Node.place, apply, Closure.enter, Closure.arity, Closure.bindings,
      Bindings.insert, Bindings.find?, Heap.makeClosure, Heap.allocate, Heap.lookup, Heap.frame?]
  obtain ⟨⟨outcome, trail⟩, he, hw⟩ := Option.map_eq_some_iff.mp hmap
  have hlen : trail.written.length = 5 := by
    simpa using congrArg List.length hw
  have hlast := (suspended_eq_written (r := ∅) he).2.1
  rw [hlen] at hlast
  exact ⟨outcome, trail, he, hw, hlast⟩

end Stepper

end StepLisp
