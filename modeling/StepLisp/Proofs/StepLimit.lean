import Mathlib.Data.Set.Card
import StepLisp.CommandLine
import StepLisp.Proofs.Lines

/-!
# The limit on the steps

A program can be stepped through with a limit on its steps. Then it is given up behind the snapshot
of the last step that is allowed, even if its value would be answered next. So of a program that
answers `k` times with the value of a node, at most as many snapshots are shown as are allowed, and
one even if none is.

* `Stepper.pauseCount`, the number of the answers with the value of a node, which may be infinite,
  with `Stepper.pauseCount_eq` and **`Stepper.lt_pauseCount`**: these answers come first;
* `CommandLine.shown`, the lines for the first steps, with `printed_shown_succ`: they are the
  snapshots, and with `not_done_of_mem_textLines`: none looks like the value of the program;
* `CommandLine.stepFrom_after`: the printing goes on while there are steps and they are allowed;
* **`CommandLine.step_limited`**: what is printed for a program with a limit.
-/

namespace StepLisp

/-! ## The number of pauses -/

theorem Machine.Next.unended {root n : Node} {v : Value} {last : Option Answer}
    (h : Next root last (.suspended n v)) : Unended last := by
  cases h with
  | suspended hl => exact hl

namespace Stepper

open Machine

variable {s : Stepper} {n : Nat}

/-- The number of the answers with the value of a node. -/
noncomputable def pauseCount (s : Stepper) : ℕ∞ :=
  {j | ∃ c v, s.answer j = .suspended c v}.encard

theorem suspended_of_le (hs : s.machine.Behind none) {i j : ℕ} (hij : i ≤ j)
    (hj : ∃ c v, s.answer j = .suspended c v) : ∃ c v, s.answer i = .suspended c v := by
  induction j, hij using Nat.le_induction with
  | base => exact hj
  | succ j _ ih =>
    obtain ⟨c, v, hans⟩ := hj
    have hnext := next_answer hs (j + 1)
    rw [hans] at hnext
    exact ih (hnext.unended _ rfl)

theorem suspended_iff_lt (hs : s.machine.Behind none)
    (hbefore : ∀ j < n, ∃ c v, s.answer j = .suspended c v)
    (hn : ¬ ∃ c v, s.answer n = .suspended c v) (j : ℕ) :
    (∃ c v, s.answer j = .suspended c v) ↔ j < n :=
  ⟨fun hj => Nat.lt_of_not_le fun hle => hn (suspended_of_le hs hle hj), hbefore j⟩

theorem pauseCount_eq (hs : s.machine.Behind none)
    (hbefore : ∀ j < n, ∃ c v, s.answer j = .suspended c v)
    (hn : ¬ ∃ c v, s.answer n = .suspended c v) : s.pauseCount = n := by
  have hset : {j | ∃ c v, s.answer j = .suspended c v} = (Finset.range n : Set ℕ) := by
    ext j
    simp [suspended_iff_lt hs hbefore hn]
  rw [pauseCount, hset, Set.encard_coe_eq_coe_finsetCard, Finset.card_range]

/-- **The answers with the value of a node come first.** -/
theorem lt_pauseCount (hs : s.machine.Behind none) (j : ℕ) :
    (j : ℕ∞) < s.pauseCount ↔ ∃ c v, s.answer j = .suspended c v := by
  classical
  by_cases hall : ∀ i, ∃ c v, s.answer i = .suspended c v
  · have hset : {i | ∃ c v, s.answer i = .suspended c v} = Set.univ := Set.eq_univ_of_forall hall
    rw [pauseCount, hset, Set.encard_univ, ENat.card_eq_top_of_infinite]
    exact iff_of_true (ENat.natCast_lt_top j) (hall j)
  · have hex : ∃ k, ¬ ∃ c v, s.answer k = .suspended c v := not_forall.mp hall
    obtain ⟨k, hbefore, hk⟩ : ∃ k, (∀ i < k, ∃ c v, s.answer i = .suspended c v) ∧
        ¬ ∃ c v, s.answer k = .suspended c v :=
      ⟨Nat.find hex, fun i hi => not_not.mp (Nat.find_min hex hi), Nat.find_spec hex⟩
    rw [pauseCount_eq hs hbefore hk, Nat.cast_lt, suspended_iff_lt hs hbefore hk]

theorem pauses_of_le (hs : s.machine.Behind none) (hn : (n : ℕ∞) ≤ s.pauseCount) :
    ∀ j < n, ∃ c v, s.answer j = .suspended c v :=
  fun j hj => (lt_pauseCount hs j).mp (lt_of_lt_of_le (Nat.cast_lt.mpr hj) hn)

theorem answer_of_pauses (hs : s.machine.Behind none)
    (hn : ∀ j < n, ∃ c v, s.answer j = .suspended c v) :
    (∃ c v, s.answer n = .suspended c v) ∨ (∃ v, s.answer n = .done v) ∨
      ∃ f, f.cause ≠ .halted ∧ s.answer n = .failed f := by
  have hlast : Unended (s.last n) := by
    cases n with
    | zero => exact unended_none
    | succ n =>
      obtain ⟨c, v, hans⟩ := hn n n.lt_succ_self
      rw [last, hans]
      exact unended_suspended c v
  rcases (next_answer hs n).of_unended hlast with hans | ⟨v, -, hans⟩ | hans
  · exact .inl hans
  · exact .inr (.inl ⟨v, hans⟩)
  · exact .inr (.inr hans)

theorem steps_of_pauses (hs : s.machine.steps = 0)
    (hn : ∀ j < n, ∃ c v, s.answer j = .suspended c v) : (s.after n).machine.steps = n := by
  induction n with
  | zero => exact hs
  | succ n ih =>
    obtain ⟨c, v, hans⟩ := hn n n.lt_succ_self
    have hsteps := (snapshot_of_suspended hans).1
    rw [ih fun j hj => hn j (Nat.lt_succ_of_lt hj)] at hsteps
    exact hsteps

end Stepper

/-! ## What is printed -/

namespace CommandLine

variable {s : Stepper} {c : Node} {v : Value} {r : Except Fault Value} {maxSteps : Option Nat}
  {N n : Nat}

/-- The lines for the first `n` answers, in their order. -/
def shown (s : Stepper) (n : Nat) : List String :=
  (List.range n).flatMap fun j => (s.answer j).lines (j + 1) (s.after (j + 1)).snapshot.frames

theorem shown_succ (s : Stepper) (n : Nat) : shown s (n + 1) =
    shown s n ++ (s.answer n).lines (n + 1) (s.after (n + 1)).snapshot.frames := by
  simp [shown, List.range_succ]

theorem printed_shown_succ (hs : s.machine.steps = 0)
    (hn : ∀ j < n + 1, ∃ c v, s.answer j = .suspended c v) :
    printed (shown s (n + 1)) =
      printed (shown s n) ++ ((s.after n).advance.stepper.snapshot.text ++ "\n") := by
  obtain ⟨c, v, hans⟩ := hn n n.lt_succ_self
  have hsteps := Stepper.steps_of_pauses hs fun j hj => hn j (Nat.lt_succ_of_lt hj)
  rw [shown_succ, printed_append, Stepper.printed_snapshot hans, hsteps]
  rfl

theorem not_done_of_mem_lines {a : Answer} {step : Nat} {frames : List FrameView} {l : String}
    (hl : l ∈ a.lines step frames) : ¬ "done:".toList <+: l.toList := by
  cases a with
  | suspended c v =>
    rcases List.mem_cons.mp hl with rfl | hl
    · simp
    · obtain ⟨g, -, rfl⟩ := List.mem_map.mp hl
      simp
  | done | failed => cases hl

theorem not_done_of_mem_textLines (hs : s.Tidy) :
    ∀ line ∈ textLines (printed (shown s n)), ¬ "done:".toList <+: line := by
  have hlines : ∀ l ∈ shown s n, OneLine l := by
    intro l hl
    obtain ⟨j, -, hl⟩ := List.mem_flatMap.mp hl
    exact (hs.after j).oneLine_lines (j + 1) l hl
  intro line hline
  rw [textLines_printed hlines] at hline
  rcases List.mem_append.mp hline with hline | hline
  · obtain ⟨l, hl, rfl⟩ := List.mem_map.mp hline
    obtain ⟨j, -, hl⟩ := List.mem_flatMap.mp hl
    exact not_done_of_mem_lines hl
  · obtain rfl := List.mem_singleton.mp hline
    simp

/-- What has been printed at the end of a program behind some lines. -/
def closing (lines : List String) : Except Fault Value → Transcript
  | .ok v => .success (printed (lines ++ ["done: " ++ v.text]))
  | .error f => .failure (printed lines) (.execution f)

/-! ## One step -/

theorem stepOnce_going (ha : s.advance.answer = .suspended c v)
    (hm : ∀ N ∈ maxSteps, s.advance.stepper.machine.steps < N) :
    stepOnce maxSteps s =
      (s.advance.stepper.snapshot.text ++ "\n", .going s.advance.stepper) := by
  unfold stepOnce
  generalize s.advance = next at ha hm ⊢
  obtain ⟨a, es, s'⟩ := next
  cases ha
  cases maxSteps with
  | none => rfl
  | some N => exact if_neg (Nat.not_le.mpr (hm N rfl))

theorem stepOnce_stopped (ha : s.advance.answer = .suspended c v)
    (hN : N ≤ s.advance.stepper.machine.steps) :
    stepOnce (some N) s =
      (s.advance.stepper.snapshot.text ++ "\n", .over 1 (Complaint.stepLimit N).line) := by
  unfold stepOnce
  generalize s.advance = next at ha hN ⊢
  obtain ⟨a, es, s'⟩ := next
  cases ha
  exact if_pos hN

/-! ## All steps -/

/-- At the end of the program the limit makes no difference any more. -/
theorem stepFrom_closing (maxSteps : Option Nat) (ha : s.advance.answer.outcome? = some r)
    (l : Nat) (lines : List String) :
    stepFrom maxSteps (l + 1) (printed lines) s = some (closing lines r) := by
  unfold stepFrom stepOnce
  generalize s.advance = next at ha ⊢
  obtain ⟨a, es, s'⟩ := next
  cases a with
  | suspended => cases ha
  | done v =>
    cases ha
    simp [closing, Transcript.success, printed]
  | failed f =>
    cases ha
    simp [closing, Transcript.failure]

/-- **The printing goes on** as long as there are steps and they are allowed. -/
theorem stepFrom_after (maxSteps : Option Nat) (hs : s.machine.steps = 0)
    (hn : ∀ j < n, ∃ c v, s.answer j = .suspended c v) (hm : ∀ N ∈ maxSteps, n < max N 1)
    (l : Nat) :
    stepFrom maxSteps (n + l) "" s = stepFrom maxSteps l (printed (shown s n)) (s.after n) := by
  induction n generalizing l with
  | zero => rw [Nat.zero_add]; rfl
  | succ n ih =>
    have hn' : ∀ j < n, ∃ c v, s.answer j = .suspended c v :=
      fun j hj => hn j (Nat.lt_succ_of_lt hj)
    obtain ⟨c, v, hans⟩ := hn n n.lt_succ_self
    have hsteps : (s.after n).advance.stepper.machine.steps = n + 1 := Stepper.steps_of_pauses hs hn
    have hgoing := stepOnce_going hans fun N hN => by
      have hlt := hm N hN
      omega
    rw [Nat.succ_add, ← Nat.add_succ, ih hn' fun N hN => Nat.lt_of_succ_lt (hm N hN), stepFrom,
      hgoing, printed_shown_succ hs hn]
    rfl

theorem stepFrom_stopped (hs : s.machine.steps = 0) {limit : Nat} (hlimit : max N 1 ≤ limit)
    (hn : ∀ j < max N 1, ∃ c v, s.answer j = .suspended c v) :
    stepFrom (some N) limit "" s =
      some (.failure (printed (shown s (max N 1))) (.stepLimit N)) := by
  obtain ⟨n, hmax⟩ : ∃ n, max N 1 = n + 1 := ⟨max N 1 - 1, by omega⟩
  rw [hmax] at hn hlimit ⊢
  obtain ⟨l, rfl⟩ := Nat.exists_eq_add_of_le hlimit
  obtain ⟨c, v, hans⟩ := hn n n.lt_succ_self
  have hsteps : (s.after n).advance.stepper.machine.steps = n + 1 := Stepper.steps_of_pauses hs hn
  have hstopped : stepOnce (some N) (s.after n) = _ := stepOnce_stopped hans (by omega)
  have hallowed : ∀ M ∈ some N, n < max M 1 := by
    rintro M ⟨⟩
    omega
  rw [Nat.add_assoc, Nat.add_comm 1,
    stepFrom_after _ hs (fun j hj => hn j (Nat.lt_succ_of_lt hj)) hallowed, stepFrom, hstopped,
    printed_shown_succ hs hn]
  rfl

theorem stepFrom_ended (maxSteps : Option Nat) (hs : s.machine.steps = 0)
    (hn : ∀ j < n, ∃ c v, s.answer j = .suspended c v)
    (ha : (s.answer n).outcome? = some r) (hm : ∀ N ∈ maxSteps, n < max N 1) (limit : Nat) :
    stepFrom maxSteps limit "" s = if n < limit then some (closing (shown s n) r) else none := by
  split
  · rename_i hlt
    obtain ⟨l, rfl⟩ := Nat.exists_eq_add_of_lt hlt
    rw [Nat.add_assoc, stepFrom_after _ hs hn hm, stepFrom_closing _ ha]
  · rename_i hle
    have hbefore := stepFrom_after maxSteps hs (fun j hj => hn j (by omega))
      (fun N hN => lt_of_le_of_lt (Nat.not_lt.mp hle) (hm N hN)) 0
    rw [← Nat.add_zero limit, hbefore]
    rfl

/-! ## The command -/

theorem step_toUTF8 {source : String} {t : Tree} (ht : Tree.parse source = .ok t)
    (maxSteps : Option Nat) (limit : Nat) :
    step maxSteps (some source.toUTF8) limit = stepFrom maxSteps limit "" (.start t .new ∅) := by
  have hread : String.fromUTF8? source.toUTF8 = some source := dif_pos source.isValidUTF8
  simp only [step, readProgram, decode, hread, ht, bind, Except.bind]

theorem step_ended {source : String} {t : Tree} (ht : Tree.parse source = .ok t)
    (hn : ∀ j < n, ∃ c v, (Stepper.start t .new ∅).answer j = .suspended c v)
    (ha : ((Stepper.start t .new ∅).answer n).outcome? = some r) (hm : n < max N 1)
    {limit : Nat} (hlimit : max N 1 ≤ limit) :
    (∀ l, step (some N) (some source.toUTF8) l = step none (some source.toUTF8) l) ∧
      step (some N) (some source.toUTF8) limit =
        some (closing (shown (.start t .new ∅) n) r) := by
  have hlimited := stepFrom_ended (some N) rfl hn ha (by rintro M ⟨⟩; exact hm)
  have hunlimited := stepFrom_ended none rfl hn ha (by simp)
  simp only [step_toUTF8 ht]
  exact ⟨fun l => (hlimited l).trans (hunlimited l).symm,
    (hlimited limit).trans (if_pos (by omega))⟩

/-- **Stepping with a limit** ends behind the lines for as many values of nodes as are answered and
allowed: with a failure if there are as many as that, and as without a limit if there are fewer. -/
theorem step_limited {source : String} {t : Tree} (ht : Tree.parse source = .ok t) :
    let s := Stepper.start t .new ∅
    let file := some source.toUTF8
    let k := s.pauseCount
    (∀ j : ℕ, (j : ℕ∞) < k ↔ ∃ c v, s.answer j = .suspended c v) ∧
    (shown s 0 = [] ∧ ∀ j c v, s.answer j = .suspended c v → shown s (j + 1) = shown s j ++
      ("step " ++ (j + 1).repr ++ ": " ++ c.id.text ++ " " ++ c.text ++ " => " ++ v.text) ::
        (s.after (j + 1)).snapshot.frames.map fun f => "    " ++ f.text) ∧
    ∀ N limit : ℕ, max N 1 ≤ limit → ∃ n : ℕ, (n : ℕ∞) = min k (max N 1 : ℕ) ∧
      ((max N 1 : ℕ) ≤ k →
        step (some N) file limit = some ⟨1, printed (shown s n),
          "Error: " ++ ("Step limit of " ++ N.repr ++ " reached before evaluation finished") ++
            "\n"⟩ ∧
          ∀ line ∈ textLines (printed (shown s n)), ¬ "done:".toList <+: line) ∧
      (k < (max N 1 : ℕ) →
        (∀ l, step (some N) file l = step none file l) ∧
        ((∃ v, s.answer n = .done v ∧ step (some N) file limit =
            some ⟨0, printed (shown s n ++ ["done: " ++ v.text]), ""⟩) ∨
          ∃ f, f.cause ≠ .halted ∧ s.answer n = .failed f ∧ step (some N) file limit =
            some ⟨1, printed (shown s n), "Error: " ++ f.message ++ "\n"⟩)) := by
  intro s file k
  have hfresh : s.machine.Behind none := .fresh rfl rfl
  refine ⟨Stepper.lt_pauseCount hfresh, ⟨rfl, fun j c v hans => ?_⟩, fun N limit hlimit => ?_⟩
  · rw [shown_succ, hans, Answer.lines]
  rcases le_or_gt ((max N 1 : ℕ) : ℕ∞) k with hle | hlt
  · refine ⟨max N 1, (min_eq_right hle).symm, fun _ => ?_, fun h => absurd hle (not_le.mpr h)⟩
    have hn := Stepper.pauses_of_le hfresh hle
    rw [step_toUTF8 ht]
    exact ⟨stepFrom_stopped rfl hlimit hn, not_done_of_mem_textLines (Tree.tidy_start ht ∅)⟩
  · obtain ⟨n, hn⟩ := ENat.ne_top_iff_exists.mp (ne_top_of_lt hlt)
    have hbefore := Stepper.pauses_of_le hfresh hn.le
    have hnmax : n < max N 1 := by
      rw [← hn] at hlt
      exact Nat.cast_lt.mp hlt
    refine ⟨n, hn.trans (min_eq_left hlt.le).symm, fun h => absurd hlt (not_lt.mpr h), fun _ => ?_⟩
    rcases Stepper.answer_of_pauses hfresh hbefore with hans | ⟨v, hans⟩ | ⟨f, hf, hans⟩
    · exact absurd ((Stepper.lt_pauseCount hfresh n).mpr hans) (hn ▸ lt_irrefl _)
    · obtain ⟨hsame, hprinted⟩ :=
        step_ended ht hbefore (congrArg Answer.outcome? hans) hnmax hlimit
      exact ⟨hsame, .inl ⟨v, hans, hprinted⟩⟩
    · obtain ⟨hsame, hprinted⟩ :=
        step_ended ht hbefore (congrArg Answer.outcome? hans) hnmax hlimit
      exact ⟨hsame, .inr ⟨f, hf, hans, hprinted⟩⟩

/-- The program `()` makes two steps. With two steps allowed it is given up, and with three it is
not. -/
theorem step_limited_empty : ∃ t : Tree, Tree.parse "()" = .ok t ∧
    let steps := "step 1: #1 () => ()\n    [library] * + - / <\n    [global]\n" ++
      "step 2: #0 (()) => (())\n    [library] * + - / <\n    [global]\n"
    (Stepper.start t .new ∅).pauseCount = 2 ∧
    step (some 2) (some "()".toUTF8) 2 =
      some ⟨1, steps, "Error: Step limit of 2 reached before evaluation finished\n"⟩ ∧
    step (some 3) (some "()".toUTF8) 3 = some ⟨0, steps ++ "done: (())\n", ""⟩ := by
  have hends : ((Tree.parse "()").toOption.bind fun t =>
      ((Stepper.start t .new ∅).answer 1).node?.bind fun _ =>
        ((Stepper.start t .new ∅).answer 2).outcome?.bind fun r => r.toOption.map fun v =>
          (printed (shown (Stepper.start t .new ∅) 2), v.text)) =
      some ("step 1: #1 () => ()\n    [library] * + - / <\n    [global]\n" ++
        "step 2: #0 (()) => (())\n    [library] * + - / <\n    [global]\n", "(())") := by
    cbv
  obtain ⟨t, ht, hends⟩ := Option.bind_eq_some_iff.mp hends
  obtain ⟨c, hc, hends⟩ := Option.bind_eq_some_iff.mp hends
  obtain ⟨r, hr, hends⟩ := Option.bind_eq_some_iff.mp hends
  obtain ⟨w, hw, hends⟩ := Option.map_eq_some_iff.mp hends
  obtain ⟨hshown, hvalue⟩ := Prod.mk.inj hends
  have ht := eq_ok_of_toOption ht
  obtain ⟨-, -, hlimited⟩ := step_limited ht
  generalize hs : Stepper.start t .new ∅ = s at hc hr hshown hlimited
  have hone : ∃ c v, s.answer 1 = .suspended c v := by
    cases hans : s.answer 1 <;> simp [hans, Answer.node?] at hc ⊢
  have htwo : s.answer 2 = .done w := by
    obtain rfl := eq_ok_of_toOption hw
    cases hans : s.answer 2 <;> simp [hans, Answer.outcome?] at hr ⊢
    exact hr
  have hfresh : s.machine.Behind none := hs ▸ .fresh rfl rfl
  have hcount : s.pauseCount = 2 :=
    Stepper.pauseCount_eq hfresh
      (fun j hj => Stepper.suspended_of_le hfresh (Nat.le_of_lt_succ hj) hone) (by simp [htwo])
  obtain ⟨n, hn, hstopped, -⟩ := hlimited 2 2 (by decide)
  obtain ⟨m, hm, -, hended⟩ := hlimited 3 3 (by decide)
  rw [hcount] at hn hm hstopped hended
  obtain rfl : n = 2 := by exact_mod_cast hn.trans (min_eq_left (by decide))
  obtain rfl : m = 2 := by exact_mod_cast hm.trans (min_eq_left (by decide))
  have hfailure := (hstopped (by decide)).1
  obtain ⟨-, ⟨v, hv, hsuccess⟩ | ⟨f, -, hf, -⟩⟩ := hended (by decide)
  · obtain rfl := Answer.done.inj (htwo.symm.trans hv)
    rw [printed_append, hvalue] at hsuccess
    rw [hshown] at hfailure hsuccess
    exact ⟨t, ht, hs ▸ hcount, hfailure, hsuccess⟩
  · cases htwo.symm.trans hf

end CommandLine

end StepLisp
