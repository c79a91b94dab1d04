import StepLisp.Session.Workbench
import StepLisp.Proofs.Agreement
import StepLisp.Proofs.Overheard

/-!
# What is done with a workbench

Everything that can be done with sessions, programs and steppers, as a list of acts, one after the
other. Whatever is done, it comes to one of a few things: a session is opened, something is added
while all heaps and results stay as they are, one machine goes on, or a name is defined.

* `Workbench.Act`, `Workbench.perform` and `Workbench.performAll`;
* `Workbench.Reachable`, the states that a workbench can get into, also in the midst of an advance;
* `Workbench.answers`, what the steppers answer meanwhile;
* `eq_or_of_getElem?_set` and `eq_or_of_getElem?_push`, an array that is changed in one place;
* `Workbench.Moved`, what an act comes to, with **`Workbench.moved`**: there is nothing else.
-/

namespace StepLisp

/-- The session has other numbers left or knows other nodes, and is the same but for that. -/
structure Session.Alike (s s' : Session) : Prop where
  heap : s'.heap = s.heap
  library : s'.library = s.library
  global : s'.global = s.global

theorem Session.Alike.refl (s : Session) : s.Alike s := ⟨rfl, rfl, rfl⟩

theorem Session.Alike.later {s s' : Session} (hs : s.Alike s') : s.Later s' :=
  ⟨hs.library, hs.global, hs.heap ▸ .refl s.heap⟩

/-- The answer at the end of a program. -/
def Answer.ofOutcome : Except Fault Value → Answer
  | .ok v => .done v
  | .error f => .failed f

namespace Workbench

open Machine

/-! ## Acts -/

/-- One thing that is done with a workbench. -/
inductive Act where
  | newSession
  | parse (session : Nat) (source : String)
  | parseFresh (source : String)
  /-- A program is added that was read elsewhere. -/
  | program (t : Tree)
  | allocate (session : Nat)
  | start (tree session : Nat)
  /-- One change of a stepper that is being advanced, whatever it has heard of. -/
  | change (stepper : Nat) (heard : List String)
  | advance (stepper : Nat)
  | run (stepper limit : Nat)
  | evaluate (tree session depth : Nat)
  | define (session : Nat) (f : FrameId) (x : String) (v : Value)
  | takeHeard (stepper : Nat)

/-- The stepper that it is done with. -/
def Act.stepper? : Act → Option Nat
  | .change k _ => some k
  | .advance k => some k
  | .run k _ => some k
  | .takeHeard k => some k
  | _ => none

/-- Does one thing; nothing where there is no such program, session or stepper, or where a run or an
evaluation comes to no end. -/
def perform (w : Workbench) : Act → Workbench
  | .newSession => w.newSession.2
  | .parse session source => (w.parse session source).2
  | .parseFresh source => (w.parseFresh source).2
  | .program t => { w with trees := w.trees.push t }
  | .allocate session => (w.allocate session).2
  | .start tree session =>
    if tree < w.trees.size ∧ session < w.sessions.size then (w.start tree session).2 else w
  | .change k heard => ((w.stepper? k).map fun s => w.put k s.change heard).getD w
  | .advance k => ((w.advance k).map (·.2)).getD w
  | .run k limit => ((w.run k limit).map (·.2)).getD w
  | .evaluate tree session depth => ((w.evaluate tree session depth).map (·.2)).getD w
  | .define session f x v => w.define session f x v
  | .takeHeard k => (w.takeHeard k).2

/-- Does one thing after the other. -/
def performAll (w : Workbench) (acts : List Act) : Workbench := acts.foldl perform w

theorem performAll_append (w : Workbench) (acts more : List Act) :
    w.performAll (acts ++ more) = (w.performAll acts).performAll more := List.foldl_append

theorem performAll_concat (w : Workbench) (acts : List Act) (act : Act) :
    w.performAll (acts ++ [act]) = (w.performAll acts).perform act := w.performAll_append acts [act]

/-- What every act of some kind keeps, a list of such acts keeps. -/
theorem performAll_keeps {I : Workbench → Prop} {A : Act → Prop}
    (hstep : ∀ w act, A act → I w → I (w.perform act)) {w : Workbench} {acts : List Act}
    (hacts : ∀ act ∈ acts, A act) (hw : I w) : I (w.performAll acts) := by
  induction acts generalizing w with
  | nil => exact hw
  | cons act acts ih =>
    obtain ⟨hact, hacts⟩ := List.forall_mem_cons.mp hacts
    exact ih hacts (hstep w act hact hw)

/-- **The states of a workbench.** -/
def Reachable (w : Workbench) : Prop := ∃ acts, Workbench.new.performAll acts = w

/-- The answer to an act, with the number of its stepper; that of a run is its last one. -/
def answer? (w : Workbench) : Act → Option (Nat × Answer)
  | .advance k => (w.advance k).map fun a => (k, a.1)
  | .run k limit => (w.run k limit).map fun r => (k, .ofOutcome r.1)
  | _ => none

/-- The answers to some acts, in their order. -/
def answers (w : Workbench) : List Act → List (Nat × Answer)
  | [] => []
  | act :: acts => (w.answer? act).toList ++ (w.perform act).answers acts

/-- The answers of one stepper among those of several. -/
def answersOf (k : Nat) (log : List (Nat × Answer)) : List Answer :=
  (log.filter (·.1 = k)).map (·.2)

section AnswersOf

variable {j k : Nat} (a : Answer) (log more : List (Nat × Answer))

theorem answersOf_append (k : Nat) :
    answersOf k (log ++ more) = answersOf k log ++ answersOf k more := by
  simp [answersOf]

theorem answersOf_cons_self (k : Nat) : answersOf k ((k, a) :: log) = a :: answersOf k log := by
  simp [answersOf]

theorem answersOf_cons_of_ne (hj : j ≠ k) : answersOf k ((j, a) :: log) = answersOf k log := by
  simp [answersOf, hj]

end AnswersOf

/-! ## Arrays that are changed in one place -/

section Array

variable {α : Type} {a : Array α} {i j : Nat} {x y : α}

theorem eq_or_of_getElem?_set (h : (a.setIfInBounds i x)[j]? = some y) :
    (i = j ∧ i < a.size ∧ x = y) ∨ i ≠ j ∧ a[j]? = some y := by
  rw [Array.getElem?_setIfInBounds] at h
  split at h
  · split at h
    · exact .inl ⟨‹_›, ‹_›, Option.some.inj h⟩
    · cases h
  · exact .inr ⟨‹_›, h⟩

theorem eq_or_of_getElem?_push (h : (a.push x)[j]? = some y) :
    (j = a.size ∧ x = y) ∨ a[j]? = some y := by
  rw [Array.getElem?_push] at h
  split at h
  · exact .inl ⟨‹_›, Option.some.inj h⟩
  · exact .inr h

end Array

/-! ## What an act comes to -/

variable {w w' : Workbench} {act : Act} {k : Nat} {s s' : Stepper}

theorem stepper?_eq_some :
    w.stepper? k = some s ↔ ∃ b t session, w.steppers[k]? = some b ∧ w.trees[b.tree]? = some t ∧
      w.sessions[b.session]? = some session ∧ s = ⟨t, session, w.results, b.machine⟩ := by
  unfold stepper?
  rcases w.steppers[k]? with _ | b
  · simp
  · rcases ht : w.trees[b.tree]? with _ | t
    · simp [ht]
    · rcases hs : w.sessions[b.session]? with _ | session
      · simp [ht, hs]
      · simp [ht, hs, eq_comm]

theorem advance_eq_some {a : Answer} : w.advance k = some (a, w') ↔
    ∃ c s, w.steppers[k]? = some c ∧ w.stepper? k = some s ∧ a = s.advance.answer ∧
      w' = w.put k s.advance.stepper (listen c.heard s.advance.events s.advance.stepper) := by
  rw [advance]
  rcases w.steppers[k]? with _ | c
  · simp
  · rcases w.stepper? k with _ | s <;> simp [eq_comm]

/-- The sessions are those that there were. -/
structure AllAlike (a a' : Array Session) : Prop where
  size : a'.size = a.size
  alike : ∀ (i : Nat) (s' : Session), a'[i]? = some s' → ∃ s, a[i]? = some s ∧ s.Alike s'

theorem getD_of_eq_some {a : Array Session} {i : Nat} {s : Session} (hs : a[i]? = some s) :
    a.getD i .new = s := by
  rw [Array.getD_eq_getD_getElem?, hs, Option.getD_some]

theorem AllAlike.refl (a : Array Session) : AllAlike a a := ⟨rfl, fun _ s hs => ⟨s, hs, .refl s⟩⟩

theorem AllAlike.set {a : Array Session} {i : Nat} {s : Session} (hs : (a.getD i .new).Alike s) :
    AllAlike a (a.setIfInBounds i s) := by
  refine ⟨Array.size_setIfInBounds, fun j s' hj => ?_⟩
  rcases eq_or_of_getElem?_set hj with ⟨rfl, hi, rfl⟩ | ⟨-, hj⟩
  · have hold := Array.getElem?_eq_getElem hi
    rw [getD_of_eq_some hold] at hs
    exact ⟨a[i], hold, hs⟩
  · exact ⟨s', hj, .refl s'⟩

/-- The stepper `b` was put away before, whatever it heard of then, or it is at its start. -/
inductive Parks (w : Workbench) (act : Act) (k : Nat) (b : Parked) : Prop where
  | kept {b₀ : Parked} (hb : w.steppers[k]? = some b₀) (htree : b.tree = b₀.tree)
      (hsession : b.session = b₀.session) (hmachine : b.machine = b₀.machine)
  | started {t : Tree} {s : Session} (hact : act.stepper? = none) (hk : k = w.steppers.size)
      (ht : w.trees[b.tree]? = some t) (hs : w.sessions[b.session]? = some s)
      (hmachine : b.machine = .start t.root s.library s.global)

/-- No machine goes on: a program or a stepper may be added. -/
structure Kept (w : Workbench) (act : Act) (w' : Workbench) : Prop where
  trees : w'.trees = w.trees ∨ ∃ t, w'.trees = w.trees.push t ∧
    (act = .program t ∨ ∃ first tokens, (Tree.ofTokens w.trees.size first tokens).outcome = .ok t)
  sessions : AllAlike w.sessions w'.sessions
  steppers : ∀ (k : Nat) (b : Parked), w'.steppers[k]? = some b → w.Parks act k b
  size : w.steppers.size ≤ w'.steppers.size
  results : w'.results = w.results
  /-- Nothing is added if it is done with a stepper. -/
  rests : ∀ k, act.stepper? = some k → w'.sessions = w.sessions ∧ w'.trees = w.trees

/-- **What an act comes to.** -/
inductive Moved (w : Workbench) : Act → Workbench → Prop where
  | opened : Moved w .newSession w.newSession.2
  | kept {act : Act} {w' : Workbench} (hkept : w.Kept act w') : Moved w act w'
  | goes {act : Act} {k : Nat} {s s' : Stepper} {es : List Event} (hact : act.stepper? = some k)
      (hk : w.stepper? k = some s) (hg : s.Goes es s') (heard : List String) :
      Moved w act (w.put k s' heard)
  | evaluated {act : Act} {i : Nat} {s : Session} {t : Tree} {es : List Event} {h' : Heap}
      {m' : Machine} (hact : act.stepper? = none) (hs : w.sessions[i]? = some s)
      (ht : t ∈ w.trees) (hg : (Machine.start t.root s.library s.global).Goes s.heap es h' m') :
      Moved w act
        { w with
          sessions := w.sessions.setIfInBounds i { s with heap := h' }
          results := w.results.recordAll (suspensions es).reverse }
  | defined (i : Nat) (f : FrameId) (x : String) (v : Value) :
      Moved w (.define i f x v) (w.define i f x v)

theorem parks_self (w : Workbench) (act : Act) (k : Nat) (b : Parked)
    (hb : w.steppers[k]? = some b) : w.Parks act k b := .kept hb rfl rfl rfl

theorem Kept.refl (w : Workbench) (act : Act) : w.Kept act w :=
  ⟨.inl rfl, .refl _, w.parks_self _, Nat.le_refl _, rfl, fun _ _ => ⟨rfl, rfl⟩⟩

/-- A program was added or a session has changed, but no stepper. -/
theorem Kept.of_stepper?_eq_none {trees : Array Tree} {sessions : Array Session}
    (hact : act.stepper? = none)
    (htrees : trees = w.trees ∨ ∃ t, trees = w.trees.push t ∧ (act = .program t ∨
      ∃ first tokens, (Tree.ofTokens w.trees.size first tokens).outcome = .ok t))
    (hsessions : AllAlike w.sessions sessions) :
    w.Kept act { w with trees := trees, sessions := sessions } where
  trees := htrees
  sessions := hsessions
  steppers := w.parks_self act
  size := Nat.le_refl _
  results := rfl
  rests := fun k hk => by
    rw [hact] at hk
    cases hk

theorem kept_start {tree session : Nat} (ht : tree < w.trees.size)
    (hs : session < w.sessions.size) :
    w.Kept (.start tree session) (w.start tree session).2 := by
  have htree := Array.getElem?_eq_getElem ht
  have hsession := Array.getElem?_eq_getElem hs
  refine ⟨.inl rfl, .set ⟨rfl, rfl, rfl⟩, fun k b hb => ?_, ?_, rfl, nofun⟩
  · rcases eq_or_of_getElem?_push hb with ⟨hk, rfl⟩ | hb
    · refine .started rfl hk htree hsession ?_
      dsimp only
      rw [getD_of_eq_some hsession, Array.getD_eq_getD_getElem?, htree]
      rfl
    · exact w.parks_self _ k b hb
  · rw [Workbench.start, Array.size_push]
    exact Nat.le_succ _

theorem kept_takeHeard (w : Workbench) (k : Nat) :
    w.Kept (.takeHeard k) (w.takeHeard k).2 := by
  rw [takeHeard]
  cases hb : w.steppers[k]? with
  | none => exact .refl w _
  | some b =>
    refine ⟨.inl rfl, .refl _, fun j c hc => ?_, Nat.le_of_eq Array.size_setIfInBounds.symm,
      rfl, fun _ _ => ⟨rfl, rfl⟩⟩
    rcases eq_or_of_getElem?_set hc with ⟨rfl, -, rfl⟩ | ⟨-, hc⟩
    · exact .kept hb rfl rfl rfl
    · exact w.parks_self _ j c hc

theorem moved_run {limit : Nat} {outcome : Except Fault Value}
    (hr : w.run k limit = some (outcome, w')) : w.Moved (.run k limit) w' := by
  obtain ⟨b, hb, hr⟩ := Option.bind_eq_some_iff.mp hr
  obtain ⟨s, hk, hr⟩ := Option.bind_eq_some_iff.mp hr
  obtain ⟨⟨outcome, heard, s'⟩, hf, hr⟩ := Option.bind_eq_some_iff.mp hr
  cases hr
  obtain ⟨es, hg⟩ := Stepper.goes_follow hf
  exact .goes rfl hk hg heard

theorem moved_evaluate {tree session depth : Nat} {outcome : Except Fault Value}
    (he : w.evaluate tree session depth = some (outcome, w')) :
    w.Moved (.evaluate tree session depth) w' := by
  obtain ⟨t, ht, he⟩ := Option.bind_eq_some_iff.mp he
  obtain ⟨s, hs, he⟩ := Option.bind_eq_some_iff.mp he
  obtain ⟨⟨outcome, s', r⟩, he', he⟩ := Option.bind_eq_some_iff.mp he
  cases he
  obtain ⟨trail, htrail, rfl, rfl⟩ := Stepper.evaluate_eq_some.mp he'
  obtain ⟨k, es, m₁, a, m', hr, hstop, -, hwritten⟩ := Stepper.stops_of_evaluate htrail
  rw [← hwritten]
  exact .evaluated rfl hs (Array.mem_of_getElem? ht) ⟨k, m₁, hr, .inr ⟨a, hstop⟩⟩

/-- **An act comes to nothing else.** -/
theorem moved (w : Workbench) (act : Act) : w.Moved act (w.perform act) := by
  have hrefl := Kept.refl w act
  cases act with
  | newSession => exact .opened
  | parse i source =>
    have hsessions : AllAlike w.sessions (w.sessions.setIfInBounds i _) :=
      .set (s := ((w.sessions.getD i .new).parse w.trees.size source).2) ⟨rfl, rfl, rfl⟩
    rw [perform, Workbench.parse]
    dsimp only
    rcases hr : ((w.sessions.getD i .new).parse w.trees.size source).1 with e | t <;> dsimp only
    · exact .kept (.of_stepper?_eq_none rfl (.inl rfl) hsessions)
    · exact .kept (.of_stepper?_eq_none rfl (.inr ⟨t, rfl, .inr ⟨_, _, hr⟩⟩) hsessions)
  | parseFresh source =>
    rw [perform, Workbench.parseFresh]
    rcases hr : (Tree.ofSource w.trees.size ⟨0⟩ source).outcome with e | t <;> dsimp only
    · exact .kept hrefl
    · exact .kept (.of_stepper?_eq_none rfl (.inr ⟨t, rfl, .inr ⟨_, _, hr⟩⟩) (.refl _))
  | program t => exact .kept (.of_stepper?_eq_none rfl (.inr ⟨t, rfl, .inl rfl⟩) (.refl _))
  | allocate i => exact .kept (.of_stepper?_eq_none rfl (.inl rfl) (.set ⟨rfl, rfl, rfl⟩))
  | start tree session =>
    rw [perform]
    split
    · exact .kept (kept_start (And.left ‹_›) (And.right ‹_›))
    · exact .kept hrefl
  | change k heard =>
    rw [perform]
    rcases hk : w.stepper? k with _ | s
    · exact .kept hrefl
    · obtain ⟨es, hg⟩ := s.goes_change
      exact .goes rfl hk hg heard
  | advance k =>
    rw [perform]
    rcases ha : w.advance k with _ | ⟨a, w'⟩
    · exact .kept hrefl
    · obtain ⟨c, s, -, hk, -, rfl⟩ := advance_eq_some.mp ha
      exact .goes rfl hk s.goes_advance _
  | run k limit =>
    rw [perform]
    rcases hr : w.run k limit with _ | ⟨outcome, w'⟩
    · exact .kept hrefl
    · exact moved_run hr
  | evaluate tree session depth =>
    rw [perform]
    rcases he : w.evaluate tree session depth with _ | ⟨outcome, w'⟩
    · exact .kept hrefl
    · exact moved_evaluate he
  | define i f x v => exact .defined i f x v
  | takeHeard k => exact .kept (kept_takeHeard w k)

end Workbench

end StepLisp
