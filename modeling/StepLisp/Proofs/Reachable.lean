import StepLisp.Proofs.Deeds

/-!
# The states of a workbench

What is done with one session, program or stepper leaves the others as they are, except that the
steppers of a session share its heap. So what lasts in one stepper, whatever is done in its session,
lasts in all of them.

* `Workbench.Later` and `Workbench.GoesOn`, sessions and programs at a later time, with
  `Moved.goesOn`; `Reachable.grown`: every session has gone on since it was new;
* `Workbench.Steppers`, a property of all steppers, with one lemma for each thing that an act can
  come to, and **`Reachable.lasting`**: what lasts holds of all steppers in every state;
* so they were all started once, `Reachable.started`, and are coherent, `Reachable.coheres`;
* **`Workbench.frames_coherent`**: the listing of the active frames.
-/

namespace StepLisp

namespace Workbench

open Machine

variable {w w' : Workbench} {act : Act} {k : Nat} {s s' : Stepper}

/-! ## Sessions at a later time -/

/-- Every session is there at a later time. -/
def Later (a a' : Array Session) : Prop :=
  ∀ (i : Nat) (s : Session), a[i]? = some s → ∃ s', a'[i]? = some s' ∧ s.Later s'

section Later

variable {a a' : Array Session}

theorem Later.of_size_eq (hl : Later a a') (hsize : a'.size = a.size) {i : Nat} {s' : Session}
    (hs' : a'[i]? = some s') : ∃ s, a[i]? = some s ∧ s.Later s' := by
  obtain ⟨hi, -⟩ := Array.getElem?_eq_some_iff.mp hs'
  have hs := Array.getElem?_eq_getElem (hsize ▸ hi)
  obtain ⟨s₁, hs₁, hl⟩ := hl i _ hs
  cases hs'.symm.trans hs₁
  exact ⟨_, hs, hl⟩

theorem AllAlike.later (h : AllAlike a a') : Later a a' := by
  intro i s hs
  obtain ⟨hi, -⟩ := Array.getElem?_eq_some_iff.mp hs
  have hs' := Array.getElem?_eq_getElem (h.size ▸ hi)
  obtain ⟨s₀, hs₀, halike⟩ := h.alike i _ hs'
  cases hs.symm.trans hs₀
  exact ⟨_, hs', halike.later⟩

theorem later_push (a : Array Session) (new : Session) : Later a (a.push new) := by
  intro i s hs
  obtain ⟨hi, hs⟩ := Array.getElem?_eq_some_iff.mp hs
  exact ⟨s, by rw [Array.getElem?_push_lt hi, hs], .refl s⟩

theorem later_set {i : Nat} {s new : Session} (hs : a[i]? = some s) (hl : s.Later new) :
    Later a (a.setIfInBounds i new) := by
  intro j s' hs'
  by_cases hij : i = j
  · subst hij
    cases hs.symm.trans hs'
    refine ⟨new, ?_, hl⟩
    rw [Array.getElem?_setIfInBounds_self, if_pos (Array.getElem?_eq_some_iff.mp hs).1]
  · exact ⟨s', (Array.getElem?_setIfInBounds_ne hij).trans hs', .refl s'⟩

theorem later_modify {f : Session → Session} (i : Nat) (hf : ∀ s : Session, s.Later (f s)) :
    Later a (a.modify i f) := by
  intro j s hs
  rw [Array.getElem?_modify, hs]
  by_cases hij : i = j
  · exact ⟨f s, if_pos hij, hf s⟩
  · exact ⟨s, if_neg hij, .refl s⟩

end Later

/-- All programs stay, and all sessions go on. -/
structure GoesOn (w w' : Workbench) : Prop where
  trees : ∀ (i : Nat) (t : Tree), w.trees[i]? = some t → w'.trees[i]? = some t
  sessions : Later w.sessions w'.sessions

theorem goesOn_sessions (ht : w'.trees = w.trees) (hl : Later w.sessions w'.sessions) :
    GoesOn w w' := by
  refine ⟨fun i t hi => ?_, hl⟩
  rwa [ht]

theorem Kept.goesOn (hm : w.Kept act w') : GoesOn w w' := by
  refine ⟨fun i t ht => ?_, hm.sessions.later⟩
  rcases hm.trees with htrees | ⟨u, htrees, -⟩
  · rwa [htrees]
  · obtain ⟨hi, ht⟩ := Array.getElem?_eq_some_iff.mp ht
    rw [htrees, Array.getElem?_push_lt hi, ht]

theorem goesOn_put {es : List Event} (hk : w.stepper? k = some s) (hg : s.Goes es s')
    (heard : List String) : GoesOn w (w.put k s' heard) := by
  obtain ⟨b, t, session, hb, ht, hsession, rfl⟩ := stepper?_eq_some.mp hk
  rw [Workbench.put, hb]
  exact goesOn_sessions rfl (later_set hsession hg.later.2)

/-- **Whatever is done**, all programs stay and all sessions go on. -/
theorem Moved.goesOn (hm : w.Moved act w') : GoesOn w w' := by
  cases hm with
  | opened => exact goesOn_sessions rfl (later_push _ _)
  | kept hkept => exact hkept.goesOn
  | goes hact hk hg heard => exact goesOn_put hk hg heard
  | evaluated hact hs ht hg => exact goesOn_sessions rfl (later_set hs ⟨rfl, rfl, hg.grows⟩)
  | defined i f x v =>
    exact goesOn_sessions rfl (later_modify i fun s => ⟨rfl, rfl, .define s.heap f x v⟩)

theorem trees_put (w : Workbench) (k : Nat) (s : Stepper) (heard : List String) :
    (w.put k s heard).trees = w.trees := by
  rw [Workbench.put]
  split <;> rfl

theorem Moved.trees (hm : w.Moved act w') : w'.trees = w.trees ∨
    ∃ t, w'.trees = w.trees.push t ∧ (act = .program t ∨
      ∃ first tokens, (Tree.ofTokens w.trees.size first tokens).outcome = .ok t) := by
  cases hm with
  | opened => exact .inl rfl
  | kept hkept => exact hkept.trees
  | goes _ hk hg heard => exact .inl (trees_put w _ _ heard)
  | evaluated => exact .inl rfl
  | defined => exact .inl rfl

theorem size_put (w : Workbench) (k : Nat) (s : Stepper) (heard : List String) :
    (w.put k s heard).sessions.size = w.sessions.size := by
  rw [Workbench.put]
  split
  · rfl
  · exact Array.size_setIfInBounds

theorem Moved.size (hm : w.Moved act w') :
    w'.sessions.size = w.sessions.size ∨ act = .newSession ∧ w' = w.newSession.2 := by
  cases hm with
  | opened => exact .inr ⟨rfl, rfl⟩
  | kept hkept => exact .inl hkept.sessions.size
  | goes _ hk hg heard => exact .inl (size_put w _ _ heard)
  | evaluated _ hs ht hg => exact .inl Array.size_setIfInBounds
  | defined i f x v => exact .inl Array.size_modify

theorem of_new {i : Nat} {session : Session} (hs : Workbench.new.sessions[i]? = some session) :
    i = 0 ∧ session = .new := by
  obtain ⟨hi, hs⟩ := Array.getElem?_eq_some_iff.mp hs
  obtain rfl : i = 0 := Nat.lt_one_iff.mp hi
  exact ⟨rfl, hs.symm⟩

theorem of_newSession {i : Nat} {session : Session}
    (hs : w.newSession.2.sessions[i]? = some session) :
    (i = w.sessions.size ∧ session = .numbered i) ∨ w.sessions[i]? = some session := by
  rcases eq_or_of_getElem?_push hs with ⟨rfl, rfl⟩ | hs
  · exact .inl ⟨rfl, rfl⟩
  · exact .inr hs

theorem Moved.session (hm : w.Moved act w') {i : Nat} {session : Session}
    (hs : w'.sessions[i]? = some session) :
    (∃ s, w.sessions[i]? = some s ∧ s.Later session) ∨ session = .numbered i := by
  rcases hm.size with hsize | ⟨-, rfl⟩
  · exact .inl (hm.goesOn.sessions.of_size_eq hsize hs)
  · rcases of_newSession hs with ⟨-, hs⟩ | hs
    · exact .inr hs
    · exact .inl ⟨session, hs, .refl session⟩

/-- What holds of a new workbench, and stays whatever is done, holds of every state. -/
theorem Reachable.invariant {I : Workbench → Prop} (hnew : I .new)
    (hmoved : ∀ {w w' : Workbench} {act : Act}, I w → w.Moved act w' → I w')
    (hw : w.Reachable) : I w := by
  obtain ⟨acts, rfl⟩ := hw
  exact performAll_keeps (A := fun _ => True) (fun w act _ hw => hmoved hw (w.moved act))
    (fun _ _ => trivial) hnew

/-- Every session has gone on since it was new. -/
def Grown (w : Workbench) : Prop :=
  ∀ (i : Nat) (session : Session), w.sessions[i]? = some session →
    (Session.numbered i).Later session

theorem Reachable.grown (hw : w.Reachable) : w.Grown := by
  refine hw.invariant (I := Grown) (fun i session hs => ?_) fun ih hm i session hs => ?_
  · obtain ⟨rfl, rfl⟩ := of_new hs
    exact .refl _
  · rcases hm.session hs with ⟨s₀, hs₀, hl⟩ | rfl
    · exact (ih i s₀ hs₀).trans hl
    · exact .refl _

theorem stepper?_put (hk : w.stepper? k = some s) (h' : Heap) (m' : Machine) (r : Results)
    (heard : List String) :
    (w.put k (s.moved h' m' r) heard).stepper? k = some (s.moved h' m' r) := by
  obtain ⟨b, t, session, hb, ht, hsession, rfl⟩ := stepper?_eq_some.mp hk
  refine stepper?_eq_some.mpr ⟨{ b with machine := m', heard }, t, { session with heap := h' }, ?_⟩
  rw [put, hb]
  dsimp only
  rw [Array.getElem?_setIfInBounds_self, if_pos (Array.getElem?_eq_some_iff.mp hb).1,
    Array.getElem?_setIfInBounds_self, if_pos (Array.getElem?_eq_some_iff.mp hsession).1]
  exact ⟨rfl, ht, rfl, rfl⟩

theorem Reachable.perform (hw : w.Reachable) (act : Act) : (w.perform act).Reachable := by
  obtain ⟨acts, rfl⟩ := hw
  exact ⟨acts ++ [act], performAll_concat _ _ _⟩

theorem Reachable.runs {j : Nat} {es : List Event} {h' : Heap} {m' : Machine} (hw : w.Reachable)
    (hk : w.stepper? k = some s) (hr : Runs j s.session.heap s.machine es h' m') :
    ∃ (v : Workbench) (r : Results), v.Reachable ∧ v.stepper? k = some (s.moved h' m' r) := by
  generalize hh : s.session.heap = h at hr
  generalize hm : s.machine = m at hr
  induction hr generalizing w s with
  | refl =>
    subst hh hm
    exact ⟨w, s.results, hw, hk⟩
  | @step _ _ h₁ _ _ m₁ _ e _ hchange _ ih =>
    subst hh hm
    have hw₁ := hw.perform (.change k [])
    rw [Workbench.perform, hk, Option.map_some, Option.getD_some, Stepper.change_eq hchange] at hw₁
    have hk₁ := stepper?_put hk h₁ m₁ (s.results.follow e.toList) []
    obtain ⟨v, r, hv, hkv⟩ := ih hw₁ hk₁ rfl rfl
    exact ⟨v, r, hv, hkv⟩

/-! ## What lasts -/

section Lasting

open StepLisp.Stepper

/-- A stepper that is put away, with its program and its session, satisfies `Q`. -/
def ParkedAs (Q : Stepper → Prop) (w : Workbench) (b : Parked) : Prop :=
  ∃ t session, w.trees[b.tree]? = some t ∧ w.sessions[b.session]? = some session ∧
    Q ⟨t, session, w.results, b.machine⟩

/-- All steppers satisfy `Q`. -/
def Steppers (Q : Stepper → Prop) (w : Workbench) : Prop :=
  ∀ (k : Nat) (b : Parked), w.steppers[k]? = some b → ParkedAs Q w b

variable {Q : Stepper → Prop} {b : Parked} {es : List Event}

theorem ParkedAs.goesOn (hb : ParkedAs Q w b) (hQ : Lasting Q) (hg : GoesOn w w') :
    ParkedAs Q w' b := by
  obtain ⟨t, session, ht, hs, hb⟩ := hb
  obtain ⟨session', hs', hl⟩ := hg.sessions _ session hs
  exact ⟨t, session', hg.trees _ t ht, hs', hQ.overheard hb (Overheard.start.meanwhile hl _)⟩

namespace Steppers

theorem stepper (hw : w.Steppers Q) (hk : w.stepper? k = some s) : Q s := by
  obtain ⟨b, t, session, hb, ht, hs, rfl⟩ := stepper?_eq_some.mp hk
  obtain ⟨t', session', ht', hs', hQ⟩ := hw k b hb
  cases ht.symm.trans ht'
  cases hs.symm.trans hs'
  exact hQ

theorem goesOn (hw : w.Steppers Q) (hQ : Lasting Q) (hst : w'.steppers = w.steppers)
    (hg : GoesOn w w') : w'.Steppers Q := by
  intro k b hb
  rw [hst] at hb
  exact (hw k b hb).goesOn hQ hg

theorem kept (hw : w.Steppers Q) (hQ : Lasting Q) (hm : w.Kept act w') : w'.Steppers Q := by
  intro k b hb
  cases hm.steppers k b hb with
  | @kept b₀ hb₀ htree hsession hmachine =>
    have hold := (hw k b₀ hb₀).goesOn hQ hm.goesOn
    rwa [ParkedAs, ← htree, ← hsession, ← hmachine] at hold
  | @started t session hact hk ht hs hmachine =>
    obtain ⟨session', hs', hl⟩ := hm.sessions.later _ session hs
    refine ⟨t, session', hm.goesOn.trees _ t ht, hs', ?_⟩
    rw [hmachine]
    exact hQ.overheard (hQ.start t session w.results) (Overheard.start.meanwhile
      ⟨hl.library, hl.global, hl.heap⟩ _)

theorem put (hw : w.Steppers Q) (hQ : Lasting Q) (hk : w.stepper? k = some s)
    (hg : s.Goes es s') (heard : List String) : (w.put k s' heard).Steppers Q := by
  have hnext := hQ.overheard (hw.stepper hk) (.goes hg)
  have hgoes := goesOn_put hk hg heard
  obtain ⟨htree, -⟩ := hg.later
  obtain ⟨b, t, session, hb, ht, hsession, rfl⟩ := stepper?_eq_some.mp hk
  obtain rfl : s'.tree = t := htree
  rw [Workbench.put, hb] at hgoes ⊢
  intro j c hc
  rcases eq_or_of_getElem?_set hc with ⟨rfl, -, rfl⟩ | ⟨-, hc⟩
  · refine ⟨_, s'.session, ht, ?_, hnext⟩
    exact Array.getElem?_setIfInBounds_self.trans
      (if_pos (Array.getElem?_eq_some_iff.mp hsession).1)
  · exact (hw j c hc).goesOn hQ hgoes

theorem moved (hw : w.Steppers Q) (hQ : Lasting Q) (hm : w.Moved act w') : w'.Steppers Q := by
  have hgoes := hm.goesOn
  cases hm with
  | opened => exact hw.goesOn hQ rfl hgoes
  | kept hkept => exact hw.kept hQ hkept
  | goes hact hk hg heard => exact hw.put hQ hk hg heard
  | evaluated hact hs ht hg => exact hw.goesOn hQ rfl hgoes
  | defined i f x v => exact hw.goesOn hQ rfl hgoes

end Steppers

/-- **What lasts holds of every stepper**, in every state of a workbench. -/
theorem Reachable.lasting (hw : w.Reachable) (hQ : Lasting Q) : w.Steppers Q :=
  hw.invariant (fun _ _ hb => by cases hb) fun ih hm => ih.moved hQ hm

end Lasting

/-- **Every stepper was started once.** -/
theorem Reachable.started (hw : w.Reachable) (hk : w.stepper? k = some s) : s.Started :=
  (hw.lasting Stepper.lasting_started).stepper hk

/-! ## Coherence -/

/-- A stepper that is put away is coherent in its session. -/
def ParkedIn (sessions : Array Session) (b : Parked) : Prop :=
  ∃ s, sessions[b.session]? = some s ∧ b.machine.Coherent s.library s.global s.heap

/-- All steppers are coherent in their sessions. -/
def Coheres (w : Workbench) : Prop :=
  ∀ (k : Nat) (b : Parked), w.steppers[k]? = some b → ParkedIn w.sessions b

theorem Coheres.stepper (hw : w.Coheres) (hk : w.stepper? k = some s) : s.Coherent := by
  obtain ⟨b, t, session, hb, -, hs, rfl⟩ := stepper?_eq_some.mp hk
  obtain ⟨session', hs', hm⟩ := hw k b hb
  rw [hs] at hs'
  cases hs'
  exact hm

/-- **All steppers are coherent**, in every state of a workbench. -/
theorem Reachable.coheres (hw : w.Reachable) : w.Coheres := by
  intro k b hb
  obtain ⟨t, session, -, hs, hm⟩ := hw.lasting Stepper.lasting_coherent k b hb
  exact ⟨session, hs, hm⟩

/-- **The listing of the active frames**, in every state of a workbench, also in the midst of an
advance and after a fault: the library, the global frame and the calls under way, and a node is
evaluated in the frame that is listed last. -/
theorem frames_coherent (hw : w.Reachable) (hk : w.stepper? k = some s) :
    s.machine.Coherent s.session.library s.session.global s.session.heap ∧
    (∀ m' h' f, s.machine.transition s.session.heap = .proceed m' h' (some (.left f)) →
      s.machine.frames.frames = m'.frames.frames ++ [f]) ∧
    (s.machine.isDone → s.machine.frames.frames = [s.session.library, s.session.global]) := by
  have hs := hw.coheres.stepper hk
  refine ⟨hs, fun m' h' f ht => ?_, fun hdone => ?_⟩
  · exact hs.frames_left (change_of_proceed ht)
  · exact hs.frames_done hdone

/-- In the call that the program `((lambda (x) x) ())` consists of, its frame is listed third. -/
theorem frames_identityCall : ∃ (w : Workbench) (s : Stepper), w.Reachable ∧
    w.stepper? 0 = some s ∧ calls s.machine.pending = [⟨2⟩] ∧
    s.machine.frames.frames = [⟨0⟩, ⟨1⟩, ⟨2⟩] := by
  have hw : Reachable (start { Workbench.new with trees := #[.identityCall] } 0 0).2 :=
    ⟨[.program .identityCall, .start 0 0], rfl⟩
  have hrun : ∃ k es h' m', Runs k Session.new.heap
      (.start Tree.identityCall.root Session.new.library Session.new.global) es h' m' ∧
      calls m'.pending = [⟨2⟩] :=
    ⟨_, _, _, _, .step (.opened rfl (.application rfl)) <|
      .step (.opened rfl (.application rfl)) <| .step (.value rfl (.abstraction rfl)) <|
      .step (.suspend rfl rfl) <| .step (.collect rfl rfl rfl) <| .step (.value rfl (.empty rfl)) <|
      .step (.suspend rfl rfl) <| .step (.enter rfl rfl rfl rfl) .refl, rfl⟩
  obtain ⟨k, es, h', m', hr, hcalls⟩ := hrun
  obtain ⟨w, r, hw, hk⟩ := hw.runs (k := 0) (s := Stepper.start .identityCall .new ∅) rfl hr
  refine ⟨w, _, hw, hk, hcalls, ?_⟩
  have hlisted := (frames_coherent hw hk).1.listed
  rw [show calls (Stepper.moved _ h' m' r).machine.pending = [⟨2⟩] from hcalls] at hlisted
  exact hlisted

end Workbench

end StepLisp
