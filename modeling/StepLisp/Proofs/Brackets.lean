import StepLisp.Proofs.Episodes

/-!
# Frames as brackets

The frames that are entered and left are brackets among the events, and the calls that they belong
to can be read off the events next to them.

* `replay`, the frames that stand open after some events, with `Rests.replay`: these are the calls
  under way;
* `enteredFrames`, with `Machine.Fresh`: no frame is entered twice;
* `Calls`, a call is made after some events, and `LeavesWith`, its frame is left with its value;
* `Bracketed`, every frame among some events is entered for a call and left with its value, with
  `Whole.bracketed`, `Before.bracketed` and `Rests.bracketed`;
* **`Stepper.events_bracketed`**: this holds of all that is heard of a stepper.
-/

namespace StepLisp

open Episode

/-! ## Open frames -/

/-- The frames that stand open behind an event, the innermost first; nothing, if a frame is left
that is not the innermost. -/
def Event.replay (standing : List FrameId) : Event → Option (List FrameId)
  | .entered f => some (f :: standing)
  | .left f => if standing.head? = some f then some standing.tail else none
  | .suspended _ _ => some standing

/-- The frames that stand open behind some events. -/
def replay (standing : List FrameId) (es : List Event) : Option (List FrameId) :=
  es.foldlM Event.replay standing

theorem replay_append (standing : List FrameId) (es fs : List Event) :
    replay standing (es ++ fs) = (replay standing es).bind fun standing => replay standing fs :=
  List.foldlM_append

@[simp] theorem replay_entered (standing : List FrameId) (f : FrameId) :
    replay standing [Event.entered f] = some (f :: standing) := rfl

@[simp] theorem replay_left (standing : List FrameId) (f : FrameId) :
    replay (f :: standing) [Event.left f] = some standing := by
  simp [replay, Event.replay]

namespace Episode

variable {p : Episode} {parts : List Episode} {standing : List FrameId}

theorem replay_heard (h : ∀ p ∈ parts, ∀ standing, replay standing p.events = some standing)
    (standing : List FrameId) : replay standing (heard parts) = some standing := by
  induction parts with
  | nil => rfl
  | cons p parts ih =>
    obtain ⟨hp, hparts⟩ := List.forall_mem_cons.mp h
    rw [heard, List.flatMap_cons, replay_append, hp]
    exact ih hparts

/-- **An episode leaves the frames open that stood open before.** -/
theorem Whole.replay (hp : p.Whole) (standing : List FrameId) :
    StepLisp.replay standing p.events = some standing := by
  induction hp generalizing standing with
  | simple hf hs v => rfl
  | conditional _ _ _ ihc ihb =>
    rw [replay_append, replay_append, ihc, Option.bind_some, ihb]
    rfl
  | definition _ _ ih =>
    rw [replay_append, ih]
    rfl
  | application _ _ _ ih =>
    rw [replay_append, replay_heard ih]
    rfl
  | call f _ _ _ _ ihp ih =>
    rw [replay_append, replay_append, replay_append, replay_append, replay_heard ihp,
      Option.bind_some, replay_entered, Option.bind_some, ih, Option.bind_some, replay_left]
    rfl

theorem replay_whole (hparts : ∀ p ∈ parts, p.Whole) (standing : List FrameId) :
    StepLisp.replay standing (heard parts) = some standing :=
  replay_heard (fun p hp => (hparts p hp).replay) standing

end Episode

theorem Before.replay {root n : Node} {es : List Event} {pending : List Pending}
    (hb : Before root es n pending) : replay [] es = some (calls pending) := by
  induction hb with
  | root => rfl
  | condition _ _ ih => exact ih
  | taken _ _ hc ih =>
    rw [replay_append, ih]
    exact hc.replay _
  | defined _ _ ih => exact ih
  | part _ _ hp ih =>
    rw [replay_append, ih]
    exact replay_whole hp _
  | body f _ _ hp _ ih =>
    rw [replay_append, replay_append, ih, Option.bind_some, replay_whole hp]
    rfl

theorem Fault.Told.replay {f : Fault} {es : List Event} (hf : f.Told es)
    (standing : List FrameId) : StepLisp.replay standing es = some standing := by
  cases hf with
  | malformed => rfl
  | unbound => rfl
  | refused _ hparts => exact replay_whole hparts standing

/-- **The frames that stand open are those of the calls under way.** -/
theorem Machine.Rests.replay {m : Machine} {es : List Event} (hm : m.Rests es) :
    replay [] es = some (calls m.pending) := by
  cases hm with
  | evaluating hc hb => exact hb.replay
  | paused hc hb hw =>
    rw [replay_append, hb.replay]
    exact hw.replay _
  | finished hc hp hw =>
    rw [hp]
    exact hw.replay []
  | halted hc hp hb hf =>
    rw [replay_append, hb.replay, hp, calls_cons rfl]
    exact hf.replay _

/-! ## Frames are entered once -/

/-- The frame that is entered with an event. -/
def Event.entered? : Event → Option FrameId
  | .entered f => some f
  | _ => none

/-- The frames that are entered, in their order. -/
def enteredFrames (es : List Event) : List FrameId := es.filterMap Event.entered?

@[simp] theorem enteredFrames_append (es fs : List Event) :
    enteredFrames (es ++ fs) = enteredFrames es ++ enteredFrames fs := List.filterMap_append

@[simp] theorem mem_enteredFrames {f : FrameId} {es : List Event} :
    f ∈ enteredFrames es ↔ .entered f ∈ es := by
  simp only [enteredFrames, List.mem_filterMap]
  constructor
  · rintro ⟨e, he, hf⟩
    cases e with
    | entered g =>
      cases hf
      exact he
    | _ => cases hf
  · exact fun hf => ⟨_, hf, rfl⟩

theorem nodup_enteredFrames_append {es fs : List Event} :
    (enteredFrames (es ++ fs)).Nodup ↔ (enteredFrames es).Nodup ∧ (enteredFrames fs).Nodup ∧
      ∀ f, .entered f ∈ es → .entered f ∉ fs := by
  rw [enteredFrames_append, List.nodup_append]
  refine and_congr_right fun _ => and_congr_right fun _ => ?_
  simp only [mem_enteredFrames]
  exact ⟨fun h f hf hg => h f hf f hg rfl, fun h f hf g hg heq => h f hf (heq ▸ hg)⟩

namespace Machine

variable {h h' : Heap} {m m' : Machine} {e : Option Event} {es fs : List Event} {k : Nat}

/-- The frames that were entered are different ones of the heap. -/
structure Fresh (h : Heap) (es : List Event) : Prop where
  distinct : (enteredFrames es).Nodup
  created : ∀ f, .entered f ∈ es → ∃ frame, h.frame? f = some frame

namespace Fresh

theorem nil (h : Heap) : Fresh h [] := ⟨List.nodup_nil, nofun⟩

theorem grows (hes : Fresh h es) (hg : h.Grows h') : Fresh h' es := by
  refine ⟨hes.distinct, fun f hf => ?_⟩
  obtain ⟨frame, hframe⟩ := hes.created f hf
  obtain ⟨frame', hframe', -⟩ := hg f frame hframe
  exact ⟨frame', hframe'⟩

theorem append (hes : Fresh h es) (hfs : enteredFrames fs = []) : Fresh h (es ++ fs) := by
  refine ⟨?_, fun f hf => ?_⟩
  · rw [enteredFrames_append, hfs, List.append_nil]
    exact hes.distinct
  · rw [← mem_enteredFrames, enteredFrames_append, hfs, List.append_nil, mem_enteredFrames] at hf
    exact hes.created f hf

/-- **A frame that is entered is a new one.** -/
theorem change (hes : Fresh h es) (hchange : Change h m e h' m') : Fresh h' (es ++ e.toList) := by
  have hgrown := hes.grows hchange.grows
  cases hchange with
  | @enter v n vs args s rest c hc hp hn ha =>
    have hnew : (c.enter args h).2.frame? (c.enter args h).1 =
        some ⟨.call, some c.scope, c.bindings args⟩ := by
      rw [Closure.enter, Heap.frame?_allocate, if_pos rfl]
    have hfresh : .entered (c.enter args h).1 ∉ es := by
      intro hf
      obtain ⟨frame, hframe⟩ := hes.created _ hf
      rw [Closure.enter, Heap.frame?_fresh] at hframe
      cases hframe
    refine ⟨?_, fun f hf => ?_⟩
    · refine nodup_enteredFrames_append.mpr ⟨hes.distinct, List.nodup_singleton _, ?_⟩
      intro f hf hnew
      cases List.mem_singleton.mp hnew
      exact hfresh hf
    · rcases List.mem_append.mp hf with hf | hf
      · exact hgrown.created f hf
      · cases List.mem_singleton.mp hf
        exact ⟨_, hnew⟩
  | _ => exact hgrown.append rfl

theorem runs (hes : Fresh h es) (hr : Runs k h m fs h' m') : Fresh h' (es ++ fs) := by
  induction hr generalizing es with
  | refl => rwa [List.append_nil]
  | step hchange _ ih =>
    rw [← List.append_assoc]
    exact ih (hes.change hchange)

theorem advance (hes : Fresh h es) (m : Machine) :
    Fresh (m.advance h).heap (es ++ (m.advance h).events) := by
  rcases advance_cases h m with ⟨k, n, v, -, hr⟩ | ⟨k, m₁, hr, -⟩
  · exact hes.runs hr
  · exact hes.runs hr

end Fresh

end Machine

/-! ## The neighbours of a frame -/

/-- After the events `before`, the application `e` calls the closure `c`: all its parts have got
their values, the last of them just now. -/
def Calls (e : Node) (c : Closure) (before : List Event) : Prop :=
  ∃ (parts : List Episode) (args : List Value),
    Form.ofNode e = .ok (.application (parts.map node)) ∧ (∀ p ∈ parts, p.Whole) ∧
      apply (parts.map value) = .ok (.enter c args) ∧ heard parts <:+ before

/-- Among the events `after`, the frame is left only with the value of the body of `c`, which is
then the value of `e`. -/
def LeavesWith (e : Node) (c : Closure) (f : FrameId) (after : List Event) : Prop :=
  ∀ inside rest, after = inside ++ Event.left f :: rest → ∃ v,
    inside.getLast? = some (Event.suspended c.body v) ∧ rest.head? = some (Event.suspended e v)

/-- **Every frame among the events `es` is entered for a call, and left with the value of it.** The
events `before` come first. -/
def Bracketed (before es : List Event) : Prop :=
  ∀ here f after, es = here ++ Event.entered f :: after →
    ∃ e c, Calls e c (before ++ here) ∧ LeavesWith e c f after

section Split

variable {α : Type} {as bs before after : List α} {x : α}

theorem append_eq_split (h : as ++ bs = before ++ x :: after) :
    (∃ more, as = before ++ x :: more ∧ after = more ++ bs) ∨
      ∃ more, before = as ++ more ∧ bs = more ++ x :: after := by
  rcases List.append_eq_append_iff.mp h with ⟨more, rfl, hbs⟩ | ⟨more, rfl, hbs⟩
  · exact .inr ⟨more, rfl, hbs⟩
  · rcases more with _ | ⟨y, more⟩
    · exact .inr ⟨[], by simp, hbs.symm⟩
    · obtain ⟨rfl, rfl⟩ := List.cons.inj hbs
      exact .inl ⟨more, rfl, rfl⟩

end Split

variable {e n : Node} {c : Closure} {f : FrameId} {before es fs : List Event} {p : Episode}
  {parts : List Episode}

theorem apply_eq_enter {vs args : List Value} (ha : apply vs = .ok (.enter c args)) :
    vs = .closure c :: args := by
  unfold apply at ha
  split at ha
  · cases ha
  · split at ha
    · cases ha
      rfl
    · cases ha
  · cases ha

theorem Calls.last (hc : Calls e c before) : ∃ child u,
    e.children.getLast? = some child ∧ before.getLast? = some (Event.suspended child u) := by
  obtain ⟨parts, args, hf, hp, ha, here, rfl⟩ := hc
  rcases List.eq_nil_or_concat parts with rfl | ⟨init, p, hparts⟩
  · cases ha
  · rw [List.concat_eq_append] at hparts
    subst hparts
    obtain ⟨es, hes⟩ := (hp p (by simp)).events_eq
    refine ⟨p.node, p.value, ?_, ?_⟩
    · rw [Form.ofNode_eq_application hf, List.map_append]
      exact List.getLast?_concat
    · rw [heard_concat, hes, ← List.append_assoc, ← List.append_assoc, List.getLast?_concat]

namespace LeavesWith

theorem append (hes : LeavesWith e c f es) (hfs : .left f ∉ fs) :
    LeavesWith e c f (es ++ fs) := by
  intro inside rest heq
  rcases append_eq_split heq with ⟨more, rfl, rfl⟩ | ⟨more, rfl, rfl⟩
  · obtain ⟨v, hinside, hrest⟩ := hes _ _ rfl
    exact ⟨v, hinside, by rw [List.head?_append, hrest]; rfl⟩
  · simp at hfs

theorem body {v : Value} (hv : fs.getLast? = some (Event.suspended c.body v)) (hf : .left f ∉ fs) :
    LeavesWith e c f (fs ++ [Event.left f] ++ [Event.suspended e v]) := by
  intro inside rest heq
  rw [List.append_assoc] at heq
  rcases append_eq_split heq with ⟨more, rfl, -⟩ | ⟨more, rfl, hmore⟩
  · simp at hf
  · rcases more with _ | ⟨x, more⟩
    · cases hmore
      exact ⟨v, by simpa using hv, rfl⟩
    · -- behind the frame that is left there is only the value
      obtain ⟨-, hrest⟩ := List.cons.inj hmore
      rcases more with _ | ⟨y, more⟩ <;> simp at hrest

end LeavesWith

namespace Bracketed

theorem of_not_entered (hes : ∀ f, .entered f ∉ es) (before : List Event) :
    Bracketed before es := by
  rintro here f after rfl
  exact absurd (List.mem_append_right here List.mem_cons_self) (hes f)

theorem append (hes : Bracketed before es) (hfs : Bracketed (before ++ es) fs)
    (hd : ∀ f, .entered f ∈ es → .left f ∉ fs) : Bracketed before (es ++ fs) := by
  intro here f after heq
  rcases append_eq_split heq with ⟨more, rfl, rfl⟩ | ⟨more, rfl, rfl⟩
  · obtain ⟨e, c, hcall, hleaves⟩ := hes here f more rfl
    exact ⟨e, c, hcall, hleaves.append (hd f (by simp))⟩
  · rw [← List.append_assoc]
    exact hfs more f after rfl

/-- Two sequences of events that enter different frames, where the second leaves only its own. -/
theorem append_closed (hes : Bracketed before es) (hfs : Bracketed (before ++ es) fs)
    (hd : (enteredFrames (es ++ fs)).Nodup) (hc : ∀ f, .left f ∈ fs → .entered f ∈ fs) :
    Bracketed before (es ++ fs) :=
  hes.append hfs fun f hf hleft => (nodup_enteredFrames_append.mp hd).2.2 f hf (hc f hleft)

theorem entered (hcall : Calls e c before) (hes : LeavesWith e c f es)
    (hrest : Bracketed (before ++ [Event.entered f]) es) :
    Bracketed before ([Event.entered f] ++ es) := by
  intro here g after heq
  rcases here with _ | ⟨x, here⟩
  · cases heq
    exact ⟨e, c, by rwa [List.append_nil], hes⟩
  · obtain ⟨rfl, htail⟩ := List.cons.inj heq
    have hhere := hrest here g after htail
    rwa [List.append_assoc] at hhere

theorem call {v : Value} (hcall : Calls e c before)
    (hfs : Bracketed (before ++ [Event.entered f]) fs)
    (hv : fs.getLast? = some (Event.suspended c.body v)) (hf : .left f ∉ fs)
    (hf' : .entered f ∉ fs) :
    Bracketed before ([Event.entered f] ++ (fs ++ [Event.left f] ++ [Event.suspended e v])) := by
  refine .entered hcall (.body hv hf) ?_
  rw [List.append_assoc]
  refine hfs.append (.of_not_entered (by simp) _) fun g hg hleft => ?_
  simp only [List.mem_append, List.mem_singleton, reduceCtorEq, or_false] at hleft
  cases hleft
  exact hf' hg

end Bracketed

namespace Episode

theorem Whole.entered_of_left (hp : p.Whole) : ∀ f, .left f ∈ p.events → .entered f ∈ p.events := by
  induction hp with
  | simple => simp
  | conditional _ _ _ ihc ihb =>
    simp only [List.mem_append, List.mem_singleton, reduceCtorEq, or_false]
    exact fun f hf => hf.imp (ihc f) (ihb f)
  | definition _ _ ih =>
    simp only [List.mem_append, List.mem_singleton, reduceCtorEq, or_false]
    exact ih
  | application _ _ _ ih =>
    simp only [List.mem_append, List.mem_singleton, reduceCtorEq, or_false, heard, List.mem_flatMap]
    rintro f ⟨p, hp, hf⟩
    exact ⟨p, hp, ih p hp f hf⟩
  | call g _ _ _ _ ihp ih =>
    simp only [List.mem_append, List.mem_singleton, reduceCtorEq, or_false, heard, List.mem_flatMap,
      Event.left.injEq, Event.entered.injEq]
    rintro f ((⟨p, hp, hf⟩ | hf) | rfl)
    · exact .inl (.inl ⟨p, hp, ihp p hp f hf⟩)
    · exact .inr (ih f hf)
    · exact .inl (.inr rfl)

theorem entered_of_left_heard (hparts : ∀ p ∈ parts, p.Whole) :
    ∀ f, .left f ∈ heard parts → .entered f ∈ heard parts := by
  simp only [heard, List.mem_flatMap]
  rintro f ⟨p, hp, hf⟩
  exact ⟨p, hp, (hparts p hp).entered_of_left f hf⟩

theorem bracketed_heard (hparts : ∀ p ∈ parts, p.Whole)
    (h : ∀ p ∈ parts, (enteredFrames p.events).Nodup → ∀ before, Bracketed before p.events)
    (hd : (enteredFrames (heard parts)).Nodup) (before : List Event) :
    Bracketed before (heard parts) := by
  induction parts generalizing before with
  | nil => exact .of_not_entered (by simp [heard]) _
  | cons p parts ih =>
    obtain ⟨hp, hps⟩ := List.forall_mem_cons.mp h
    obtain ⟨-, hwhole⟩ := List.forall_mem_cons.mp hparts
    rw [heard, List.flatMap_cons] at hd ⊢
    obtain ⟨hdp, hdps, -⟩ := nodup_enteredFrames_append.mp hd
    exact (hp hdp before).append_closed (ih hwhole hps hdps _) hd (entered_of_left_heard hwhole)

/-- **The frames of an episode are bracketed**, if no frame is entered twice. -/
theorem Whole.bracketed (hp : p.Whole) (hd : (enteredFrames p.events).Nodup) (before : List Event) :
    Bracketed before p.events := by
  induction hp generalizing before with
  | simple => exact .of_not_entered (by simp) _
  | conditional hf hc hb ihc ihb =>
    obtain ⟨hd', -⟩ := nodup_enteredFrames_append.mp hd
    obtain ⟨hdc, hdb, -⟩ := nodup_enteredFrames_append.mp hd'
    have hparts := (ihc hdc before).append_closed (ihb hdb _) hd' hb.entered_of_left
    exact hparts.append (.of_not_entered (by simp) _) (by simp)
  | definition hf hb ih =>
    obtain ⟨hd', -⟩ := nodup_enteredFrames_append.mp hd
    exact (ih hd' before).append (.of_not_entered (by simp) _) (by simp)
  | application hf hp ha ih =>
    obtain ⟨hd', -⟩ := nodup_enteredFrames_append.mp hd
    exact (bracketed_heard hp ih hd' before).append (.of_not_entered (by simp) _) (by simp)
  | @call n parts c args v fs g hf hp ha hb ihp ih =>
    have hcall : Calls n c (before ++ heard parts) := ⟨parts, args, hf, hp, ha, before, rfl⟩
    have heq : heard parts ++ [Event.entered g] ++ fs ++ [Event.left g] ++ [Event.suspended n v] =
        heard parts ++ ([Event.entered g] ++ (fs ++ [Event.left g] ++ [Event.suspended n v])) := by
      simp only [List.append_assoc]
    rw [heq] at hd ⊢
    obtain ⟨hdparts, hdcall, -⟩ := nodup_enteredFrames_append.mp hd
    obtain ⟨-, hdbody, hnew⟩ := nodup_enteredFrames_append.mp hdcall
    rw [List.append_assoc] at hdbody
    obtain ⟨hdfs, -⟩ := nodup_enteredFrames_append.mp hdbody
    have hg : .entered g ∉ fs := fun h => hnew g (by simp) (by simp [h])
    obtain ⟨init, hlast⟩ := hb.events_eq
    have hv : fs.getLast? = some (Event.suspended c.body v) := by
      rw [show fs = init ++ [Event.suspended c.body v] from hlast, List.getLast?_concat]
    refine (bracketed_heard hp ihp hdparts before).append_closed
      (.call hcall (ih hdfs _) hv (fun h => hg (hb.entered_of_left g h)) hg) hd fun f hleft => ?_
    simp only [List.mem_append, List.mem_singleton, reduceCtorEq, or_false, false_or,
      Event.left.injEq, Event.entered.injEq] at hleft ⊢
    exact hleft.symm.imp id (hb.entered_of_left f)

theorem bracketed_whole (hparts : ∀ p ∈ parts, p.Whole)
    (hd : (enteredFrames (heard parts)).Nodup)
    (before : List Event) : Bracketed before (heard parts) :=
  bracketed_heard hparts (fun p hp => (hparts p hp).bracketed) hd before

end Episode

/-- **Before a node is looked at, all frames are bracketed**, if no frame was entered twice. -/
theorem Before.bracketed {root : Node} {pending : List Pending} (hb : Before root es n pending)
    (hd : (enteredFrames es).Nodup) : Bracketed [] es := by
  induction hb with
  | root => exact .of_not_entered (by simp) _
  | condition _ _ ih => exact ih hd
  | taken _ _ hc ih =>
    obtain ⟨hdes, hdc, -⟩ := nodup_enteredFrames_append.mp hd
    exact (ih hdes).append_closed (hc.bracketed hdc _) hd hc.entered_of_left
  | defined _ _ ih => exact ih hd
  | part _ _ hp ih =>
    obtain ⟨hdes, hdparts, -⟩ := nodup_enteredFrames_append.mp hd
    exact (ih hdes).append_closed (bracketed_whole hp hdparts _) hd (entered_of_left_heard hp)
  | @body es n parts c args rest f hf _ hp ha ih =>
    obtain ⟨hd', -⟩ := nodup_enteredFrames_append.mp hd
    obtain ⟨hdes, hdparts, -⟩ := nodup_enteredFrames_append.mp hd'
    have hparts := (ih hdes).append_closed (bracketed_whole hp hdparts _) hd'
      (entered_of_left_heard hp)
    have hcall : Calls n c (es ++ heard parts) := ⟨parts, args, hf, hp, ha, es, rfl⟩
    exact hparts.append (.entered hcall (by simp [LeavesWith]) (.of_not_entered (by simp) _))
      (by simp)

/-- **All that is heard of a machine is bracketed**, if no frame was entered twice. -/
theorem Machine.Rests.bracketed {m : Machine} (hm : m.Rests es) (hd : (enteredFrames es).Nodup) :
    Bracketed [] es := by
  cases hm with
  | evaluating hc hb => exact hb.bracketed hd
  | paused hc hb hw =>
    obtain ⟨hdes, hdw, -⟩ := nodup_enteredFrames_append.mp hd
    exact (hb.bracketed hdes).append_closed (hw.bracketed hdw _) hd hw.entered_of_left
  | finished hc hp hw => exact hw.bracketed hd []
  | halted hc hp hb hf =>
    obtain ⟨hdes, hdparts, -⟩ := nodup_enteredFrames_append.mp hd
    cases hf with
    | malformed => exact (hb.bracketed hdes).append (.of_not_entered (by simp) _) (by simp)
    | unbound => exact (hb.bracketed hdes).append (.of_not_entered (by simp) _) (by simp)
    | refused _ hparts =>
      exact (hb.bracketed hdes).append_closed (bracketed_whole hparts hdparts _) hd
        (entered_of_left_heard hparts)

/-! ## Steppers -/

namespace Stepper

variable {t : Tree} {session : Session} {r : Results} {s : Stepper}

theorem Heard.fresh (hs : (Stepper.start t session r).Heard es s) :
    Machine.Fresh s.session.heap es := by
  induction hs with
  | start => exact .nil _
  | @advance es s _ ih =>
    rw [s.advance_eq.2, s.advance_events]
    exact ih.advance s.machine
  | meanwhile _ hl r ih => exact ih.grows hl.heap

/-- **The grammar of the events** that are heard of a stepper: frames are entered and left as
brackets, each once, right behind the value of the last part of an application and right before the
value of this application. -/
theorem events_bracketed (hs : (Stepper.start t session r).Heard es s) :
    (∃ standing, replay [] es = some standing ∧ (s.machine.isDone → standing = []) ∧
      s.machine.frames.frames = s.session.library :: s.session.global :: standing.reverse) ∧
    (enteredFrames es).Nodup ∧
    ∀ before f after, es = before ++ Event.entered f :: after →
      ∃ e c child u, Form.ofNode e = .ok (.application e.children) ∧
        e.children.getLast? = some child ∧ before.getLast? = some (Event.suspended child u) ∧
        (∃ parts : List Episode, parts.map node = e.children ∧ (∀ p ∈ parts, p.Whole) ∧
          (parts.map value).head? = some (.closure c) ∧ heard parts <:+ before) ∧
        ∀ inside rest, after = inside ++ Event.left f :: rest → ∃ v,
          inside.getLast? = some (Event.suspended c.body v) ∧
            rest.head? = some (Event.suspended e v) := by
  have hfresh := hs.fresh
  have hrests := hs.telling.rests
  have hcoherent := hs.telling.coherent
  refine ⟨⟨StepLisp.calls s.machine.pending, hrests.replay, fun hdone => ?_, hcoherent.listed⟩,
    hfresh.distinct, fun before f after heq => ?_⟩
  · have hlisted := hcoherent.listed.symm.trans (hcoherent.frames_done hdone)
    simpa using hlisted
  · obtain ⟨e, c, hcall, hleaves⟩ := hrests.bracketed hfresh.distinct before f after heq
    obtain ⟨child, u, hchild, hlast⟩ := hcall.last
    obtain ⟨parts, args, hf, hp, ha, hheard⟩ := hcall
    have hchildren := Form.ofNode_eq_application hf
    exact ⟨e, c, child, u, hchildren ▸ hf, hchild, hlast,
      ⟨parts, hchildren.symm, hp, by rw [apply_eq_enter ha]; rfl, hheard⟩, hleaves⟩

/-- In the program `((lambda () ()))` one frame is entered, and left with the value of the body. -/
theorem events_bracketed_call : ∃ (t : Tree) (es before inside rest : List Event) (s : Stepper)
    (f : FrameId) (e b : Node) (v : Value), (Stepper.start t .new ∅).Heard es s ∧ s.machine.isDone ∧
    es = before ++ Event.entered f :: (inside ++ Event.left f :: rest) ∧ replay [] es = some [] ∧
    inside.getLast? = some (Event.suspended b v) ∧ rest.head? = some (Event.suspended e v) := by
  have hcheck : (do
      let t ← (Tree.parse "((lambda () ()))").toOption
      let s := Stepper.start t .new ∅
      let first ← (s.after 1).advance.events.head?
      let frame ← first.entered?
      let second ← (s.after 2).advance.events.head?
      match second with
      | .left g => some (decide (frame = g), (s.after 5).machine.isDone)
      | _ => none) = some (true, true) := by
    cbv
  obtain ⟨t, -, hcheck⟩ := Option.bind_eq_some_iff.mp hcheck
  obtain ⟨first, hfirst, hcheck⟩ := Option.bind_eq_some_iff.mp hcheck
  obtain ⟨f, hf, hcheck⟩ := Option.bind_eq_some_iff.mp hcheck
  obtain ⟨second, hsecond, hcheck⟩ := Option.bind_eq_some_iff.mp hcheck
  obtain ⟨hleft, hdone⟩ : second = .left f ∧ ((Stepper.start t .new ∅).after 5).machine.isDone := by
    cases second <;> simp at hcheck
    exact ⟨hcheck.1 ▸ rfl, hcheck.2⟩
  subst hleft
  let s := Stepper.start t .new ∅
  let told k := (s.after k).advance.events
  have hs : s.Heard ([] ++ told 0 ++ told 1 ++ told 2 ++ told 3 ++ told 4) (s.after 5) :=
    .advance (.advance (.advance (.advance (.advance .start))))
  obtain rfl : first = .entered f := by
    cases first <;> simp [Event.entered?] at hf
    rw [hf]
  obtain ⟨inside, hinside⟩ := List.head?_eq_some_iff.mp hfirst
  obtain ⟨rest, hrest⟩ := List.head?_eq_some_iff.mp hsecond
  have heq : [] ++ told 0 ++ told 1 ++ told 2 ++ told 3 ++ told 4 =
      told 0 ++ Event.entered f :: (inside ++ .left f :: (rest ++ told 3 ++ told 4)) := by
    simp only [told, s, hinside, hrest, List.nil_append, List.append_assoc, List.cons_append]
  obtain ⟨⟨standing, hreplay, hopen, -⟩, -, hframes⟩ := events_bracketed hs
  obtain ⟨e, c, -, -, -, -, -, -, hleaves⟩ := hframes _ f _ heq
  obtain ⟨v, hv, hv'⟩ := hleaves _ _ rfl
  rw [hopen hdone] at hreplay
  exact ⟨t, _, _, _, _, _, f, e, c.body, v, hs, hdone, heq, hreplay, hv, hv'⟩

end Stepper

end StepLisp
