import StepLisp.Proofs.Growth

/-!
# The listing of the active frames

The frames that a machine lists follow from the frames that it enters and leaves, and so does the
pending work. The two stay in step: after the library and the global frame, the calls are listed
that are still to be left, and every piece of work is to be done in the frame of the call that it
belongs to.

* `Pending.frame?`, the frame that a piece of work leaves, and `Pending.scope?`, the frame that it
  is done in;
* `calls`, the frames of the calls under way, and `innermost`, the frame of the last of them;
* `Machine.Coherent`, the invariant, with `Coherent.start`, `Coherent.later`, **`Coherent.change`**
  and `Coherent.stop`;
* `Stepper.Coherent`, the same of a stepper and its session, with `Stepper.coherent_start`.
-/

namespace StepLisp

/-- The frame of the call that ends with a piece of work. -/
def Pending.frame? : Pending → Option FrameId
  | .leave f => some f
  | _ => none

/-- The frame that a piece of work is done in. -/
def Pending.scope? : Pending → Option FrameId
  | .branch _ _ s => some s
  | .define _ s => some s
  | .collect _ _ s => some s
  | _ => none

/-- The frames of the calls under way, the innermost first. -/
def calls (pending : List Pending) : List FrameId := pending.filterMap Pending.frame?

/-- The frame of the innermost call under way; outside all calls, the global frame. -/
def innermost (global : FrameId) (pending : List Pending) : FrameId :=
  (calls pending).headD global

theorem calls_cons_leave (f : FrameId) (rest : List Pending) :
    calls (.leave f :: rest) = f :: calls rest := rfl

theorem calls_cons {p : Pending} (hp : p.frame? = none) (rest : List Pending) :
    calls (p :: rest) = calls rest := List.filterMap_cons_none hp

theorem innermost_cons {p : Pending} (hp : p.frame? = none) (global : FrameId)
    (rest : List Pending) : innermost global (p :: rest) = innermost global rest := by
  unfold innermost
  rw [calls_cons hp]

namespace ActiveFrames

theorem frames_push (s : ActiveFrames) (f : FrameId) : (s.push f).frames = s.frames ++ [f] :=
  List.reverse_cons

theorem frames_pop {s : ActiveFrames} {f : FrameId} {fs : List FrameId}
    (hs : s.frames = fs ++ [f]) : (s.pop f).frames = fs := by
  have hinner : s.innermost = f :: fs.reverse := by
    rw [← List.reverse_reverse s.innermost, show s.innermost.reverse = fs ++ [f] from hs,
      List.reverse_concat]
  rw [pop, frames, hinner, List.erase_cons_head, List.reverse_reverse]

end ActiveFrames

/-- Every piece of work is done in the frame of the innermost call below it. -/
def Scoped (global : FrameId) (pending : List Pending) : Prop :=
  ∀ p below, p :: below <:+ pending → ∀ s, p.scope? = some s → s = innermost global below

section Scoped

variable {global : FrameId} {p : Pending} {rest : List Pending}

theorem scoped_nil : Scoped global [] := by
  intro p below hp
  cases List.suffix_nil.mp hp

theorem scoped_cons :
    Scoped global (p :: rest) ↔
      (∀ s, p.scope? = some s → s = innermost global rest) ∧ Scoped global rest := by
  constructor
  · intro hs
    exact ⟨hs p rest (List.suffix_refl _),
      fun q below hq => hs q below (hq.trans (List.suffix_cons p rest))⟩
  · rintro ⟨hp, hs⟩ q below hq
    rcases List.suffix_cons_iff.mp hq with heq | hq
    · cases heq
      exact hp
    · exact hs q below hq

theorem Scoped.tail (hs : Scoped global (p :: rest)) : Scoped global rest := (scoped_cons.mp hs).2

theorem Scoped.head {s : FrameId} (hs : Scoped global (p :: rest)) (hp : p.scope? = some s) :
    s = innermost global rest := (scoped_cons.mp hs).1 s hp

theorem Scoped.cons (hs : Scoped global rest) (hp : p.scope? = none) :
    Scoped global (p :: rest) := by
  refine scoped_cons.mpr ⟨fun s h => ?_, hs⟩
  rw [hp] at h
  cases h

end Scoped

namespace Machine

/-- **The coherence of a machine** in a session with the frames `library` and `global`, and with the
heap `h`. -/
structure Coherent (library global : FrameId) (h : Heap) (m : Machine) : Prop where
  /-- The library, the global frame and the calls under way are listed, from the outermost on. -/
  listed : m.frames.frames = library :: global :: (calls m.pending).reverse
  distinct : (calls m.pending).Nodup
  kinds : ∀ f ∈ calls m.pending, ∃ frame, h.frame? f = some frame ∧ frame.kind = .call
  /-- A node is evaluated in the frame that is listed last. -/
  control : ∀ n s, m.control = .evaluate n s → m.frames.frames.getLast? = some s
  /-- The pending work is done in the frames of the calls that it belongs to. -/
  scopes : Scoped global m.pending
  finished : ∀ v, m.control = .finished v → m.pending = []

namespace Coherent

variable {library global : FrameId} {h h' : Heap} {m m' : Machine} {e : Option Event}
  {es : List Event} {a : Answer} {k : Nat}

theorem start (root : Node) (library global : FrameId) (h : Heap) :
    Coherent library global h (.start root library global) where
  listed := rfl
  distinct := List.nodup_nil
  kinds := fun _ hf => by cases hf
  control := by
    intro n s hc
    cases hc
    rfl
  scopes := scoped_nil
  finished := fun _ hc => by cases hc

theorem later (hm : Coherent library global h m) (hg : h.Grows h') :
    Coherent library global h' m := by
  refine { hm with kinds := fun f hf => ?_ }
  obtain ⟨frame, hframe, hkind⟩ := hm.kinds f hf
  obtain ⟨frame', hframe', hkind', -⟩ := hg f frame hframe
  exact ⟨frame', hframe', hkind'.trans hkind⟩

theorem getLast?_frames (hm : Coherent library global h m) :
    m.frames.frames.getLast? = some (innermost global m.pending) := by
  rw [hm.listed, innermost]
  cases calls m.pending with
  | nil => rfl
  | cons f rest =>
    rw [List.reverse_cons, ← List.cons_append, ← List.cons_append, List.getLast?_concat]
    rfl

theorem evaluate_eq (hm : Coherent library global h m) {n : Node} {s : FrameId}
    (hc : m.control = .evaluate n s) : s = innermost global m.pending :=
  Option.some.inj ((hm.control n s hc).symm.trans hm.getLast?_frames)

theorem listed_leave {f : FrameId} {rest : List Pending} (hm : Coherent library global h m)
    (hp : m.pending = .leave f :: rest) :
    m.frames.frames = library :: global :: (calls rest).reverse ++ [f] := by
  rw [hm.listed, hp, calls_cons_leave, List.reverse_cons]
  rfl

theorem frames_left {f : FrameId} (hm : Coherent library global h m)
    (hchange : Change h m (some (.left f)) h' m') :
    m.frames.frames = m'.frames.frames ++ [f] := by
  cases hchange with
  | leave hc hp =>
    rw [ActiveFrames.frames_pop (hm.listed_leave hp)]
    exact hm.listed_leave hp

theorem fresh_not_mem (hm : Coherent library global h m) (new : Frame) :
    (h.allocate new).1 ∉ calls m.pending := by
  intro hf
  obtain ⟨frame, hframe, -⟩ := hm.kinds _ hf
  rw [Heap.frame?_fresh] at hframe
  cases hframe

theorem frames_done (hm : Coherent library global h m) (hdone : m.isDone) :
    m.frames.frames = [library, global] := by
  cases hc : m.control with
  | finished v =>
    rw [hm.listed, hm.finished v hc]
    rfl
  | _ =>
    rw [isDone, hc] at hdone
    cases hdone

/-- A machine with the same calls under way is coherent if what it does next and its pending work
are in the right frames. -/
theorem of_calls_eq (hm : Coherent library global h m) (hf : m'.frames = m.frames)
    (hcalls : calls m'.pending = calls m.pending)
    (hc : ∀ n s, m'.control = .evaluate n s → s = innermost global m.pending)
    (hs : Scoped global m'.pending) (hv : ∀ v, m'.control = .finished v → m'.pending = []) :
    Coherent library global h m' where
  listed := by rw [hf, hcalls, hm.listed]
  distinct := by
    rw [hcalls]
    exact hm.distinct
  kinds := by
    rw [hcalls]
    exact hm.kinds
  control := by
    intro n s hn
    rw [hf, hc n s hn]
    exact hm.getLast?_frames
  scopes := hs
  finished := hv

theorem of_pending_eq {p : Pending} {rest : List Pending} (hm : Coherent library global h m)
    (hp : m.pending = p :: rest) (hn : p.frame? = none) (hf : m'.frames = m.frames)
    (hrest : m'.pending = rest) (hc : ∀ n s, m'.control ≠ .evaluate n s)
    (hv : ∀ v, m'.control ≠ .finished v) : Coherent library global h m' := by
  subst hrest
  have hs := hp ▸ hm.scopes
  refine hm.of_calls_eq hf ?_ ?_ hs.tail ?_
  · rw [hp, calls_cons hn]
  · exact fun n s h => absurd h (hc n s)
  · exact fun v h => absurd h (hv v)

/-- **Coherence is preserved by every change.** -/
theorem change (hm : Coherent library global h m) (hchange : Change h m e h' m') :
    Coherent library global h' m' := by
  have hl := hm.later hchange.grows
  cases hchange with
  | value hc hi =>
    exact hl.of_calls_eq rfl (calls_cons rfl _) nofun (hl.scopes.cons rfl) nofun
  | @opened n child s p hc ho =>
    -- both new pieces of work belong to the call that the node is evaluated in
    have hs := hl.evaluate_eq hc
    have hscope : p.scope? = some s := by cases ho <;> rfl
    have hframe : p.frame? = none := by cases ho <;> rfl
    refine hl.of_calls_eq rfl ?_ ?_ (scoped_cons.mpr ⟨?_, hl.scopes.cons rfl⟩) nofun
    · exact (calls_cons hframe _).trans (calls_cons rfl _)
    · intro _ _ heq
      cases heq
      exact hs
    · intro s' hs'
      rw [hscope] at hs'
      cases hs'
      exact hs.trans (innermost_cons rfl _ _).symm
  | branch hc hp =>
    have hs := hp ▸ hl.scopes
    refine hl.of_calls_eq rfl ?_ ?_ hs.tail nofun
    · exact (hp ▸ calls_cons rfl _).symm
    · intro _ _ heq
      cases heq
      exact (hs.head rfl).trans (hp ▸ innermost_cons rfl _ _).symm
  | define hc hp => exact hl.of_pending_eq hp rfl rfl rfl nofun nofun
  | collect hc hp hn =>
    have hs := hp ▸ hl.scopes
    refine hl.of_calls_eq rfl ?_ ?_ (scoped_cons.mpr ⟨?_, hs.tail⟩) nofun
    · rw [hp]
      exact (calls_cons rfl _).trans (calls_cons rfl _).symm
    · intro _ _ heq
      cases heq
      exact (hs.head rfl).trans (hp ▸ innermost_cons rfl _ _).symm
    · intro s' hs'
      cases hs'
      exact hs.head rfl
  | apply hc hp hn ha => exact hl.of_pending_eq hp rfl rfl rfl nofun nofun
  | @enter v n vs args s rest c hc hp hn ha =>
    have hs := hp ▸ hl.scopes
    have hcalls : calls m.pending = calls rest := hp ▸ calls_cons rfl _
    have hfresh : (c.enter args h).1 ∉ calls rest := hcalls ▸ hm.fresh_not_mem _
    have hdistinct : (calls rest).Nodup := hcalls ▸ hl.distinct
    refine ⟨?_, List.nodup_cons.mpr ⟨hfresh, hdistinct⟩, ?_, ?_, ?_, nofun⟩
    · rw [ActiveFrames.frames_push, hl.listed, hcalls, calls_cons_leave, List.reverse_cons]
      rfl
    · intro f hf
      rcases List.mem_cons.mp hf with rfl | hf
      · refine ⟨⟨.call, some c.scope, c.bindings args⟩, ?_, rfl⟩
        rw [Closure.enter, Heap.frame?_allocate, if_pos rfl]
      · exact hl.kinds f (hcalls ▸ hf)
    · intro _ _ heq
      cases heq
      rw [ActiveFrames.frames_push, List.getLast?_concat]
    · exact hs.tail.cons rfl
  | @leave v f rest hc hp =>
    have hs := hp ▸ hl.scopes
    have hcalls : calls m.pending = f :: calls rest := hp ▸ calls_cons_leave f rest
    refine ⟨ActiveFrames.frames_pop (hl.listed_leave hp), ?_, ?_, nofun, hs.tail, nofun⟩
    · exact (List.nodup_cons.mp (hcalls ▸ hl.distinct)).2
    · intro g hg
      exact hl.kinds g (hcalls ▸ List.mem_cons_of_mem f hg)
  | suspend hc hp => exact hl.of_pending_eq hp rfl rfl rfl nofun nofun
  | finish hc hp => exact hl.of_calls_eq rfl rfl nofun hl.scopes fun _ _ => hp

theorem runs (hm : Coherent library global h m) (hr : Runs k h m es h' m') :
    Coherent library global h' m' := by
  induction hr with
  | refl => exact hm
  | step hchange _ ih => exact ih (hm.change hchange)

theorem stop (hm : Coherent library global h m) (hs : Stop h m a m') :
    Coherent library global h m' := by
  cases hs with
  | done hc => exact hm
  | halted hc => exact hm
  | malformed hc hf =>
    exact hm.of_calls_eq rfl (calls_cons rfl _) nofun (hm.scopes.cons rfl) nofun
  | unbound hc hf hv =>
    exact hm.of_calls_eq rfl (calls_cons rfl _) nofun (hm.scopes.cons rfl) nofun
  | refused hc hp hn ha => exact hm.of_pending_eq hp rfl rfl rfl nofun nofun

/-- **Coherence is preserved by an advance**, from one answer to the next. -/
theorem advance (hm : Coherent library global h m) :
    Coherent library global (m.advance h).heap (m.advance h).machine := by
  rcases advance_cases h m with ⟨k, n, v, -, hr⟩ | ⟨k, m₁, hr, hs⟩
  · exact hm.runs hr
  · exact (hm.runs hr).stop hs

end Coherent

end Machine

/-! ## Steppers -/

/-- The machine of a stepper is coherent in its session. -/
def Stepper.Coherent (s : Stepper) : Prop :=
  s.machine.Coherent s.session.library s.session.global s.session.heap

namespace Stepper

theorem coherent_start (t : Tree) (s : Session) (r : Results) : (Stepper.start t s r).Coherent :=
  .start t.root s.library s.global s.heap

theorem Coherent.advance {s : Stepper} (hs : s.Coherent) : s.advance.stepper.Coherent :=
  Machine.Coherent.advance hs

end Stepper

end StepLisp
