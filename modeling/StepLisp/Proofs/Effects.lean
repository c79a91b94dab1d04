import StepLisp.Proofs.Nesting

/-!
# The effects of an advance

From one answer to the next a machine goes through several changes, but little of this is to be
seen. The first change takes up the value that was answered last; from there the machine goes down
to the next node that gets a value, and on the way down nothing happens but that closures and frames
are created.

* `advance_written`: an advance writes what it answers, and nothing else;
* `framings`, the frames that are entered and left among some events; `Answer.definition?`, the name
  and the value node of a definition that was answered;
* `Heap.Extends`: all frames of a heap stay as they are;
* `Machine.Descending`, a machine on its way down, with `Descending.change` and
  **`Descending.advance`**;
* `Machine.Next`, the answers that may come after an answer;
* `Machine.Effects`, the effects of an advance behind an answer, with **`Behind.effects`**.
-/

namespace StepLisp

/-! ## What is written -/

namespace Machine

variable {h h' : Heap} {m m' : Machine} {e : Option Event}

theorem Change.current_of_silent (hm : Change h m e h' m') (he : Silent e) :
    m'.current = m.current := by
  cases hm <;> first | rfl | cases he

/-- **An advance writes what it answers**: the value of one node, which is counted and becomes the
current one, or nothing. -/
theorem advance_written (h : Heap) (m : Machine) :
    suspensions (m.advance h).events = suspensions (m.advance h).answer.events ∧
      match (m.advance h).answer with
      | .suspended n _ =>
        (m.advance h).machine.steps = m.steps + 1 ∧ (m.advance h).machine.current = some n
      | _ =>
        (m.advance h).machine.steps = m.steps ∧ (m.advance h).machine.current = m.current := by
  -- along the recursion of the advance, one silent change after the other
  induction h, m using Machine.advance.induct with
  | case1 h m a m' h' ht =>
    rw [advance_of_pause ht]
    refine ⟨rfl, ?_⟩
    rcases pause_cases ht with ⟨n, v, rfl, hchange⟩ | ⟨rfl, hs⟩
    · cases hchange with
      | suspend hc hp => exact ⟨rfl, rfl⟩
    · cases hs <;> exact ⟨rfl, rfl⟩
  | case2 h m m' h' e ht ih =>
    have hchange := change_of_proceed ht
    have hsilent := silent_of_proceed ht
    rw [advance_of_proceed ht, suspensions_append, show suspensions e.toList = [] from
      hsilent, ← hchange.steps_of_silent hsilent, ← hchange.current_of_silent hsilent]
    exact ih

end Machine

/-! ## What is to be seen of frames -/

/-- The frames entered and left among some events. -/
def framings (es : List Event) : List Event := es.filter (·.suspension?.isNone)

theorem framings_append (es fs : List Event) : framings (es ++ fs) = framings es ++ framings fs :=
  List.filter_append es fs

@[simp] theorem framings_answer (a : Answer) : framings a.events = [] := by
  cases a <;> rfl

theorem Answer.left_not_mem (a : Answer) (f : FrameId) : .left f ∉ a.events := by
  cases a <;> simp [events]

theorem length_framings_le (e : Option Event) : (framings e.toList).length ≤ 1 := by
  cases e with
  | none => exact Nat.zero_le 1
  | some e => exact List.length_filter_le _ [e]

/-- The name and the value node of the definition that got its value, if the answer is of one. -/
def Answer.definition? : Answer → Option (String × Node)
  | .suspended n _ =>
    match Form.ofNode n with
    | .ok (.definition x b) => some (x, b)
    | _ => none
  | _ => none

theorem Answer.definition?_suspended {n : Node} (hf : ∀ x b, Form.ofNode n ≠ .ok (.definition x b))
    (v : Value) : (Answer.suspended n v).definition? = none := by
  rw [definition?]
  split
  · rename_i hn
    exact absurd hn (hf _ _)
  · rfl

/-- All frames of the heap `h` are in the heap `h'` as they were. -/
def Heap.Extends (h h' : Heap) : Prop :=
  ∀ f frame, h.frame? f = some frame → h'.frame? f = some frame

namespace Heap.Extends

variable {h h' h'' : Heap}

theorem refl (h : Heap) : h.Extends h := fun _ _ => id

theorem trans (hx : h.Extends h') (hx' : h'.Extends h'') : h.Extends h'' :=
  fun f frame hf => hx' f frame (hx f frame hf)

theorem allocate (h : Heap) (new : Frame) : h.Extends (h.allocate new).2 := by
  intro f frame hf
  rw [frame?_allocate, if_neg, hf]
  rintro rfl
  rw [frame?_fresh] at hf
  cases hf

end Heap.Extends

namespace Machine

variable {h h' : Heap} {m m' : Machine} {e : Option Event} {a : Answer} {n : Node} {v : Value}
  {s : FrameId}

/-! ## The way down -/

/-- The machine looks at a node, or it has the value of one that is no definition. -/
inductive Descending (m : Machine) : Prop where
  | evaluating {n : Node} {s : FrameId} (hc : m.control = .evaluate n s)
  | valued {n : Node} {v : Value} {rest : List Pending} (hc : m.control = .deliver v)
      (hp : m.pending = .annotate n :: rest) (hf : ∀ x b, Form.ofNode n ≠ .ok (.definition x b))

theorem Immediate.extends (hi : Immediate h n s v h') : h.Extends h' := by
  cases hi <;> exact .refl h

theorem Immediate.not_definition (hi : Immediate h n s v h') (x : String) (b : Node) :
    Form.ofNode n ≠ .ok (.definition x b) := by
  cases hi <;> simp_all

namespace Descending

/-- **On the way down** no frame is entered or left, and none is changed. -/
theorem change (hm : m.Descending) (hchange : Change h m e h' m') (he : Silent e) :
    e = none ∧ h.Extends h' ∧ m'.Descending := by
  cases hm with
  | evaluating hc =>
    cases hchange with
    | value hc' hi => exact ⟨rfl, hi.extends, .valued rfl rfl hi.not_definition⟩
    | opened hc' ho => exact ⟨rfl, .refl h, .evaluating rfl⟩
    | _ hc' => cases hc.symm.trans hc'
  | valued hc hp hf =>
    cases hchange with
    | value hc' => cases hc.symm.trans hc'
    | opened hc' => cases hc.symm.trans hc'
    | suspend hc' hp' => cases he
    | _ hc' hp' => cases hp.symm.trans hp'

theorem stop (hm : m.Descending) (hs : Stop h m a m') : ∃ f, a = .failed f ∧ f.cause ≠ .halted := by
  cases hm with
  | evaluating hc =>
    cases hs with
    | malformed => exact ⟨_, rfl, nofun⟩
    | unbound => exact ⟨_, rfl, nofun⟩
    | _ hc' => cases hc.symm.trans hc'
  | valued hc hp hf =>
    cases hs with
    | refused hc' hp' => cases hp.symm.trans hp'
    | _ hc' => cases hc.symm.trans hc'

theorem suspend (hm : m.Descending) (hchange : Change h m (some (.suspended n v)) h' m') :
    h' = h ∧ (Answer.suspended n v).definition? = none := by
  cases hchange with
  | suspend hc hp =>
    cases hm with
    | evaluating hc' => cases hc.symm.trans hc'
    | valued hc' hp' hf =>
      cases hp.symm.trans hp'
      exact ⟨rfl, Answer.definition?_suspended hf v⟩

/-- **An advance of a machine on its way down.** -/
theorem advance (hm : m.Descending) (h : Heap) :
    (m.advance h).events = (m.advance h).answer.events ∧ h.Extends (m.advance h).heap ∧
      (m.advance h).answer.definition? = none ∧
      ((∃ n v, (m.advance h).answer = .suspended n v) ∨
        ∃ f, (m.advance h).answer = .failed f ∧ f.cause ≠ .halted) := by
  induction h, m using Machine.advance.induct with
  | case1 h m a m' h' ht =>
    rw [advance_of_pause ht]
    refine ⟨rfl, ?_⟩
    rcases pause_cases ht with ⟨n, v, rfl, hchange⟩ | ⟨rfl, hs⟩
    · obtain ⟨rfl, hd⟩ := hm.suspend hchange
      exact ⟨.refl _, hd, .inl ⟨n, v, rfl⟩⟩
    · obtain ⟨f, rfl, hf⟩ := hm.stop hs
      exact ⟨.refl _, rfl, .inr ⟨f, rfl, hf⟩⟩
  | case2 h m m' h' e ht ih =>
    have hchange := change_of_proceed ht
    obtain ⟨rfl, hx, hm'⟩ := hm.change hchange (silent_of_proceed ht)
    obtain ⟨hes, hx', hrest⟩ := ih hm'
    rw [advance_of_proceed ht]
    exact ⟨hes, hx.trans hx', hrest⟩

end Descending

/-! ## Behind an answer -/

/-- The evaluation has not come to an end with this answer. -/
def Unended (last : Option Answer) : Prop := ∀ a ∈ last, ∃ n v, a = .suspended n v

/-- **The answers that may come after the answer `last`** in an evaluation of `root`. -/
inductive Next (root : Node) : Option Answer → Answer → Prop where
  | suspended {last : Option Answer} (hl : Unended last) (n : Node) (v : Value) :
      Next root last (.suspended n v)
  | failed {last : Option Answer} (hl : Unended last) {f : Fault} (hf : f.cause ≠ .halted) :
      Next root last (.failed f)
  /-- The root has got the value of the program. -/
  | done (v : Value) : Next root (some (.suspended root v)) (.done v)
  | ended (v : Value) : Next root (some (.done v)) (.done v)
  | halted (f : Fault) : Next root (some (.failed f)) (.failed ⟨.halted, root⟩)

theorem unended_none : Unended none := nofun

theorem unended_suspended (n : Node) (v : Value) : Unended (some (.suspended n v)) := by
  intro a ha
  cases ha
  exact ⟨n, v, rfl⟩

theorem next_of_new {root : Node} {last : Option Answer} (hl : Unended last)
    (ha : (∃ n v, a = .suspended n v) ∨ ∃ f, a = .failed f ∧ f.cause ≠ .halted) :
    Next root last a := by
  rcases ha with ⟨n, v, rfl⟩ | ⟨f, rfl, hf⟩
  · exact .suspended hl n v
  · exact .failed hl hf

/-- **The effects of an advance** of a machine that has given the answer `last`. -/
structure Effects (last : Option Answer) (h : Heap) (m : Machine) : Prop where
  next : Next m.root last (m.advance h).answer
  framings : (framings (m.advance h).events).length ≤ 1
  left : ∀ f, .left f ∈ (m.advance h).events → ∃ n v, (m.advance h).answer = .suspended n v
  /-- The frames stay as they are, unless a definition gets its value: then the value that was
  answered last has been bound. -/
  bound : match (m.advance h).answer.definition? with
    | none => h.Extends (m.advance h).heap
    | some (x, b) => ∃ u s rest, last = some (.suspended b u) ∧
        m.pending = .define x s :: rest ∧ (m.advance h).heap = h.define s x u

namespace Effects

variable {last : Option Answer}

/-- The machine goes down after at most one change, which does not lead out of a frame. -/
theorem of_change (hl : Unended last) (hchange : Change h m e h' m') (he : Silent e)
    (hleft : ∀ f, e ≠ some (.left f)) (hx : h.Extends h') (hm : m'.Descending) :
    Effects last h m := by
  obtain ⟨hes, hx', hd, hans⟩ := hm.advance h'
  have hadv := advance_of_silent hchange he
  rw [hes] at hadv
  constructor
  · rw [hadv]
    exact next_of_new hl hans
  · rw [hadv, framings_append, framings_answer, List.append_nil]
    exact length_framings_le e
  · intro f hf
    rw [hadv] at hf
    rcases List.mem_append.mp hf with hf | hf
    · exact absurd (Option.mem_toList.mp hf) (hleft f)
    · exact absurd hf (Answer.left_not_mem _ f)
  · rw [hadv, hd]
    exact hx.trans hx'

theorem of_descending (hl : Unended last) (hm : m.Descending) : Effects last h m := by
  obtain ⟨hes, hx, hd, hans⟩ := hm.advance h
  constructor
  · exact next_of_new hl hans
  · rw [hes, framings_answer]
    exact Nat.zero_le 1
  · rw [hes]
    exact fun f hf => absurd hf (Answer.left_not_mem _ f)
  · rw [hd]
    exact hx

theorem of_stop (hs : Stop h m a m') (hf : Next m.root last a) : Effects last h m := by
  have hd : a.definition? = none := by cases hs <;> rfl
  have hadv := advance_of_stop hs
  constructor
  · rw [hadv]
    exact hf
  · rw [hadv]
    exact Nat.zero_le 1
  · rw [hadv]
    exact fun f hf => nomatch hf
  · rw [hadv]
    dsimp only
    rw [hd]
    exact .refl h

end Effects

theorem apply_eq_error {vs : List Value} {cause : Cause}
    (ha : StepLisp.apply vs = .error cause) :
    ∃ c args, vs = .closure c :: args ∧ args.length ≠ c.arity ∧
      cause = .arity c.arity args.length := by
  unfold StepLisp.apply at ha
  split at ha
  · cases ha
  · split at ha
    · cases ha
    · rename_i c args hne
      cases ha
      exact ⟨c, args, rfl, hne, rfl⟩
  · cases ha

theorem cause_ne_halted {vs : List Value} {cause : Cause}
    (ha : StepLisp.apply vs = .error cause) : cause ≠ .halted := by
  obtain ⟨c, args, -, -, rfl⟩ := apply_eq_error ha
  exact nofun

theorem advance_of_change_suspend {h₁ : Heap} {m₁ : Machine} (hm : Change h m e h₁ m₁)
    (he : Silent e) (hs : Change h₁ m₁ (some (.suspended n v)) h' m') :
    m.advance h = ⟨.suspended n v, m', h', e.toList ++ [.suspended n v]⟩ := by
  rw [advance_of_silent hm he, advance_of_suspend hs]

theorem Paused.effects (hm : m.Paused n v) (h : Heap) : Effects (some (.suspended n v)) h m := by
  have hl := unended_suspended n v
  have hc := hm.control
  have ha := hm.awaits
  generalize hp : m.pending = pending at ha
  cases ha with
  | root =>
    have hadv : m.advance h = ⟨.done v, { m with control := .finished v }, h, []⟩ := by
      rw [advance_of_silent (.finish hc hp) silent_none, advance_of_stop (.done rfl)]
      rfl
    constructor
    · rw [hadv]
      exact .done v
    · simp [hadv, framings]
    · simp [hadv]
    · simpa [hadv, Answer.definition?] using Heap.Extends.refl h
  | condition hf ha =>
    exact .of_change hl (.branch hc hp) silent_none (by simp) (.refl h) (.evaluating rfl)
  | taken w hf ha => exact .of_descending hl (.valued hc hp (by simp [hf]))
  | @defined n' b x s rest hf ha =>
    -- the definition is made, and then it gets a value itself
    have hadv := advance_of_change_suspend (Change.define (h := h) hc hp) silent_none
      (.suspend rfl rfl)
    constructor
    · rw [hadv]
      exact .suspended hl _ _
    · simp [hadv, framings, Event.suspension?]
    · simp [hadv]
    · simpa [hadv, Answer.definition?, hf] using ⟨s, ⟨_, hp⟩, rfl⟩
  | @part n' _ cs vs s rest hf hi ha =>
    rcases hn : n'.children[(vs ++ [v]).length]? with _ | child
    · rcases happly : StepLisp.apply (vs ++ [v]) with cause | w | ⟨c, args⟩
      · exact .of_stop (.refused hc hp hn happly) (.failed hl (cause_ne_halted happly))
      · exact .of_change hl (.apply hc hp hn happly) silent_none (by simp) (.refl h)
          (.valued rfl rfl (by simp [hf]))
      · exact .of_change hl (.enter hc hp hn happly) (silent_entered _) (by simp) (.allocate h _)
          (.evaluating rfl)
    · exact .of_change hl (.collect hc hp hn) silent_none (by simp) (.refl h) (.evaluating rfl)
  | body hf hl happly ha =>
    -- the frame is left, and then the call gets a value itself
    have hadv := advance_of_change_suspend (Change.leave (h := h) hc hp) (silent_left _)
      (.suspend rfl rfl)
    constructor
    · rw [hadv]
      exact .suspended hl _ _
    · simp [hadv, framings, Event.suspension?]
    · simp [hadv]
    · simp [hadv, Answer.definition?, hf, Heap.Extends]

/-- **The effects of an advance** behind any answer. -/
theorem Behind.effects {last : Option Answer} (hm : m.Behind last) (h : Heap) :
    Effects last h m := by
  cases hm with
  | fresh hc hp => exact .of_descending unended_none (.evaluating hc)
  | suspended hm => exact hm.effects h
  | done hc hp => exact .of_stop (.done hc) (.ended _)
  | failed hc => exact .of_stop (.halted hc) (.halted _)

end Machine

end StepLisp
