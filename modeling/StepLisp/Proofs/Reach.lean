import StepLisp.Proofs.Contents

/-!
# Frames within reach

From a frame its parent can be reached, and the frames that the closures in its bindings were
created in. A set of frames that nothing leads out of contains everything that a lookup from inside
can find, and it stays such a set when a name is bound or a frame is added, as long as what is bound
captures only frames of the set.

* `Value.Captures`, the frames that a value captures, and `Value.Within`, all of them are in a set,
  which are the frames of the closures that it holds (`Value.captures_iff`);
* `Frame.Leads`, what can be reached from a frame in one step, and `Heap.Reaches`, in any number;
* `Heap.Closed`, nothing leads out of a set, with `Closed.define` and `Closed.allocate`;
* `Heap.Agree`, two heaps with the same frames in a set: **`Heap.lookup_agree`**, they look the same
  from inside, and `Heap.Closed.within_lookup`, what is found captures only frames of the set;
* `apply_within`: applying values brings in no other frame.
-/

namespace StepLisp

/-! ## What values capture -/

/-- The value is a closure that was created in the frame, or a list that contains such a value. -/
inductive Value.Captures : Value → FrameId → Prop where
  | closure (c : Closure) : Captures (.closure c) c.scope
  | item {items : List Value} {v : Value} {f : FrameId} (hv : v ∈ items) (hc : Captures v f) :
      Captures (.list items) f

variable {S : FrameId → Prop}

/-- A value captures only frames of the set `S`. -/
def Value.Within (S : FrameId → Prop) (v : Value) : Prop := ∀ f, v.Captures f → S f

namespace Value

variable {v : Value} {f : FrameId}

theorem captures_iff : v.Captures f ↔ ∃ c, v.Holds c ∧ c.scope = f := by
  constructor
  · intro hv
    induction hv with
    | closure c => exact ⟨c, .closure c, rfl⟩
    | item hv _ ih =>
      obtain ⟨c, hc, hf⟩ := ih
      exact ⟨c, .item hv hc, hf⟩
  · rintro ⟨c, hc, rfl⟩
    induction hc with
    | closure c => exact .closure c
    | item hv _ ih => exact .item hv ih

theorem within_iff : v.Within S ↔ v.Each fun c => S c.scope := by
  constructor
  · intro hv c hc
    exact hv _ (captures_iff.mpr ⟨c, hc, rfl⟩)
  · intro hv f hf
    obtain ⟨c, hc, rfl⟩ := captures_iff.mp hf
    exact hv c hc

theorem within_number (x : Float) : (number x).Within S := within_iff.mpr (each_number x)

theorem within_void : void.Within S := within_iff.mpr each_void

theorem within_closure {c : Closure} : (closure c).Within S ↔ S c.scope :=
  within_iff.trans each_closure

theorem within_list {vs : List Value} : (list vs).Within S ↔ ∀ v ∈ vs, v.Within S := by
  simp only [within_iff]
  exact each_list

end Value

/-- What is bound captures only frames of the set `S`. -/
def Bindings.Within (S : FrameId → Prop) (bs : Bindings) : Prop := ∀ b ∈ bs, b.2.Within S

namespace Bindings

variable {bs : Bindings} {x : String} {v : Value}

theorem within_iff : Within S bs ↔ Each (fun c => S c.scope) bs :=
  forall₂_congr fun _ _ => Value.within_iff

theorem Within.insert (hbs : Within S bs) (hv : v.Within S) : Within S (bs.insert x v) :=
  forall_insert hbs hv

theorem Within.find? (hbs : Within S bs) (hf : bs.find? x = some v) : v.Within S :=
  Value.within_iff.mpr ((within_iff.mp hbs).find? hf)

end Bindings

theorem Heap.within_libraryBindings : Bindings.Within S Heap.libraryBindings :=
  Bindings.within_iff.mpr Heap.each_libraryBindings

theorem Closure.within_bindings {c : Closure} {args : List Value} (hargs : ∀ v ∈ args, v.Within S) :
    (c.bindings args).Within S :=
  Bindings.within_iff.mpr <|
    Closure.each_bindings fun v hv => Value.within_iff.mp (hargs v hv)

/-- What an application goes on with captures only frames of the set `S`. -/
def Application.Within (S : FrameId → Prop) : Application → Prop
  | .value w => w.Within S
  | .enter c args => S c.scope ∧ ∀ v ∈ args, v.Within S

/-- **Applying values brings in no other frame.** -/
theorem apply_within {vs : List Value} (hvs : ∀ v ∈ vs, v.Within S) {r : Application}
    (hr : apply vs = .ok r) : r.Within S := by
  have heach := apply_each (fun v hv => Value.within_iff.mp (hvs v hv)) hr
  cases r with
  | value w => exact Value.within_iff.mpr heach
  | enter c args => exact ⟨heach.1, fun v hv => Value.within_iff.mpr (heach.2 v hv)⟩

/-! ## What can be reached from a frame -/

/-- A frame leads to its parent, and to the frames that its bindings capture. -/
def Frame.Leads (frame : Frame) (g : FrameId) : Prop :=
  frame.parent = some g ∨ ∃ b ∈ frame.bindings, b.2.Captures g

namespace Heap

/-- The frames that can be reached from the frame `s`. -/
inductive Reaches (h : Heap) (s : FrameId) : FrameId → Prop where
  | refl : Reaches h s s
  | step {f g : FrameId} {frame : Frame} (hr : Reaches h s f) (hf : h.frame? f = some frame)
      (hl : frame.Leads g) : Reaches h s g

/-- Nothing leads out of the set `S`. -/
def Closed (S : FrameId → Prop) (h : Heap) : Prop :=
  ∀ f frame, S f → h.frame? f = some frame → ∀ g, frame.Leads g → S g

variable {h h' h₂ : Heap} {s f g : FrameId}

theorem closed_reaches (h : Heap) (s : FrameId) : Closed (h.Reaches s) h :=
  fun _ _ hs hf _ hl => .step hs hf hl

/-- What can be reached is the least set that nothing leads out of. -/
theorem Closed.of_reaches (hc : Closed S h) (hs : S s) (hr : h.Reaches s f) : S f := by
  induction hr with
  | refl => exact hs
  | step _ hf hl ih => exact hc _ _ ih hf _ hl

namespace Closed

theorem within_lookup {x : String} {v : Value} (hc : Closed S h) (hs : S s)
    (hv : h.lookup s x = some v) : v.Within S := by
  -- along the way of the lookup through the parents
  fun_induction h.lookup s x with
  | case1 s hf => cases hv
  | case2 s frame hf w hw =>
    cases hv
    have hbs : Bindings.Within S frame.bindings := fun b hb g hg =>
      hc s frame hs hf g (.inr ⟨b, hb, hg⟩)
    exact hbs.find? hw
  | case3 s frame hf hn hp => cases hv
  | case4 s frame hf hn p hp hlt ih => exact ih (hc _ _ hs hf p (.inl hp)) hv
  | case5 s frame hf hn p hp hlt => cases hv

theorem define {x : String} {v : Value} (hc : Closed S h) (hv : v.Within S) :
    Closed S (h.define s x v) := by
  intro f frame hf hframe g hl
  rw [frame?_define] at hframe
  by_cases hfs : f = s
  · rw [if_pos hfs] at hframe
    obtain ⟨old, hold, rfl⟩ := Option.map_eq_some_iff.mp hframe
    rcases hl with hp | ⟨b, hb, hg⟩
    · exact hc f old hf hold g (.inl hp)
    · have hbs : Bindings.Within S old.bindings := fun b hb g hg =>
        hc f old hf hold g (.inr ⟨b, hb, hg⟩)
      exact hbs.insert hv b hb g hg
  · rw [if_neg hfs] at hframe
    exact hc f frame hf hframe g hl

theorem allocate {new : Frame} (hc : Closed S h) (hnew : ∀ g, new.Leads g → S g) :
    Closed S (h.allocate new).2 := by
  intro f frame hf hframe g hl
  rw [frame?_allocate] at hframe
  by_cases hfresh : f = (h.allocate new).1
  · rw [if_pos hfresh] at hframe
    cases hframe
    exact hnew g hl
  · rw [if_neg hfresh] at hframe
    exact hc f frame hf hframe g hl

theorem enter {c : Closure} {args : List Value} (hc : Closed S h) (hs : S c.scope)
    (hargs : ∀ v ∈ args, v.Within S) : Closed S (c.enter args h).2 := by
  refine hc.allocate fun g hl => ?_
  rcases hl with hp | ⟨b, hb, hg⟩
  · cases hp
    exact hs
  · exact Closure.within_bindings hargs b hb g hg

end Closed

/-- From the frame of a call no more can be reached than from the frame that its closure was created
in, and from the frames that its arguments capture. -/
theorem reaches_enter {c : Closure} {args : List Value}
    (hr : (c.enter args h).2.Reaches (c.enter args h).1 g) :
    g = (c.enter args h).1 ∨ h.Reaches c.scope g ∨
      ∃ v ∈ args, ∃ f, v.Captures f ∧ h.Reaches f g := by
  have hclosed : Closed (fun g => g = (c.enter args h).1 ∨ h.Reaches c.scope g ∨
      ∃ v ∈ args, ∃ f, v.Captures f ∧ h.Reaches f g) h := by
    intro f frame hf hframe g hl
    rcases hf with rfl | hf | ⟨v, hv, f', hf', hr⟩
    · rw [Closure.enter, frame?_fresh] at hframe
      cases hframe
    · exact .inr (.inl (hf.step hframe hl))
    · exact .inr (.inr ⟨v, hv, f', hf', hr.step hframe hl⟩)
  refine Closed.of_reaches (hclosed.enter (.inr (.inl .refl)) ?_) (.inl rfl) hr
  exact fun v hv f hf => .inr (.inr ⟨v, hv, f, hf, .refl⟩)

theorem not_reaches_enter {c : Closure} {args : List Value} (hg : (h.frame? g).isSome)
    (hscope : ¬ h.Reaches c.scope g) (hargs : ∀ v ∈ args, ∀ f, v.Captures f → ¬ h.Reaches f g) :
    (c.enter args h).2.frame? g = h.frame? g ∧
      ¬ (c.enter args h).2.Reaches (c.enter args h).1 g := by
  have hne : g ≠ (c.enter args h).1 := by
    rintro rfl
    rw [Closure.enter, frame?_fresh] at hg
    cases hg
  constructor
  · exact (frame?_allocate h _ g).trans (if_neg hne)
  · intro hr
    rcases reaches_enter hr with heq | hr | ⟨v, hv, f, hf, hr⟩
    · exact hne heq
    · exact hscope hr
    · exact hargs v hv f hf hr

/-! ## Heaps that agree -/

/-- The heaps have the same frames in the set `S`, as many frames in all, and the same closure comes
next. -/
structure Agree (S : FrameId → Prop) (h h₂ : Heap) : Prop where
  size : h₂.frames.size = h.frames.size
  next : h₂.next = h.next
  frames : ∀ f, S f → h₂.frame? f = h.frame? f

/-- **From inside a set that nothing leads out of**, heaps that agree on it look the same. -/
theorem lookup_agree (hc : Closed S h) (ha : Agree S h h₂) (hs : S s) (x : String) :
    h₂.lookup s x = h.lookup s x := by
  have hframe := ha.frames s hs
  fun_induction h.lookup s x with
  | case1 s hf =>
    rw [lookup, hframe, hf]
  | case2 s frame hf v hv =>
    rw [lookup, hframe, hf]
    dsimp only
    rw [hv]
  | case3 s frame hf hn hp =>
    rw [lookup, hframe, hf]
    dsimp only
    rw [hn, hp]
  | case4 s frame hf hn p hp hlt ih =>
    have hsp : S p := hc _ _ hs hf p (.inl hp)
    rw [lookup, hframe, hf]
    dsimp only
    rw [hn, hp]
    dsimp only
    rw [if_pos hlt, ih hsp (ha.frames p hsp)]
  | case5 s frame hf hn p hp hlt =>
    rw [lookup, hframe, hf]
    dsimp only
    rw [hn, hp]
    dsimp only
    rw [if_neg hlt]

namespace Agree

theorem refl (S : FrameId → Prop) (h : Heap) : Agree S h h := ⟨rfl, rfl, fun _ _ => rfl⟩

theorem define (ha : Agree S h h₂) (s : FrameId) (x : String) (v : Value) :
    Agree S (h.define s x v) (h₂.define s x v) := by
  refine ⟨?_, ha.next, fun f hf => ?_⟩
  · unfold Heap.define
    rw [Array.size_modify, Array.size_modify, ha.size]
  · rw [frame?_define, frame?_define, ha.frames f hf]

theorem allocate_fst (ha : Agree S h h₂) (new : Frame) : (h₂.allocate new).1 = (h.allocate new).1 :=
  congrArg FrameId.mk ha.size

theorem allocate (ha : Agree S h h₂) (new : Frame) :
    Agree S (h.allocate new).2 (h₂.allocate new).2 := by
  refine ⟨?_, ha.next, fun f hf => ?_⟩
  · unfold Heap.allocate
    rw [Array.size_push, Array.size_push, ha.size]
  · rw [frame?_allocate, frame?_allocate, ha.allocate_fst, ha.frames f hf]

end Agree

/-- The frames outside of the set `S` are the same at a later time. -/
def Kept (S : FrameId → Prop) (h h' : Heap) : Prop := ∀ f, ¬ S f → h'.frame? f = h.frame? f

namespace Kept

variable {h'' : Heap}

theorem refl (S : FrameId → Prop) (h : Heap) : Kept S h h := fun _ _ => rfl

theorem trans (hk : Kept S h h') (hk' : Kept S h' h'') : Kept S h h'' :=
  fun f hf => (hk' f hf).trans (hk f hf)

theorem define (hs : S s) (x : String) (v : Value) : Kept S h (h.define s x v) := by
  intro f hf
  rw [frame?_define, if_neg]
  rintro rfl
  exact hf hs

theorem allocate {new : Frame} (hs : S (h.allocate new).1) : Kept S h (h.allocate new).2 := by
  intro f hf
  rw [frame?_allocate, if_neg]
  rintro rfl
  exact hf hs

end Kept

end Heap

end StepLisp
