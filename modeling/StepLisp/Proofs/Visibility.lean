import StepLisp.Proofs.Ancestry
import StepLisp.Proofs.Definitions

/-!
# Which definition is seen

The frames of a heap form a forest: a frame is created inside of a frame that is there already, or
inside of none. Names are defined in any of the frames, at any time. From a frame the definitions
are seen that were made in it and in the frames around it, of a name only the last one in the
innermost frame that it was ever defined in.

* `Heap.Act`, the creation of a frame or a definition, with what acts come to: the frames that they
  created, `Heap.created`, and the definitions that they made in a frame, `Heap.given`;
* `Heap.After`, a heap after some acts, with `After.frame?_eq`, all of its frames, and
  `After.exists_outwards`: from every frame one comes to an outermost one;
* `Heap.Exposed`, the frames whose definition of a name would be seen, with `lastGiven_define`;
* **`Heap.lookup_after`**: the definition that is seen, and what a further definition changes.
-/

namespace StepLisp

namespace Heap

/-! ## Acts -/

/-- One thing that is done with the frames of a heap. -/
inductive Act where
  /-- A frame is created that binds nothing. -/
  | create (kind : FrameKind) (parent : Option FrameId)
  | define (f : FrameId) (x : String) (v : Value)

/-- The kind and the parent of the frame that an act creates. -/
def Act.created? : Act → Option (FrameKind × Option FrameId)
  | .create kind parent => some (kind, parent)
  | .define _ _ _ => none

/-- The definition that an act makes in the frame `f`. -/
def Act.definition? (f : FrameId) : Act → Option (String × Value)
  | .create _ _ => none
  | .define g x v => if g = f then some (x, v) else none

/-- The kinds and the parents of the frames that were created, in the order of their creation. -/
def created (acts : List Act) : List (FrameKind × Option FrameId) := acts.filterMap Act.created?

/-- The definitions that were made in the frame `f`. -/
def given (acts : List Act) (f : FrameId) : List (String × Value) :=
  acts.filterMap (Act.definition? f)

variable {acts : List Act} {h : Heap} {f g s : FrameId} {x : String} {v : Value}

theorem created_create (acts : List Act) (kind : FrameKind) (parent : Option FrameId) :
    created (acts ++ [.create kind parent]) = created acts ++ [(kind, parent)] :=
  List.filterMap_append

theorem created_define (acts : List Act) (f : FrameId) (x : String) (v : Value) :
    created (acts ++ [.define f x v]) = created acts :=
  List.filterMap_append.trans (List.append_nil _)

theorem given_create (acts : List Act) (kind : FrameKind) (parent : Option FrameId) (f : FrameId) :
    given (acts ++ [.create kind parent]) f = given acts f :=
  List.filterMap_append.trans (List.append_nil _)

theorem given_define (acts : List Act) (f : FrameId) (x : String) (v : Value) (g : FrameId) :
    given (acts ++ [.define f x v]) g = given acts g ++ if f = g then [(x, v)] else [] := by
  rw [given, List.filterMap_append]
  by_cases hfg : f = g <;> simp [given, Act.definition?, hfg]

/-- The heap after some acts, each of which names frames that are there already. The creation of a
closure is no such act: it leaves all frames as they are. -/
inductive After : List Act → Heap → Prop where
  | empty : After [] .empty
  | create {acts : List Act} {h : Heap} (ha : After acts h) (kind : FrameKind)
      (parent : Option FrameId) (hp : ∀ p ∈ parent, (h.frame? p).isSome) :
      After (acts ++ [.create kind parent]) (h.allocate ⟨kind, parent, []⟩).2
  | define {acts : List Act} {h : Heap} {f : FrameId} (ha : After acts h)
      (hf : (h.frame? f).isSome) (x : String) (v : Value) :
      After (acts ++ [.define f x v]) (h.define f x v)
  | makeClosure {acts : List Act} {h : Heap} (ha : After acts h) (params : List String)
      (body : Node) (scope : FrameId) : After acts (h.makeClosure params body scope).2

/-! ## The frames after some acts -/

theorem isSome_frame? : (h.frame? f).isSome ↔ f.index < h.frames.size := by
  simp [frame?]

namespace After

theorem size_eq (ha : After acts h) : h.frames.size = (created acts).length := by
  induction ha with
  | empty => rfl
  | create ha kind parent hp ih => simp [allocate, created_create, ih]
  | define ha hf x v ih => simp [Heap.define, created_define, ih]
  | makeClosure ha params body scope ih => exact ih

theorem given_eq_nil (ha : After acts h) (hf : h.frame? f = none) : given acts f = [] := by
  induction ha with
  | empty => rfl
  | create ha kind parent hp ih =>
    rw [frame?_allocate] at hf
    split at hf
    · cases hf
    · rw [given_create, ih hf]
  | @define acts h g ha hg x v ih =>
    have hne : g ≠ f := by
      rintro rfl
      rw [frame?_define, if_pos rfl, Option.map_eq_none_iff] at hf
      rw [hf] at hg
      cases hg
    rw [frame?_define, if_neg hne.symm] at hf
    rw [given_define, if_neg hne, List.append_nil, ih hf]
  | makeClosure ha params body scope ih => exact ih hf

/-- **The frames after some acts** are those that were created, with the kinds and the parents that
they were created with, and with the bindings that the definitions in them lead to. -/
theorem frame?_eq (ha : After acts h) (f : FrameId) :
    h.frame? f = (created acts)[f.index]?.map fun c =>
      ⟨c.1, c.2, .ofDefinitions (given acts f)⟩ := by
  induction ha with
  | empty => rfl
  | @create acts h ha kind parent hp ih =>
    rw [frame?_allocate, given_create, created_create, ih]
    by_cases hf : f = (h.allocate ⟨kind, parent, []⟩).1
    · rw [if_pos hf, ha.given_eq_nil (hf ▸ frame?_fresh h _), hf]
      simp [allocate, ha.size_eq, Bindings.ofDefinitions]
    · have hne : f.index ≠ (created acts).length := fun heq =>
        hf (congrArg FrameId.mk (heq.trans ha.size_eq.symm))
      rw [if_neg hf, List.getElem?_append]
      split
      · rfl
      · rw [List.getElem?_eq_none (by omega), List.getElem?_eq_none (by simp; omega)]
  | @define acts h g ha hg x v ih =>
    rw [frame?_define, created_define, given_define, ih]
    by_cases hfg : f = g
    · subst hfg
      simp [Frame.define, Bindings.ofDefinitions_concat, Function.comp_def]
    · simp [hfg, Ne.symm hfg]
  | makeClosure ha params body scope ih => exact ih

theorem parent_lt (ha : After acts h) {frame : Frame} {p : FrameId} (hf : h.frame? f = some frame)
    (hp : frame.parent = some p) : p.index < f.index ∧ (h.frame? p).isSome := by
  induction ha generalizing frame with
  | empty => cases hf
  | @create acts h ha kind parent hparent ih =>
    have hlater : ∀ p, (h.frame? p).isSome →
        ((h.allocate ⟨kind, parent, []⟩).2.frame? p).isSome := by
      intro p hp
      rw [isSome_frame?] at hp ⊢
      rw [allocate, Array.size_push]
      omega
    rw [frame?_allocate] at hf
    split at hf
    · rename_i hfresh
      cases hf
      have hsome := hparent p hp
      rw [hfresh]
      exact ⟨isSome_frame?.mp hsome, hlater p hsome⟩
    · obtain ⟨hlt, hsome⟩ := ih hf hp
      exact ⟨hlt, hlater p hsome⟩
  | @define acts h g ha hg x v ih =>
    obtain ⟨old, hold, hparent⟩ : ∃ old, h.frame? f = some old ∧ old.parent = some p := by
      rw [frame?_define] at hf
      split at hf
      · obtain ⟨old, hold, rfl⟩ := Option.map_eq_some_iff.mp hf
        exact ⟨old, hold, hp⟩
      · exact ⟨frame, hf, hp⟩
    obtain ⟨hlt, hsome⟩ := ih hold hparent
    refine ⟨hlt, ?_⟩
    rw [isSome_frame?] at hsome ⊢
    rwa [Heap.define, Array.size_modify]
  | makeClosure ha params body scope ih => exact ih hf hp

/-- **From every frame one comes to an outermost frame**, from parent to parent. -/
theorem exists_outwards (ha : After acts h) (f : FrameId) (hf : (h.frame? f).isSome) :
    ∃ fs, h.Outwards f fs ∧ h.lineage f = fs := by
  -- a parent is older, so this is an induction on the number of the frame
  induction hn : f.index using Nat.strongRecOn generalizing f with
  | ind n ih =>
    obtain ⟨frame, hframe⟩ := Option.isSome_iff_exists.mp hf
    rcases hp : frame.parent with _ | p
    · exact ⟨[f], .last hframe hp, lineage_last hframe hp⟩
    · obtain ⟨hlt, hsome⟩ := ha.parent_lt hframe hp
      obtain ⟨fs, ho, hlineage⟩ := ih p.index (hn ▸ hlt) p hsome rfl
      exact ⟨f :: fs, .parent hframe hp ho, by rw [lineage_parent hframe hp hlt, hlineage]⟩

end After

theorem Outwards.grows {h' : Heap} {fs : List FrameId} (ho : h.Outwards s fs) (hg : h.Grows h') :
    h'.Outwards s fs := by
  induction ho with
  | last hf hp =>
    obtain ⟨frame', hf', -, hparent⟩ := hg _ _ hf
    exact .last hf' (hparent.trans hp)
  | parent hf hp _ ih =>
    obtain ⟨frame', hf', -, hparent⟩ := hg _ _ hf
    exact .parent hf' (hparent.trans hp) ih

/-! ## Looking up a name -/

theorem lookup_eq {frame : Frame} (hf : h.frame? s = some frame)
    (hp : ∀ p, frame.parent = some p → p.index < s.index) (x : String) :
    h.lookup s x = (frame.bindings.find? x).or (frame.parent.bind fun p => h.lookup p x) := by
  rw [lookup, hf]
  dsimp only
  rcases frame.bindings.find? x with _ | v
  · rcases hparent : frame.parent with _ | p
    · rfl
    · exact if_pos (hp p hparent)
  · rfl

/-- On the way outwards, the first frame decides that the name was ever defined in. -/
theorem After.lookup_eq_findSome? (ha : After acts h) {fs : List FrameId} (ho : h.Outwards s fs)
    (x : String) : h.lookup s x = fs.findSome? fun f => lastGiven (given acts f) x := by
  have hfind : ∀ {f frame}, h.frame? f = some frame →
      frame.bindings.find? x = lastGiven (given acts f) x := by
    intro f frame hf
    rw [ha.frame?_eq] at hf
    obtain ⟨c, -, rfl⟩ := Option.map_eq_some_iff.mp hf
    exact Bindings.find?_ofDefinitions _ x
  induction ho with
  | last hf hp =>
    rw [lookup_eq hf (by simp [hp]), hfind hf, hp, List.findSome?_cons, List.findSome?_nil]
    cases lastGiven (given acts _) x <;> rfl
  | parent hf hp ho ih =>
    have hlt := fun p hp => (ha.parent_lt hf (p := p) hp).1
    rw [lookup_eq hf hlt, hfind hf, hp, List.findSome?_cons, Option.bind_some, ih]
    cases lastGiven (given acts _) x <;> rfl

/-! ## A further definition -/

/-- On the way through the frames `fs`, the frame `f` comes before all frames that the name `x` was
defined in. -/
def Exposed (acts : List Act) (fs : List FrameId) (f : FrameId) (x : String) : Prop :=
  ∃ nearer outer, fs = nearer ++ f :: outer ∧ ∀ g ∈ nearer, lastGiven (given acts g) x = none

theorem exposed_cons {fs : List FrameId} : Exposed acts (g :: fs) f x ↔
    g = f ∨ lastGiven (given acts g) x = none ∧ Exposed acts fs f x := by
  constructor
  · rintro ⟨_ | ⟨g, nearer⟩, outer, hfs, hnone⟩
    · exact .inl (List.cons.inj hfs).1
    · obtain ⟨rfl, rfl⟩ := List.cons.inj hfs
      obtain ⟨hg, hnone⟩ := List.forall_mem_cons.mp hnone
      exact .inr ⟨hg, nearer, outer, rfl, hnone⟩
  · rintro (rfl | ⟨hg, nearer, outer, rfl, hnone⟩)
    · exact ⟨[], fs, rfl, nofun⟩
    · exact ⟨g :: nearer, outer, rfl, List.forall_mem_cons.mpr ⟨hg, hnone⟩⟩

theorem lastGiven_define (acts : List Act) (f : FrameId) (x : String) (v : Value) (g : FrameId)
    (y : String) : lastGiven (given (acts ++ [.define f x v]) g) y =
      if g = f ∧ y = x then some v else lastGiven (given acts g) y := by
  rw [given_define]
  by_cases hfg : f = g
  · rw [if_pos hfg, lastGiven_concat]
    simp [hfg]
  · rw [if_neg hfg, List.append_nil, if_neg fun hg => hfg hg.1.symm]

theorem findSome?_define_exposed {fs : List FrameId} (he : Exposed acts fs f x) (v : Value) :
    fs.findSome? (fun g => lastGiven (given (acts ++ [.define f x v]) g) x) = some v := by
  induction fs with
  | nil =>
    obtain ⟨nearer, outer, hfs, -⟩ := he
    simp at hfs
  | cons g fs ih =>
    rw [List.findSome?_cons, lastGiven_define]
    by_cases hg : g = f
    · rw [if_pos ⟨hg, rfl⟩]
    · obtain ⟨hnone, he⟩ := (exposed_cons.mp he).resolve_left hg
      rw [if_neg fun h => hg h.1, hnone, ih he]

theorem findSome?_define_hidden {fs : List FrameId} {y : String}
    (he : ¬ (y = x ∧ Exposed acts fs f x)) (v : Value) :
    fs.findSome? (fun g => lastGiven (given (acts ++ [.define f x v]) g) y) =
      fs.findSome? (fun g => lastGiven (given acts g) y) := by
  induction fs with
  | nil => rfl
  | cons g fs ih =>
    rw [exposed_cons] at he
    rw [List.findSome?_cons, List.findSome?_cons, lastGiven_define,
      if_neg fun h => he ⟨h.2, .inl h.1⟩]
    rcases hg : lastGiven (given acts g) y with _ | w
    · refine ih ?_
      rintro ⟨rfl, he'⟩
      exact he ⟨rfl, .inr ⟨hg, he'⟩⟩
    · rfl

/-- **Which definition is seen**, after any acts on the frames of a heap: the last one in the first
frame on the way outwards that the name was ever defined in. A further definition is seen unless
such a frame comes before its own. -/
theorem lookup_after (ha : After acts h) (hs : (h.frame? s).isSome) :
    (∀ f, (h.frame? f).map (fun frame => (frame.kind, frame.parent)) =
      (created acts)[f.index]?) ∧
    ∃ fs, h.Outwards s fs ∧ h.lineage s = fs ∧
      (∀ x, h.lookup s x = fs.findSome? fun f => lastGiven (given acts f) x) ∧
      ∀ f x v y, (h.frame? f).isSome →
        (y = x ∧ Exposed acts fs f x → (h.define f x v).lookup s y = some v) ∧
        (¬ (y = x ∧ Exposed acts fs f x) → (h.define f x v).lookup s y = h.lookup s y) := by
  refine ⟨fun f => ?_, ?_⟩
  · rw [ha.frame?_eq, Option.map_map]
    exact Option.map_id' ..
  obtain ⟨fs, ho, hlineage⟩ := ha.exists_outwards s hs
  refine ⟨fs, ho, hlineage, ha.lookup_eq_findSome? ho, fun f x v y hf => ?_⟩
  have hlater := (ha.define hf x v).lookup_eq_findSome? (ho.grows (.define h f x v)) y
  constructor
  · rintro ⟨rfl, he⟩
    rw [hlater, findSome?_define_exposed he]
  · intro he
    rw [hlater, findSome?_define_hidden he, ha.lookup_eq_findSome? ho]

/-- Inside of a frame that binds `x` and `y` there is a frame that was created before, with a
definition of `x` of its own. A further definition of `x` outside is not seen in it, and one of `y`
is. -/
theorem lookup_after_shadowed : ∃ (acts : List Act) (h : Heap), After acts h ∧
    (h.frame? ⟨1⟩).isSome ∧ h.lookup ⟨1⟩ "x" = some (.boolean true) ∧
    h.lookup ⟨1⟩ "y" = some .void ∧
    ∀ v, (h.define ⟨0⟩ "x" v).lookup ⟨1⟩ "x" = some (.boolean true) ∧
      (h.define ⟨0⟩ "y" v).lookup ⟨1⟩ "y" = some v := by
  have ha := After.empty.create .global none nofun
  have ha := ha.create .call (some ⟨0⟩) (by rintro p ⟨⟩; rfl)
  have ha := ha.define (f := ⟨0⟩) rfl "x" (.boolean false)
  have ha := ha.define (f := ⟨0⟩) rfl "y" .void
  have ha := ha.define (f := ⟨1⟩) rfl "x" (.boolean true)
  obtain ⟨-, fs, -, hlineage, hlookup, hdefine⟩ := lookup_after ha (s := ⟨1⟩) rfl
  obtain rfl : [⟨1⟩, ⟨0⟩] = fs := by
    rw [← hlineage, lineage_parent rfl rfl (by decide), lineage_last rfl rfl]
  refine ⟨_, _, ha, rfl, hlookup "x", hlookup "y", fun v => ⟨?_, ?_⟩⟩
  · rw [(hdefine ⟨0⟩ "x" v "x" rfl).2, hlookup]
    · rfl
    · rintro ⟨-, he⟩
      exact absurd ((exposed_cons.mp he).resolve_left (by decide)).1 nofun
  · refine (hdefine ⟨0⟩ "y" v "y" rfl).1 ⟨rfl, exposed_cons.mpr (.inr ⟨rfl, ?_⟩)⟩
    exact exposed_cons.mpr (.inl rfl)

end Heap

end StepLisp
