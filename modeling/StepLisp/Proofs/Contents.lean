import StepLisp.Eval.Call
import StepLisp.Proofs.Growth

/-!
# What values, heaps and machines hold

Nodes and frames get about in values: a closure carries its body and the frame that it was created
in, and it may stand in a list, in a binding or among the values that an application has collected.
All of this comes from the nodes that are evaluated and from the frames that they are evaluated in.

* `Value.Holds`, the closures that a value is or contains, and `Value.Each`, a property of all of
  them, with `Bindings.Each`, `Heap.Each` and `Application.Each`;
* `Heap.Bound`, a property of all bindings, with `Bound.define` and `Bound.allocate`;
* `apply_each` and `Heap.Each.lookup`: neither applying values nor looking up a name brings in
  another closure;
* `Closure.Over`, `Control.Over`, `Pending.Over` and `Machine.Over`: all nodes and all frames that
  occur are from given sets, and closures come from lambdas among these nodes;
* `Stable`, sets that evaluation does not lead out of: **`Machine.Change.over`**,
  `Machine.Runs.over` and `Machine.Stop.over`, a machine stays over such sets, and so does all that
  it leaves in the heap and all values that nodes get.
-/

namespace StepLisp

/-! ## Values -/

/-- The value is the closure, or a list that contains a value that holds it. -/
inductive Value.Holds : Value → Closure → Prop where
  | closure (c : Closure) : Holds (.closure c) c
  | item {items : List Value} {v : Value} {c : Closure} (hv : v ∈ items) (hc : Holds v c) :
      Holds (.list items) c

variable {Q Q' : Closure → Prop}

/-- All closures that the value holds have the property `Q`. -/
def Value.Each (Q : Closure → Prop) (v : Value) : Prop := ∀ c, v.Holds c → Q c

namespace Value

theorem each_number (x : Float) : (number x).Each Q := nofun

theorem each_boolean (b : Bool) : (boolean b).Each Q := nofun

theorem each_void : void.Each Q := nofun

theorem each_primitive (p : Primitive) : (primitive p).Each Q := nofun

theorem each_closure {c : Closure} : (closure c).Each Q ↔ Q c := by
  constructor
  · intro hc
    exact hc _ (.closure c)
  · rintro hq _ ⟨⟩
    exact hq

theorem each_list {vs : List Value} : (list vs).Each Q ↔ ∀ v ∈ vs, v.Each Q := by
  constructor
  · intro hvs v hv c hc
    exact hvs c (.item hv hc)
  · rintro hvs c hc
    cases hc with
    | item hv hc => exact hvs _ hv c hc

theorem Each.mono {v : Value} (hv : v.Each Q) (hq : ∀ c, Q c → Q' c) : v.Each Q' :=
  fun c hc => hq c (hv c hc)

end Value

theorem Primitive.each_call (p : Primitive) (args : List Value) : (p.call args).Each Q := by
  cases p with
  | less => exact Value.each_boolean _
  | _ => exact Value.each_number _

/-! ## Bindings and calls -/

/-- All closures in the bindings have the property `Q`. -/
def Bindings.Each (Q : Closure → Prop) (bs : Bindings) : Prop := ∀ b ∈ bs, b.2.Each Q

namespace Bindings

variable {R : String × Value → Prop} {bs : Bindings} {x : String} {v : Value}

theorem forall_insert (hbs : ∀ b ∈ bs, R b) (hv : R (x, v)) : ∀ b ∈ bs.insert x v, R b := by
  induction bs with
  | nil => exact List.forall_mem_cons.mpr ⟨hv, nofun⟩
  | cons b bs ih =>
    obtain ⟨hb, hbs'⟩ := List.forall_mem_cons.mp hbs
    unfold Bindings.insert
    split
    · exact List.forall_mem_cons.mpr ⟨hv, hbs⟩
    · split
      · exact List.forall_mem_cons.mpr ⟨hv, hbs'⟩
      · exact List.forall_mem_cons.mpr ⟨hb, ih hbs'⟩

theorem forall_foldl {γ : Type} {name : γ → String} {value : γ → Value} {xs : List γ}
    (hbs : ∀ b ∈ bs, R b) (hxs : ∀ x ∈ xs, R (name x, value x)) :
    ∀ b ∈ xs.foldl (fun bs x => Bindings.insert (name x) (value x) bs) bs, R b := by
  induction xs generalizing bs with
  | nil => exact hbs
  | cons x xs ih =>
    obtain ⟨hx, hxs⟩ := List.forall_mem_cons.mp hxs
    exact ih (forall_insert hbs hx) hxs

theorem each_nil : Each Q [] := nofun

theorem Each.find? (hbs : Each Q bs) (hf : bs.find? x = some v) : v.Each Q := by
  induction bs with
  | nil => cases hf
  | cons b bs ih =>
    obtain ⟨hb, hbs'⟩ := List.forall_mem_cons.mp hbs
    unfold Bindings.find? at hf
    split at hf
    · cases hf
      exact hb
    · exact ih hbs' hf

end Bindings

theorem Heap.each_libraryBindings : Bindings.Each Q Heap.libraryBindings :=
  Bindings.forall_foldl Bindings.each_nil fun p _ => Value.each_primitive p

theorem Closure.each_bindings {c : Closure} {args : List Value} (hargs : ∀ v ∈ args, v.Each Q) :
    (c.bindings args).Each Q :=
  Bindings.forall_foldl Bindings.each_nil fun p hp => hargs p.2 (List.of_mem_zip hp).2

/-- All closures that an application goes on with have the property `Q`. -/
def Application.Each (Q : Closure → Prop) : Application → Prop
  | .value w => w.Each Q
  | .enter c args => Q c ∧ ∀ v ∈ args, v.Each Q

/-- **Applying values brings in no other closure.** -/
theorem apply_each {vs : List Value} (hvs : ∀ v ∈ vs, v.Each Q) {r : Application}
    (hr : apply vs = .ok r) : r.Each Q := by
  unfold apply at hr
  split at hr
  · cases hr
    exact Primitive.each_call _ _
  · obtain ⟨hc, hargs⟩ := List.forall_mem_cons.mp hvs
    split at hr
    · cases hr
      exact ⟨Value.each_closure.mp hc, hargs⟩
    · cases hr
  · cases hr
    exact Value.each_list.mpr hvs

/-! ## Heaps -/

namespace Heap

variable {h h' : Heap} {s f : FrameId} {x : String} {v : Value}

/-- All bindings of all frames have the property `R`. -/
def Bound (R : String × Value → Prop) (h : Heap) : Prop :=
  ∀ f frame, h.frame? f = some frame → ∀ b ∈ frame.bindings, R b

namespace Bound

variable {R : String × Value → Prop}

theorem define (hh : h.Bound R) (hv : R (x, v)) : (h.define s x v).Bound R := by
  intro f frame hframe
  rw [frame?_define] at hframe
  by_cases hfs : f = s
  · rw [if_pos hfs] at hframe
    obtain ⟨old, hold, rfl⟩ := Option.map_eq_some_iff.mp hframe
    exact Bindings.forall_insert (hh f old hold) hv
  · rw [if_neg hfs] at hframe
    exact hh f frame hframe

theorem allocate {new : Frame} (hh : h.Bound R) (hnew : ∀ b ∈ new.bindings, R b) :
    (h.allocate new).2.Bound R := by
  intro f frame hframe
  rw [frame?_allocate] at hframe
  by_cases hfresh : f = (h.allocate new).1
  · rw [if_pos hfresh] at hframe
    cases hframe
    exact hnew
  · rw [if_neg hfresh] at hframe
    exact hh f frame hframe

end Bound

/-- All closures in the bindings of all frames have the property `Q`. -/
def Each (Q : Closure → Prop) (h : Heap) : Prop :=
  ∀ f frame, h.frame? f = some frame → frame.bindings.Each Q

namespace Each

theorem mono (hh : h.Each Q) (hq : ∀ c, Q c → Q' c) : h.Each Q' :=
  fun f frame hf b hb => (hh f frame hf b hb).mono hq

theorem lookup (hh : h.Each Q) (hv : h.lookup s x = some v) : v.Each Q := by
  fun_induction h.lookup s x with
  | case1 s hf => cases hv
  | case2 s frame hf w hw =>
    cases hv
    exact (hh s frame hf).find? hw
  | case3 s frame hf hn hp => cases hv
  | case4 s frame hf hn p hp hlt ih => exact ih hv
  | case5 s frame hf hn p hp hlt => cases hv

theorem define (hh : h.Each Q) (hv : v.Each Q) : (h.define s x v).Each Q := Bound.define hh hv

theorem allocate {new : Frame} (hh : h.Each Q) (hnew : new.bindings.Each Q) :
    (h.allocate new).2.Each Q := Bound.allocate hh hnew

end Each

end Heap

/-! ## Nodes and frames -/

section Over

variable {P P' : Node → Prop} {S S' : FrameId → Prop}

/-- The closure comes from a lambda in `P`, and the frame that it was created in is in `S`. -/
def Closure.Over (P : Node → Prop) (S : FrameId → Prop) (c : Closure) : Prop :=
  (∃ n, P n ∧ Form.ofNode n = .ok (.abstraction c.params c.body)) ∧ S c.scope

theorem Closure.Over.mono {c : Closure} (hc : c.Over P S) (hP : ∀ n, P n → P' n)
    (hS : ∀ f, S f → S' f) : c.Over P' S' := by
  obtain ⟨⟨n, hn, hf⟩, hs⟩ := hc
  exact ⟨⟨n, hP n hn, hf⟩, hS _ hs⟩

/-- All nodes and frames that occur in what a machine does next are in `P` and `S`. -/
def Control.Over (P : Node → Prop) (S : FrameId → Prop) : Control → Prop
  | .evaluate n s => P n ∧ S s
  | .deliver v => v.Each (Closure.Over P S)
  | .finished v => v.Each (Closure.Over P S)
  | .halted => True

/-- All nodes and frames that occur in a piece of work are in `P` and `S`. -/
def Pending.Over (P : Node → Prop) (S : FrameId → Prop) : Pending → Prop
  | .annotate n => P n
  | .branch a b s => P a ∧ P b ∧ S s
  | .define _ s => S s
  | .collect n vs s => P n ∧ (∀ v ∈ vs, v.Each (Closure.Over P S)) ∧ S s
  | .leave f => S f

/-- All nodes and frames that a machine works with are in `P` and `S`. -/
structure Machine.Over (P : Node → Prop) (S : FrameId → Prop) (m : Machine) : Prop where
  control : m.control.Over P S
  pending : ∀ p ∈ m.pending, p.Over P S

theorem Control.Over.mono {c : Control} (hc : c.Over P S) (hP : ∀ n, P n → P' n)
    (hS : ∀ f, S f → S' f) : c.Over P' S' := by
  cases c with
  | evaluate n s => exact ⟨hP n hc.1, hS s hc.2⟩
  | deliver v => exact Value.Each.mono hc fun _ hc => hc.mono hP hS
  | finished v => exact Value.Each.mono hc fun _ hc => hc.mono hP hS
  | halted => trivial

theorem Pending.Over.mono {p : Pending} (hp : p.Over P S) (hP : ∀ n, P n → P' n)
    (hS : ∀ f, S f → S' f) : p.Over P' S' := by
  cases p with
  | annotate n => exact hP n hp
  | branch a b s => exact ⟨hP a hp.1, hP b hp.2.1, hS s hp.2.2⟩
  | define x s => exact hS s hp
  | collect n vs s =>
    exact ⟨hP n hp.1, fun v hv => (hp.2.1 v hv).mono fun _ hc => hc.mono hP hS, hS s hp.2.2⟩
  | leave f => exact hS f hp

theorem Machine.Over.mono {m : Machine} (hm : m.Over P S) (hP : ∀ n, P n → P' n)
    (hS : ∀ f, S f → S' f) : m.Over P' S' :=
  ⟨hm.control.mono hP hS, fun p hp => (hm.pending p hp).mono hP hS⟩

theorem Machine.Over.evaluate {m : Machine} {n : Node} {s : FrameId} (hm : m.Over P S)
    (hc : m.control = .evaluate n s) : P n ∧ S s := by
  have hcontrol := hm.control
  rwa [hc] at hcontrol

theorem Machine.Over.deliver {m : Machine} {v : Value} (hm : m.Over P S)
    (hc : m.control = .deliver v) : v.Each (Closure.Over P S) := by
  have hcontrol := hm.control
  rwa [hc] at hcontrol

theorem Machine.Over.cons {m : Machine} {p : Pending} {rest : List Pending} (hm : m.Over P S)
    (hp : m.pending = p :: rest) : p.Over P S ∧ ∀ q ∈ rest, q.Over P S :=
  List.forall_mem_cons.mp (hp ▸ hm.pending)

theorem Machine.over_start {root : Node} {library global : FrameId} (hP : P root) (hS : S global) :
    (Machine.start root library global).Over P S := ⟨⟨hP, hS⟩, nofun⟩

end Over

/-! ## Evaluation -/

/-- Evaluation does not lead out of the nodes `P` and, in a heap, out of the frames `S`: the
children of a node in `P` are in `P`, a frame in `S` stays in `S`, and with the frame that a closure
was created in the frame of a call is in `S`. -/
structure Stable (P : Node → Prop) (S : Heap → FrameId → Prop) : Prop where
  child {n c : Node} (hn : P n) (hc : c ∈ n.children) : P c
  grows {h h' : Heap} {f : FrameId} (hg : h.Grows h') (hf : S h f) : S h' f
  enter {h : Heap} {c : Closure} (args : List Value) (hc : S h c.scope) :
    S (c.enter args h).2 (c.enter args h).1

theorem Stable.body {P : Node → Prop} {S : Heap → FrameId → Prop} {S' : FrameId → Prop}
    {c : Closure} (hst : Stable P S) (hc : c.Over P S') : P c.body := by
  obtain ⟨⟨n, hn, hf⟩, -⟩ := hc
  obtain ⟨head, list, -, hchildren⟩ := Form.ofNode_eq_abstraction hf
  exact hst.child hn (by simp [hchildren])

namespace Machine

variable {P : Node → Prop} {S : Heap → FrameId → Prop} {h h' : Heap} {m m' : Machine}
  {e : Option Event} {es : List Event} {a : Answer} {k : Nat}

theorem Immediate.over {n : Node} {s : FrameId} {v : Value} (hn : P n)
    (hs : S h' s) (hh : h.Each (Closure.Over P (S h'))) (hi : Immediate h n s v h') :
    v.Each (Closure.Over P (S h')) ∧ h'.Each (Closure.Over P (S h')) := by
  cases hi with
  | number hf => exact ⟨Value.each_number _, hh⟩
  | identifier hf hv => exact ⟨hh.lookup hv, hh⟩
  | abstraction hf => exact ⟨Value.each_closure.mpr ⟨⟨n, hn, hf⟩, hs⟩, hh⟩
  | empty hf => exact ⟨Value.each_list.mpr nofun, hh⟩

theorem Opens.over {S : FrameId → Prop} {n child : Node} {s : FrameId} {p : Pending}
    (hP : ∀ c ∈ n.children, P c) (hn : P n) (hs : S s) (ho : Opens n s child p) :
    P child ∧ p.Over P S := by
  cases ho with
  | condition hf =>
    obtain ⟨head, -, hc⟩ := Form.ofNode_eq_conditional hf
    rw [hc] at hP
    exact ⟨hP _ (by simp), hP _ (by simp), hP _ (by simp), hs⟩
  | definition hf =>
    obtain ⟨head, name, -, -, hc⟩ := Form.ofNode_eq_definition hf
    rw [hc] at hP
    exact ⟨hP _ (by simp), hs⟩
  | application hf =>
    rw [Form.ofNode_eq_application hf] at hP
    exact ⟨hP _ List.mem_cons_self, hn, nofun, hs⟩

theorem each_concat {Q : Closure → Prop} {vs : List Value} {v : Value}
    (hvs : ∀ w ∈ vs, w.Each Q) (hv : v.Each Q) : ∀ w ∈ vs ++ [v], w.Each Q :=
  List.forall_mem_append.mpr ⟨hvs, List.forall_mem_singleton.mpr hv⟩

/-- **Evaluation stays over stable sets**: after a change, all nodes and frames that the machine
works with, and all that the closures in the heap carry, are in them. -/
theorem Change.over (hst : Stable P S) (hm : m.Over P (S h))
    (hh : h.Each (Closure.Over P (S h))) (hchange : Change h m e h' m') :
    m'.Over P (S h') ∧ h'.Each (Closure.Over P (S h')) := by
  have hS : ∀ f, S h f → S h' f := fun _ => hst.grows hchange.grows
  -- all that was there before is over the frames of the new heap
  have hm' := hm.mono (fun _ => id) hS
  have hh' : h.Each (Closure.Over P (S h')) := hh.mono fun _ hc => hc.mono (fun _ => id) hS
  cases hchange with
  | value hc hi =>
    obtain ⟨hn, hs⟩ := hm'.evaluate hc
    obtain ⟨hv, hh'⟩ := hi.over hn hs hh'
    exact ⟨⟨hv, List.forall_mem_cons.mpr ⟨hn, hm'.pending⟩⟩, hh'⟩
  | opened hc ho =>
    obtain ⟨hn, hs⟩ := hm'.evaluate hc
    obtain ⟨hchild, hp⟩ := ho.over (fun _ => hst.child hn) hn hs
    refine ⟨⟨⟨hchild, hs⟩, ?_⟩, hh'⟩
    exact List.forall_mem_cons.mpr ⟨hp, List.forall_mem_cons.mpr ⟨hn, hm'.pending⟩⟩
  | @branch v a b s rest hc hp =>
    obtain ⟨⟨ha, hb, hs⟩, hrest⟩ := hm'.cons hp
    refine ⟨⟨⟨?_, hs⟩, hrest⟩, hh'⟩
    split
    · exact ha
    · exact hb
  | define hc hp => exact ⟨⟨Value.each_void, (hm'.cons hp).2⟩, hh'.define (hm'.deliver hc)⟩
  | collect hc hp hn =>
    obtain ⟨⟨hnode, hvs, hs⟩, hrest⟩ := hm'.cons hp
    refine ⟨⟨⟨hst.child hnode (List.mem_of_getElem? hn), hs⟩, ?_⟩, hh'⟩
    exact List.forall_mem_cons.mpr ⟨⟨hnode, each_concat hvs (hm'.deliver hc), hs⟩, hrest⟩
  | apply hc hp hn ha =>
    obtain ⟨⟨-, hvs, -⟩, hrest⟩ := hm'.cons hp
    exact ⟨⟨apply_each (each_concat hvs (hm'.deliver hc)) ha, hrest⟩, hh'⟩
  | @enter v n vs args s rest c hc hp hn ha =>
    obtain ⟨⟨-, hvs, -⟩, hrest⟩ := hm'.cons hp
    obtain ⟨hbody, hargs⟩ := apply_each (each_concat hvs (hm'.deliver hc)) ha
    -- the closure was over the frames of the old heap already
    have hframe : S (c.enter args h).2 (c.enter args h).1 := by
      obtain ⟨⟨-, hvs, -⟩, -⟩ := hm.cons hp
      exact hst.enter args (apply_each (each_concat hvs (hm.deliver hc)) ha).1.2
    refine ⟨⟨⟨hst.body hbody, hframe⟩, List.forall_mem_cons.mpr ⟨hframe, hrest⟩⟩, ?_⟩
    exact hh'.allocate (Closure.each_bindings hargs)
  | leave hc hp => exact ⟨⟨hm'.deliver hc, (hm'.cons hp).2⟩, hh'⟩
  | suspend hc hp => exact ⟨⟨hm'.deliver hc, (hm'.cons hp).2⟩, hh'⟩
  | finish hc hp => exact ⟨⟨hm'.deliver hc, hm'.pending⟩, hh'⟩

theorem Change.over_suspended {S : FrameId → Prop} {n : Node} {v : Value} (hm : m.Over P S)
    (hchange : Change h m (some (.suspended n v)) h' m') : P n ∧ v.Each (Closure.Over P S) := by
  cases hchange with
  | suspend hc hp => exact ⟨(hm.cons hp).1, hm.deliver hc⟩

theorem Stop.over {S : FrameId → Prop} (hm : m.Over P S) (hs : Stop h m a m') : m'.Over P S := by
  cases hs with
  | done hc => exact hm
  | halted hc => exact hm
  | malformed hc hf =>
    exact ⟨trivial, List.forall_mem_cons.mpr ⟨(hm.evaluate hc).1, hm.pending⟩⟩
  | unbound hc hf hv =>
    exact ⟨trivial, List.forall_mem_cons.mpr ⟨(hm.evaluate hc).1, hm.pending⟩⟩
  | refused hc hp hn ha => exact ⟨trivial, (hm.cons hp).2⟩

/-- **A run stays over stable sets**, with all values that the nodes get. -/
theorem Runs.over (hst : Stable P S) (hm : m.Over P (S h))
    (hh : h.Each (Closure.Over P (S h))) (hr : Runs k h m es h' m') :
    m'.Over P (S h') ∧ h'.Each (Closure.Over P (S h')) ∧
      ∀ w ∈ suspensions es, P w.1 ∧ w.2.Each (Closure.Over P (S h')) := by
  induction hr with
  | refl => exact ⟨hm, hh, nofun⟩
  | @step _ _ h₁ h' _ _ _ e _ hchange hr ih =>
    obtain ⟨hm₁, hh₁⟩ := hchange.over hst hm hh
    obtain ⟨hm', hh', hlog⟩ := ih hm₁ hh₁
    refine ⟨hm', hh', ?_⟩
    rw [suspensions_append]
    refine List.forall_mem_append.mpr ⟨fun w hw => ?_, hlog⟩
    rcases silent_or_suspended e with he | ⟨n, v, rfl⟩
    · rw [show suspensions e.toList = [] from he] at hw
      cases hw
    · obtain rfl := List.mem_singleton.mp hw
      obtain ⟨hn, hv⟩ := hchange.over_suspended hm
      exact ⟨hn, hv.mono fun _ hc => hc.mono (fun _ => id)
        fun _ => hst.grows (hchange.grows.trans hr.grows)⟩

end Machine

end StepLisp
