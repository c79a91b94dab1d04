import StepLisp.Proofs.Evaluation
import StepLisp.Proofs.Reach

/-!
# Locality of evaluation

An evaluation is confined to the frames that can be reached from the frame it takes place in, and to
those that it creates. What is outside is neither changed nor read: two evaluations in heaps that
agree inside go on in step.

* `Trail.Twin`, two evaluations under way in heaps that agree on a set that nothing leads out of;
* `Locally`, evaluations that stay twins, and its laws, one for each way in which evaluations are
  put together;
* **`local_evaluate`**: every evaluation inside such a set is confined to it;
* **`evaluate_local`**: locality in terms of reachability.
-/

namespace StepLisp

variable {α β : Type} {S : FrameId → Prop}

/-- Two evaluations under way that cannot tell their heaps apart. -/
structure Trail.Twin (S : FrameId → Prop) (t t₂ : Trail) : Prop where
  closed : t.heap.Closed S
  agree : t.heap.Agree S t₂.heap
  written : t₂.written = t.written
  /-- The frames to come are in the set. -/
  fresh : ∀ f : FrameId, t.heap.frames.size ≤ f.index → S f

namespace Trail.Twin

variable {t t₂ : Trail} {s : FrameId}

theorem new_mem (ht : Trail.Twin S t t₂) (new : Frame) : S (t.heap.allocate new).1 :=
  ht.fresh _ (Nat.le_refl _)

theorem record (ht : Trail.Twin S t t₂) (n : Node) (v : Value) :
    Trail.Twin S ⟨t.heap, (n, v) :: t.written⟩ ⟨t₂.heap, (n, v) :: t₂.written⟩ :=
  { ht with written := by rw [ht.written] }

theorem define (ht : Trail.Twin S t t₂) (x : String) {v : Value} (hv : v.Within S) :
    Trail.Twin S ⟨t.heap.define s x v, t.written⟩ ⟨t₂.heap.define s x v, t₂.written⟩ where
  closed := ht.closed.define hv
  agree := ht.agree.define s x v
  written := ht.written
  fresh := by
    intro f hf
    refine ht.fresh f ?_
    rwa [show (t.heap.define s x v).frames.size = t.heap.frames.size from Array.size_modify] at hf

theorem makeClosure (ht : Trail.Twin S t t₂) (ps : List String) (b : Node) (s : FrameId) :
    Trail.Twin S ⟨(t.heap.makeClosure ps b s).2, t.written⟩
      ⟨(t₂.heap.makeClosure ps b s).2, t₂.written⟩ where
  closed := ht.closed
  agree := ⟨ht.agree.size, congrArg ClosureId.next ht.agree.next, ht.agree.frames⟩
  written := ht.written
  fresh := ht.fresh

theorem enter (ht : Trail.Twin S t t₂) {c : Closure} {args : List Value} (hs : S c.scope)
    (hargs : ∀ v ∈ args, v.Within S) :
    Trail.Twin S ⟨(c.enter args t.heap).2, t.written⟩ ⟨(c.enter args t₂.heap).2, t₂.written⟩ where
  closed := ht.closed.enter hs hargs
  agree := ht.agree.allocate _
  written := ht.written
  fresh := by
    intro f hf
    have hsize : (c.enter args t.heap).2.frames.size = t.heap.frames.size + 1 := Array.size_push _
    rw [hsize] at hf
    exact ht.fresh f (by omega)

end Trail.Twin

/-- The evaluations `r` and `r₂`, which began in `t` and `t₂`, end in the same way, with a value for
which `good` holds if there is one, and have left what is outside of the set `S` as it was. -/
def Locally (S : FrameId → Prop) (good : α → Prop) (t t₂ : Trail) :
    Evaluation α → Evaluation α → Prop
  | none, none => True
  | some (o, u), some (o₂, u₂) => o₂ = o ∧ (∀ a, o = .ok a → good a) ∧ Trail.Twin S u u₂ ∧
      t.heap.Kept S u.heap ∧ t₂.heap.Kept S u₂.heap
  | _, _ => False

namespace Locally

variable {good : α → Prop} {t t₂ u u₂ : Trail} {r r₂ : Evaluation α}

theorem ok {a : α} (ha : good a) (ht : Trail.Twin S t t₂) :
    Locally S good t t₂ (some (.ok a, t)) (some (.ok a, t₂)) := by
  refine ⟨rfl, ?_, ht, .refl S _, .refl S _⟩
  rintro _ ⟨⟩
  exact ha

theorem error (f : Fault) (ht : Trail.Twin S t t₂) :
    Locally S good t t₂ (some (.error f, t)) (some (.error f, t₂)) :=
  ⟨rfl, nofun, ht, .refl S _, .refl S _⟩

theorem before (hk : t.heap.Kept S u.heap) (hk₂ : t₂.heap.Kept S u₂.heap)
    (hr : Locally S good u u₂ r r₂) : Locally S good t t₂ r r₂ := by
  rcases r with _ | ⟨o, x⟩ <;> rcases r₂ with _ | ⟨o₂, x₂⟩
  · trivial
  · exact hr
  · exact hr
  · obtain ⟨ho, hgood, ht, h1, h2⟩ := hr
    exact ⟨ho, hgood, ht, hk.trans h1, hk₂.trans h2⟩

/-- **Two evaluations one after the other.** -/
theorem andThen {good' : β → Prop} {next next₂ : α → Trail → Evaluation β}
    (hr : Locally S good t t₂ r r₂)
    (hn : ∀ a u u₂, good a → Trail.Twin S u u₂ → Locally S good' u u₂ (next a u) (next₂ a u₂)) :
    Locally S good' t t₂ (r.andThen next) (r₂.andThen next₂) := by
  rcases r with _ | ⟨o, x⟩ <;> rcases r₂ with _ | ⟨o₂, x₂⟩
  · trivial
  · exact hr.elim
  · exact hr.elim
  · obtain ⟨rfl, hgood, ht, h1, h2⟩ := hr
    cases o₂ with
    | error e => exact ⟨rfl, nofun, ht, h1, h2⟩
    | ok a => exact before h1 h2 (hn a x x₂ (hgood a rfl) ht)

theorem record {r r₂ : Evaluation Value} (n : Node) (hr : Locally S (Value.Within S) t t₂ r r₂) :
    Locally S (Value.Within S) t t₂ (r.record n) (r₂.record n) := by
  rcases r with _ | ⟨o, x⟩ <;> rcases r₂ with _ | ⟨o₂, x₂⟩
  · trivial
  · exact hr.elim
  · rcases o with e | v
    · exact hr
    · exact hr
  · obtain ⟨rfl, hgood, ht, h1, h2⟩ := hr
    cases o₂ with
    | error e => exact ⟨rfl, nofun, ht, h1, h2⟩
    | ok v => exact ⟨rfl, hgood, ht.record n v, h1, h2⟩

end Locally

/-- The evaluator of the depth `d` is confined to the set `S`, wherever it begins inside. -/
def Confined (S : FrameId → Prop) (d : Nat) : Prop :=
  ∀ (n : Node) (s : FrameId) (t t₂ : Trail), S s → Trail.Twin S t t₂ →
    Locally S (Value.Within S) t t₂ (evaluate d n s t) (evaluate d n s t₂)

namespace Confined

variable {d : Nat} {s : FrameId} {t t₂ : Trail}

theorem evaluateEach (hd : Confined S d) (hs : S s) (ht : Trail.Twin S t t₂) (ns : List Node) :
    Locally S (fun vs => ∀ v ∈ vs, v.Within S) t t₂
      (StepLisp.evaluateEach (fun n => evaluate d n s) ns t)
      (StepLisp.evaluateEach (fun n => evaluate d n s) ns t₂) := by
  induction ns generalizing t t₂ with
  | nil => exact .ok nofun ht
  | cons n ns ih =>
    rw [evaluateEach_cons, evaluateEach_cons]
    refine (hd n s t t₂ hs ht).andThen fun v u u₂ hv hu => ?_
    refine (ih hu).andThen fun vs x x₂ hvs hx => ?_
    exact .ok (List.forall_mem_cons.mpr ⟨hv, hvs⟩) hx

theorem applyAll (hd : Confined S d) (n : Node) {vs : List Value} (hvs : ∀ v ∈ vs, v.Within S)
    (ht : Trail.Twin S t t₂) :
    Locally S (Value.Within S) t t₂ (applyAll d n vs t) (applyAll d n vs t₂) := by
  unfold StepLisp.applyAll
  cases ha : apply vs with
  | error cause => exact .error _ ht
  | ok r =>
    cases r with
    | value w => exact .ok (apply_within hvs ha) ht
    | enter c args =>
      obtain ⟨hscope, hargs⟩ := apply_within hvs ha
      have hnew : S (c.enter args t.heap).1 := ht.new_mem _
      have hsame : (c.enter args t₂.heap).1 = (c.enter args t.heap).1 := ht.agree.allocate_fst _
      have hbody : Locally S (Value.Within S) ⟨(c.enter args t.heap).2, t.written⟩
          ⟨(c.enter args t₂.heap).2, t₂.written⟩
          (evaluate d c.body (c.enter args t.heap).1 ⟨(c.enter args t.heap).2, t.written⟩)
          (evaluate d c.body (c.enter args t₂.heap).1 ⟨(c.enter args t₂.heap).2, t₂.written⟩) := by
        rw [hsame]
        exact hd c.body _ _ _ hnew (ht.enter hscope hargs)
      exact .before (.allocate hnew) (.allocate (hsame ▸ hnew)) hbody

end Confined

/-- **Every evaluation is confined** to a set that nothing leads out of, if it begins inside. -/
theorem local_evaluate (S : FrameId → Prop) (d : Nat) : Confined S d := by
  induction d with
  | zero => exact fun _ _ _ _ _ _ => trivial
  | succ d hd =>
    intro n s t t₂ hs ht
    cases hf : Form.ofNode n with
    | error e =>
      rw [evaluate_malformed hf, evaluate_malformed hf]
      exact .error _ ht
    | ok f =>
      cases f with
      | number x =>
        rw [evaluate_number hf, evaluate_number hf]
        exact .record n (.ok (Value.within_number x) ht)
      | identifier x =>
        rw [evaluate_identifier hf, evaluate_identifier hf,
          Heap.lookup_agree ht.closed ht.agree hs x]
        refine .record n ?_
        cases hv : t.heap.lookup s x with
        | none => exact .error _ ht
        | some v => exact .ok (ht.closed.within_lookup hs hv) ht
      | conditional c a b =>
        rw [evaluate_conditional hf, evaluate_conditional hf]
        exact .record n ((hd c s t t₂ hs ht).andThen fun v u u₂ _ hu => hd _ s u u₂ hs hu)
      | definition x b =>
        rw [evaluate_definition hf, evaluate_definition hf]
        refine .record n ((hd b s t t₂ hs ht).andThen fun v u u₂ hv hu => ?_)
        exact .before (.define hs x v) (.define hs x v) (.ok Value.within_void (hu.define x hv))
      | abstraction ps b =>
        rw [evaluate_abstraction hf, evaluate_abstraction hf]
        have hsame : (t₂.heap.makeClosure ps b s).1 = (t.heap.makeClosure ps b s).1 := by
          unfold Heap.makeClosure
          rw [ht.agree.next]
        rw [hsame]
        refine .record n (.before (.refl S _) (.refl S _) (.ok ?_ (ht.makeClosure ps b s)))
        exact Value.within_closure.mpr hs
      | application children =>
        rw [evaluate_application hf, evaluate_application hf]
        exact .record n ((hd.evaluateEach hs ht children).andThen
          fun vs u u₂ hvs hu => hd.applyAll n hvs hu)

/-! ## Locality in terms of reachability -/

section Reaches

variable {h h₂ : Heap} {s g : FrameId} {w : List (Node × Value)} {depth : Nat} {n : Node}
  {outcome : Except Fault Value} {t : Trail}

theorem twin_reaches (ha : h.Agree (h.Reaches s) h₂) :
    Trail.Twin (fun f => h.Reaches s f ∨ h.frame? f = none) ⟨h, w⟩ ⟨h₂, w⟩ where
  closed := by
    rintro f frame (hf | hf) hframe g hl
    · exact .inl (Heap.closed_reaches h s f frame hf hframe g hl)
    · rw [hf] at hframe
      cases hframe
  agree := by
    refine ⟨ha.size, ha.next, fun f hf => ?_⟩
    rcases hf with hf | hf
    · exact ha.frames f hf
    · have hle : h.frames.size ≤ f.index := Array.getElem?_eq_none_iff.mp hf
      rw [hf]
      exact Array.getElem?_eq_none_iff.mpr (ha.size ▸ hle)
  written := rfl
  fresh := fun f hf => .inr (Array.getElem?_eq_none_iff.mpr hf)

theorem evaluate_agree (he : evaluate depth n s ⟨h, w⟩ = some (outcome, t))
    (ha : h.Agree (h.Reaches s) h₂) :
    ∃ t₂, evaluate depth n s ⟨h₂, w⟩ = some (outcome, t₂) ∧ t₂.written = t.written ∧
      t.heap.Agree (fun f => h.Reaches s f ∨ h.frame? f = none) t₂.heap ∧
      h.Kept (fun f => h.Reaches s f ∨ h.frame? f = none) t.heap ∧
      h₂.Kept (fun f => h.Reaches s f ∨ h.frame? f = none) t₂.heap := by
  have hl := local_evaluate _ depth n s ⟨h, w⟩ ⟨h₂, w⟩ (.inl .refl) (twin_reaches ha)
  rw [he] at hl
  cases he₂ : evaluate depth n s ⟨h₂, w⟩ with
  | none =>
    rw [he₂] at hl
    exact hl.elim
  | some x =>
    rw [he₂] at hl
    obtain ⟨rfl, -, ht, hk, hk₂⟩ := hl
    exact ⟨x.2, rfl, ht.written, ht.agree, hk, hk₂⟩

theorem evaluate_kept (he : evaluate depth n s ⟨h, w⟩ = some (outcome, t))
    (hg : (h.frame? g).isSome) (hr : ¬ h.Reaches s g) : t.heap.frame? g = h.frame? g := by
  obtain ⟨-, -, -, -, hk, -⟩ := evaluate_agree he (.refl _ h)
  exact hk g (not_or.mpr ⟨hr, Option.isSome_iff_ne_none.mp hg⟩)

theorem evaluate_agree_ne (he : evaluate depth n s ⟨h, w⟩ = some (outcome, t))
    (hr : ¬ h.Reaches s g) (ha : h.Agree (· ≠ g) h₂) :
    ∃ t₂, evaluate depth n s ⟨h₂, w⟩ = some (outcome, t₂) ∧ t₂.written = t.written ∧
      t.heap.Agree (· ≠ g) t₂.heap := by
  have hreach : h.Agree (h.Reaches s) h₂ := by
    refine ⟨ha.size, ha.next, fun f hf => ha.frames f ?_⟩
    rintro rfl
    exact hr hf
  obtain ⟨t₂, he₂, hw, ha', hk, hk₂⟩ := evaluate_agree he hreach
  refine ⟨t₂, he₂, hw, ha'.size, ha'.next, fun f hf => ?_⟩
  by_cases hin : h.Reaches s f ∨ h.frame? f = none
  · exact ha'.frames f hin
  · rw [hk₂ f hin, hk f hin, ha.frames f hf]

/-- **Locality of evaluation**: frames out of reach stay as they were and make no difference, and a
call neither changes nor reads a frame that only its caller reaches. -/
theorem evaluate_local (he : evaluate depth n s ⟨h, w⟩ = some (outcome, t)) :
    (∀ f, (h.frame? f).isSome → ¬ h.Reaches s f → t.heap.frame? f = h.frame? f) ∧
    (∀ h₂, h.Agree (h.Reaches s) h₂ →
      ∃ t₂, evaluate depth n s ⟨h₂, w⟩ = some (outcome, t₂) ∧ t₂.written = t.written ∧
        t.heap.Agree (fun f => h.Reaches s f ∨ h.frame? f = none) t₂.heap) ∧
    ∀ (c : Closure) (args : List Value) (h₀ : Heap) (g : FrameId),
      n = c.body → s = (c.enter args h₀).1 → h = (c.enter args h₀).2 →
      (h₀.frame? g).isSome → ¬ h₀.Reaches c.scope g →
      (∀ v ∈ args, ∀ f, v.Captures f → ¬ h₀.Reaches f g) →
      t.heap.frame? g = h₀.frame? g ∧
      ∀ h₂, h.Agree (· ≠ g) h₂ →
        ∃ t₂, evaluate depth n s ⟨h₂, w⟩ = some (outcome, t₂) ∧ t₂.written = t.written ∧
          t.heap.Agree (· ≠ g) t₂.heap := by
  refine ⟨fun f hf hr => evaluate_kept he hf hr, fun h₂ ha => ?_, ?_⟩
  · obtain ⟨t₂, he₂, hw, ha', -⟩ := evaluate_agree he ha
    exact ⟨t₂, he₂, hw, ha'⟩
  · rintro c args h₀ g rfl rfl rfl hg hscope hargs
    obtain ⟨hframe, hr⟩ := Heap.not_reaches_enter hg hscope hargs
    refine ⟨(evaluate_kept he ?_ hr).trans hframe, fun h₂ ha => evaluate_agree_ne he hr ha⟩
    rwa [hframe]

end Reaches

/-- The identity, created in the global frame of a new session. -/
def Closure.identity : Closure :=
  ⟨⟨0, 0⟩, ["x"], .atom default default (.identifier "x"), Session.new.global⟩

/-- A new session in which a call is under way. -/
def Heap.calling : Heap :=
  (Session.new.heap.allocate ⟨.call, some Session.new.global, [("y", .void)]⟩).2

theorem Heap.closed_calling : calling.Closed fun f => f.index < 2 := by
  rintro ⟨i⟩ frame hf hframe g hl
  have hi : i = 0 ∨ i = 1 := by
    have : i < 2 := hf
    omega
  rcases hi with rfl | rfl
  · obtain rfl : ⟨.library, none, libraryBindings⟩ = frame := Option.some.inj hframe
    rcases hl with hp | ⟨b, hb, hg⟩
    · cases hp
    · exact within_libraryBindings (S := fun f => f.index < 2) b hb g hg
  · obtain rfl : ⟨.global, some ⟨0⟩, []⟩ = frame := Option.some.inj hframe
    rcases hl with hp | ⟨b, hb, -⟩
    · cases hp
      decide
    · cases hb

/-- The identity is called, and the frame of its caller stays as it is. -/
theorem local_identity : ∃ outcome t,
    evaluate 1 Closure.identity.body (Closure.identity.enter [.list []] .calling).1
      ⟨(Closure.identity.enter [.list []] .calling).2, []⟩ = some (outcome, t) ∧
    t.heap.frame? ⟨2⟩ = some ⟨.call, some Session.new.global, [("y", .void)]⟩ := by
  have hend : (evaluate 1 Closure.identity.body (Closure.identity.enter [.list []] .calling).1
      ⟨(Closure.identity.enter [.list []] .calling).2, []⟩).isSome := by
    simp [evaluate, Closure.identity, Form.ofNode, Closure.enter, Closure.bindings, Bindings.insert,
      Bindings.find?, Heap.lookup, Heap.allocate, Heap.frame?]
  obtain ⟨⟨outcome, t⟩, he⟩ := Option.isSome_iff_exists.mp hend
  have hout : ¬ Heap.calling.Reaches Closure.identity.scope ⟨2⟩ := fun hr =>
    absurd (Heap.closed_calling.of_reaches (by decide) hr) (by decide)
  have hargs : ∀ v ∈ [Value.list []], ∀ f, v.Captures f → ¬ Heap.calling.Reaches f ⟨2⟩ := by
    intro v hv f hf
    have hvoid : Value.Within (fun _ => False) v := by
      rw [List.mem_singleton.mp hv]
      exact Value.within_list.mpr fun w hw => absurd hw List.not_mem_nil
    exact (hvoid f hf).elim
  exact ⟨outcome, t, he,
    ((evaluate_local he).2.2 .identity [.list []] .calling ⟨2⟩ rfl rfl rfl rfl hout hargs).1⟩

end StepLisp
