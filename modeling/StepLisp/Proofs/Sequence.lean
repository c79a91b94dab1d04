import StepLisp.Proofs.Evaluation
import StepLisp.Proofs.Relabelling

/-!
# Nodes one after the other

Once its depth suffices, an evaluation depends neither on the depth nor on what was recorded before.
So it makes sense to say that some nodes come to an end in a heap, and nodes one after the other
come to their ends one after the other.

* `Evaluation.Extended`, an evaluation that goes the same way with more depth or another record,
  with **`evaluate_extended`**;
* `Heap.Ends`, the end that some nodes come to, which is one at most (`Heap.Ends.unique`);
* **`Heap.ends_append`**: nodes one after the other;
* **`Heap.Ends.transfer`**: other places and spans make no difference;
* `Heap.Uncalled`, with **`evaluate_iff_ends`**: an expression that calls nothing comes to the end
  of its children.
-/

namespace StepLisp

variable {α β : Type} {s : FrameId}

/-! ## More depth -/

/-- Where the evaluation `r` ends, `r'` comes to the same end, in the same heap. -/
def Evaluation.Extended (r r' : Evaluation α) : Prop :=
  ∀ o t, r = some (o, t) → ∃ written, r' = some (o, ⟨t.heap, written⟩)

namespace Evaluation.Extended

theorem some (o : Except Fault α) (h : Heap) (written written' : List (Node × Value)) :
    Extended (.some (o, ⟨h, written⟩)) (.some (o, ⟨h, written'⟩)) := by
  rintro _ _ ⟨⟩
  exact ⟨written', rfl⟩

/-- **Two evaluations one after the other.** -/
theorem andThen {r r' : Evaluation α} {next next' : α → Trail → Evaluation β}
    (hr : Extended r r')
    (hnext : ∀ a h written written', Extended (next a ⟨h, written⟩) (next' a ⟨h, written'⟩)) :
    Extended (r.andThen next) (r'.andThen next') := by
  intro o t he
  rcases r with _ | ⟨e | a, t₁⟩
  · cases he
  · cases he
    obtain ⟨written, rfl⟩ := hr _ _ rfl
    exact ⟨written, rfl⟩
  · obtain ⟨written, rfl⟩ := hr _ _ rfl
    exact hnext a _ _ written o t he

theorem record {r r' : Evaluation Value} (hr : Extended r r') (n : Node) :
    Extended (record n r) (record n r') := by
  intro o t he
  rcases r with _ | ⟨e | v, t₁⟩
  · cases he
  · cases he
    obtain ⟨written, rfl⟩ := hr _ _ rfl
    exact ⟨written, rfl⟩
  · cases he
    obtain ⟨written, rfl⟩ := hr _ _ rfl
    exact ⟨(n, v) :: written, rfl⟩

end Evaluation.Extended

open Evaluation

theorem evaluateEach_extended {ev ev' : Node → Trail → Evaluation Value}
    (hev : ∀ n h written written', Extended (ev n ⟨h, written⟩) (ev' n ⟨h, written'⟩))
    (ns : List Node) (h : Heap) (written written' : List (Node × Value)) :
    Extended (evaluateEach ev ns ⟨h, written⟩) (evaluateEach ev' ns ⟨h, written'⟩) := by
  induction ns generalizing h written written' with
  | nil => exact .some _ h _ _
  | cons n ns ih =>
    rw [evaluateEach_cons, evaluateEach_cons]
    exact (hev n h _ _).andThen fun v h _ _ => (ih h _ _).andThen fun vs h _ _ => .some _ h _ _

/-- **An evaluation that ends does so with more depth**, and whatever was recorded before. -/
theorem evaluate_extended {depth depth' : Nat} (hd : depth ≤ depth') (n : Node) (s : FrameId)
    (h : Heap) (written written' : List (Node × Value)) :
    Extended (evaluate depth n s ⟨h, written⟩) (evaluate depth' n s ⟨h, written'⟩) := by
  induction depth generalizing depth' n s h written written' with
  | zero => rintro _ _ ⟨⟩
  | succ depth ih =>
    obtain ⟨depth', rfl⟩ : ∃ d, depth' = d + 1 := ⟨depth' - 1, by omega⟩
    have hle : depth ≤ depth' := Nat.le_of_succ_le_succ hd
    cases hf : Form.ofNode n with
    | error e =>
      rw [evaluate_malformed hf, evaluate_malformed hf]
      exact .some _ h _ _
    | ok form =>
      cases form with
      | number x =>
        rw [evaluate_number hf, evaluate_number hf]
        exact (Extended.some _ h _ _).record n
      | identifier x =>
        rw [evaluate_identifier hf, evaluate_identifier hf]
        refine Extended.record ?_ n
        dsimp only
        cases h.lookup s x with
        | none => exact .some _ h _ _
        | some v => exact .some _ h _ _
      | conditional c a b =>
        rw [evaluate_conditional hf, evaluate_conditional hf]
        refine ((ih hle c s h _ _).andThen fun v h _ _ => ?_).record n
        exact ih hle _ s h _ _
      | definition x b =>
        rw [evaluate_definition hf, evaluate_definition hf]
        exact ((ih hle b s h _ _).andThen fun v h _ _ => .some _ (h.define s x v) _ _).record n
      | abstraction ps b =>
        rw [evaluate_abstraction hf, evaluate_abstraction hf]
        exact (Extended.some _ (h.makeClosure ps b s).2 _ _).record n
      | application children =>
        rw [evaluate_application hf, evaluate_application hf]
        have hparts := evaluateEach_extended (fun n h w w' => ih hle n s h w w') children h
          written written'
        refine (hparts.andThen fun vs h _ _ => ?_).record n
        rw [applyAll, applyAll]
        rcases apply vs with cause | (v | ⟨c, args⟩)
        · exact .some _ h _ _
        · exact .some _ h _ _
        · exact ih hle c.body _ (c.enter args h).2 _ _

/-! ## The end of some nodes -/

theorem evaluateEach_append (ev : Node → Trail → Evaluation Value) (ns ms : List Node) (t : Trail) :
    evaluateEach ev (ns ++ ms) t = (evaluateEach ev ns t).andThen fun vs t =>
      (evaluateEach ev ms t).andThen fun ws t => some (.ok (vs ++ ws), t) := by
  induction ns generalizing t with
  | nil =>
    rw [List.nil_append, evaluateEach_nil, andThen_ok]
    rcases evaluateEach ev ms t with _ | ⟨e | ws, t₁⟩ <;> rfl
  | cons n ns ih =>
    rw [List.cons_append, evaluateEach_cons, evaluateEach_cons, andThen_assoc]
    congr 1
    funext v t
    rw [ih, andThen_assoc, andThen_assoc]
    congr 1
    funext vs t
    rw [andThen_assoc]
    rfl

namespace Heap

/-- The nodes `ns`, evaluated one after the other in the frame `s` up to the first fault, come to
the end `o`, and to the heap `h'`. -/
def Ends (h : Heap) (s : FrameId) (ns : List Node) (o : Except Fault (List Value)) (h' : Heap) :
    Prop :=
  ∃ depth written,
    evaluateEach (fun n => evaluate depth n s) ns ⟨h, []⟩ = some (o, ⟨h', written⟩)

variable {h h' h₁ k : Heap} {ns ms : List Node} {o o' : Except Fault (List Value)} {f : Fault}
  {vs : List Value}

theorem Ends.of_evaluateEach {depth : Nat} {written written' : List (Node × Value)}
    (he : evaluateEach (fun n => evaluate depth n s) ns ⟨h, written⟩ = some (o, ⟨h', written'⟩)) :
    h.Ends s ns o h' := by
  obtain ⟨w, hw⟩ := evaluateEach_extended
    (fun n h w w' => evaluate_extended (Nat.le_refl depth) n s h w w') ns h written [] _ _ he
  exact ⟨depth, w, hw⟩

/-- The end is reached with any depth from some on. -/
theorem Ends.eventually (he : h.Ends s ns o h') : ∃ depth, ∀ depth' ≥ depth, ∀ written,
    ∃ written', evaluateEach (fun n => evaluate depth' n s) ns ⟨h, written⟩ =
      some (o, ⟨h', written'⟩) := by
  obtain ⟨depth, w, he⟩ := he
  refine ⟨depth, fun depth' hd written => ?_⟩
  exact evaluateEach_extended (fun n h w w' => evaluate_extended hd n s h w w') ns h [] written _ _
    he

theorem Ends.unique (he : h.Ends s ns o h') (he' : h.Ends s ns o' h₁) : o = o' ∧ h' = h₁ := by
  obtain ⟨depth, hd⟩ := he.eventually
  obtain ⟨depth', hd'⟩ := he'.eventually
  obtain ⟨w, he⟩ := hd _ (Nat.le_max_left depth depth') []
  obtain ⟨w', he'⟩ := hd' _ (Nat.le_max_right depth depth') []
  cases he.symm.trans he'
  exact ⟨rfl, rfl⟩

theorem ends_nil (h : Heap) (s : FrameId) : h.Ends s [] (.ok []) h := ⟨0, [], rfl⟩

theorem Ends.append_error (he : h.Ends s ns (.error f) h') : h.Ends s (ns ++ ms) (.error f) h' := by
  obtain ⟨depth, w, he⟩ := he
  exact ⟨depth, w, by rw [evaluateEach_append, he]; rfl⟩

theorem Ends.append (he : h.Ends s ns (.ok vs) h₁) (he' : h₁.Ends s ms o h') :
    h.Ends s (ns ++ ms) (o.map (vs ++ ·)) h' := by
  obtain ⟨depth, hd⟩ := he.eventually
  obtain ⟨depth', hd'⟩ := he'.eventually
  obtain ⟨w, he⟩ := hd _ (Nat.le_max_left depth depth') []
  obtain ⟨w', he'⟩ := hd' _ (Nat.le_max_right depth depth') w
  refine ⟨max depth depth', w', ?_⟩
  rw [evaluateEach_append, he, andThen_ok, he']
  cases o <;> rfl

/-- **Nodes one after the other come to their ends one after the other**, up to the first fault. -/
theorem ends_append : h.Ends s (ns ++ ms) o h' ↔
    (∃ f, o = .error f ∧ h.Ends s ns (.error f) h') ∨
      ∃ vs h₁ o', h.Ends s ns (.ok vs) h₁ ∧ h₁.Ends s ms o' h' ∧ o = o'.map (vs ++ ·) := by
  constructor
  · rintro ⟨depth, w, he⟩
    rw [evaluateEach_append] at he
    rcases hn : evaluateEach (fun n => evaluate depth n s) ns ⟨h, []⟩ with _ | ⟨e | vs, h₁, w₁⟩ <;>
      rw [hn] at he
    · cases he
    · cases he
      exact .inl ⟨e, rfl, depth, _, hn⟩
    · rw [andThen_ok] at he
      rcases hm : evaluateEach (fun n => evaluate depth n s) ms ⟨h₁, w₁⟩ with _ | ⟨o', h₂, w₂⟩ <;>
        rw [hm] at he
      · cases he
      · refine .inr ⟨vs, h₁, o', ⟨depth, w₁, hn⟩, ?_⟩
        cases o' <;> cases he <;> exact ⟨.of_evaluateEach hm, rfl⟩
  · rintro (⟨f, rfl, he⟩ | ⟨vs, h₁, o', he, he', rfl⟩)
    · exact he.append_error
    · exact he.append he'

end Heap

/-! ## Other places and spans -/

/-- The end of some nodes with other places and spans. -/
def relabelEnd (l : Relabelling) (o : Except Fault (List Value)) : Except Fault (List Value) :=
  (o.map (List.map (Value.relabel l))).mapError (Fault.relabel l)

section RelabelEnd

variable {l : Relabelling} {o : Except Fault (List Value)}

theorem relabelEnd_eq_error {f : Fault} (h : relabelEnd l o = relabelEnd l (.error f)) :
    ∃ g, o = .error g ∧ g.relabel l = f.relabel l := by
  cases o with
  | error g => exact ⟨g, rfl, Except.error.inj h⟩
  | ok vs => cases h

theorem relabelEnd_eq_ok {vs : List Value} (h : relabelEnd l o = relabelEnd l (.ok vs)) :
    ∃ ws, o = .ok ws ∧ ws.map (Value.relabel l) = vs.map (Value.relabel l) := by
  cases o with
  | error g => cases h
  | ok ws => exact ⟨ws, rfl, Except.ok.inj h⟩

end RelabelEnd

namespace Heap

variable {l : Relabelling} {h h' k : Heap} {ns ms : List Node} {o : Except Fault (List Value)}

/-- **Nodes that differ in places and spans only come to ends that do so**, in heaps that do so. -/
theorem Ends.transfer (he : h.Ends s ns o h') (hk : k.relabel l = h.relabel l)
    (hn : ms.map (Node.relabel l) = ns.map (Node.relabel l)) :
    ∃ o' k', k.Ends s ms o' k' ∧ relabelEnd l o' = relabelEnd l o ∧
      k'.relabel l = h'.relabel l := by
  obtain ⟨depth, w, he⟩ := he
  have hlabel : ∀ (h : Heap) (ns : List Node),
      evaluateEach (fun n => evaluate depth n s) (ns.map (Node.relabel l)) ⟨h.relabel l, []⟩ =
        (evaluateEach (fun n => evaluate depth n s) ns ⟨h, []⟩).relabelBy l
          (List.map (Value.relabel l)) :=
    fun h ns => evaluateEach_relabel (fun n t => evaluate_relabel depth n s t) ns ⟨h, []⟩
  have hboth := hlabel k ms
  rw [hk, hn, hlabel, he] at hboth
  obtain ⟨⟨o', k', w'⟩, he', heq⟩ := Option.map_eq_some_iff.mp hboth.symm
  obtain ⟨ho, ht⟩ := Prod.mk.inj heq
  exact ⟨o', k', ⟨depth, w', he'⟩, ho, congrArg Trail.heap ht⟩

end Heap

/-! ## Nodes that call nothing -/

/-- The name that a definition defines. -/
def Node.defined? (n : Node) : Option String :=
  match Form.ofNode n with
  | .ok (.definition x _) => some x
  | _ => none

theorem Node.ofNode_of_defined {n : Node} {x : String} (h : n.defined? = some x) :
    ∃ b, Form.ofNode n = .ok (.definition x b) := by
  unfold defined? at h
  split at h
  · rename_i hform
    cases h
    exact ⟨_, hform⟩
  · cases h

/-- The first of some nodes has no value that can be called. -/
def Heap.Uncalled (h : Heap) (s : FrameId) (ns : List Node) : Prop :=
  ∀ n depth v t, ns.head? = some n → evaluate depth n s ⟨h, []⟩ = some (.ok v, t) →
    v.isCallable = false

section Uncalled

variable {h h' : Heap} {s : FrameId} {ns : List Node} {vs : List Value}

theorem apply_of_not_callable (hvs : ∀ v, vs.head? = some v → v.isCallable = false) :
    apply vs = .ok (.value (.list vs)) := by
  rcases vs with _ | ⟨v, vs⟩
  · rfl
  · have hv := hvs v rfl
    cases v <;> first | rfl | cases hv

theorem head?_of_evaluateEach {ev : Node → Trail → Evaluation Value} {t t' : Trail}
    (he : evaluateEach ev ns t = some (.ok vs, t')) {v : Value} (hv : vs.head? = some v) :
    ∃ n t₁, ns.head? = some n ∧ ev n t = some (.ok v, t₁) := by
  rcases ns with _ | ⟨n, ns⟩
  · cases he
    cases hv
  · rw [evaluateEach_cons] at he
    rcases hn : ev n t with _ | ⟨e | w, t₁⟩ <;> rw [hn] at he
    · cases he
    · cases he
    · rw [Evaluation.andThen_ok] at he
      rcases hr : evaluateEach ev ns t₁ with _ | ⟨e | ws, t₂⟩ <;> rw [hr] at he <;> cases he
      cases hv
      exact ⟨n, t₁, rfl, hn⟩

namespace Heap

theorem Uncalled.apply_eq {depth : Nat} {t : Trail} (hu : h.Uncalled s ns)
    (he : evaluateEach (fun n => evaluate depth n s) ns ⟨h, []⟩ = some (.ok vs, t)) :
    apply vs = .ok (.value (.list vs)) := by
  refine apply_of_not_callable fun v hv => ?_
  obtain ⟨n, t₁, hn, hev⟩ := head?_of_evaluateEach he hv
  exact hu n depth v t₁ hn hev

theorem uncalled_of_defined (hd : (ns.head?.bind Node.defined?).isSome) (h : Heap) (s : FrameId) :
    h.Uncalled s ns := by
  intro n depth v t hn he
  rw [hn] at hd
  obtain ⟨x, hx⟩ := Option.isSome_iff_exists.mp hd
  obtain ⟨b, hform⟩ := Node.ofNode_of_defined hx
  cases depth with
  | zero => cases he
  | succ depth =>
    rw [evaluate_definition hform] at he
    rcases hb : evaluate depth b s ⟨h, []⟩ with _ | ⟨e | w, t₁⟩ <;> rw [hb] at he <;> cases he
    rfl

end Heap

/-- **An expression that calls nothing comes to the end of its parts.** -/
theorem evaluate_iff_ends {n : Node} (hn : Form.ofNode n = .ok (.application ns))
    (hu : h.Uncalled s ns) (o : Except Fault Value) :
    (∃ depth written, evaluate depth n s ⟨h, []⟩ = some (o, ⟨h', written⟩)) ↔
      ∃ o₁, h.Ends s ns o₁ h' ∧ o = o₁.map Value.list := by
  have hlaw : ∀ depth, evaluate (depth + 1) n s ⟨h, []⟩ = Evaluation.record n
      ((evaluateEach (fun n => evaluate depth n s) ns ⟨h, []⟩).andThen (applyAll depth n)) :=
    fun depth => evaluate_application hn
  constructor
  · rintro ⟨depth, written, he⟩
    cases depth with
    | zero => cases he
    | succ depth =>
      rw [hlaw] at he
      rcases hns : evaluateEach (fun n => evaluate depth n s) ns ⟨h, []⟩ with
        _ | ⟨f | vs, h₁, w⟩ <;> rw [hns] at he
      · cases he
      · cases he
        exact ⟨.error f, ⟨depth, _, hns⟩, rfl⟩
      · rw [Evaluation.andThen_ok, applyAll, hu.apply_eq hns] at he
        cases he
        exact ⟨.ok vs, ⟨depth, _, hns⟩, rfl⟩
  · rintro ⟨o₁, ⟨depth, w, hns⟩, rfl⟩
    cases o₁ with
    | error f => exact ⟨depth + 1, w, by rw [hlaw, hns]; rfl⟩
    | ok vs =>
      refine ⟨depth + 1, (n, .list vs) :: w, ?_⟩
      rw [hlaw, hns, Evaluation.andThen_ok, applyAll, hu.apply_eq hns]
      rfl

end Uncalled

theorem Heap.Uncalled.transfer {l : Relabelling} {h k : Heap} {s : FrameId} {ns ms : List Node}
    (hu : h.Uncalled s ns) (hk : k.relabel l = h.relabel l)
    (hn : ms.head?.map (Node.relabel l) = ns.head?.map (Node.relabel l)) : k.Uncalled s ms := by
  intro m depth v t hm he
  rw [hm] at hn
  obtain ⟨n, hn, hlabel⟩ := Option.map_eq_some_iff.mp hn.symm
  have hboth := evaluate_relabel (l := l) depth m s ⟨k, []⟩
  have hboth' := evaluate_relabel (l := l) depth n s ⟨h, []⟩
  have hstart : Trail.relabel l ⟨k, []⟩ = Trail.relabel l ⟨h, []⟩ :=
    congrArg (Trail.mk · []) hk
  rw [he, ← hlabel, hstart, hboth'] at hboth
  obtain ⟨⟨o, t'⟩, he', heq⟩ := Option.map_eq_some_iff.mp hboth
  rcases o with f | w
  · cases (Prod.mk.inj heq).1
  · have hvalue : w.relabel l = v.relabel l := Except.ok.inj (Prod.mk.inj heq).1
    rw [← v.isCallable_relabel (l := l), ← hvalue, w.isCallable_relabel]
    exact hu n depth w t' hn he'

end StepLisp
