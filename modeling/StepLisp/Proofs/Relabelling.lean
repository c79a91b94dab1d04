import StepLisp.Proofs.Evaluation
import StepLisp.Proofs.Run
import StepLisp.Report.View

/-!
# Evaluation under other labels

No evaluation looks at the places and spans of the nodes, although these are carried along in
closures, in the frames that hold them and in the pending work. Here all nodes that take part in an
evaluation get other places and spans, and each function of the evaluators gives the same, with the
nodes relabelled.

* `Relabelling`, with `Node.relabel`, and what it leaves as it is: `Node.text_relabel`,
  `Form.ofNode_relabel`;
* `Value.relabel`, `Heap.relabel` and their parts, with `Value.text_relabel` and
  `Heap.view_relabel`: nothing that is shown of them is lost;
* `apply_relabel`, `Heap.lookup_relabel`, `Heap.define_relabel`, `Closure.enter_relabel`: what is
  done to them;
* **`Machine.advance_relabel`**: the relabelled machine advances alike;
* **`evaluate_relabel`**: and so does the evaluation in one pass.
-/

namespace StepLisp

/-- A way to give nodes other places and spans. -/
structure Relabelling where
  place : Place → Place
  span : Span → Span

variable {l : Relabelling}

/-! ## Nodes and forms -/

namespace Node

mutual

/-- The node with other places and spans. -/
def relabel (l : Relabelling) : Node → Node
  | .atom place span content => .atom (l.place place) (l.span span) content
  | .expression place span children =>
    .expression (l.place place) (l.span span) (relabelAll l children)

def relabelAll (l : Relabelling) : List Node → List Node
  | [] => []
  | n :: rest => n.relabel l :: relabelAll l rest

end

@[simp]
theorem relabelAll_eq (ns : List Node) : relabelAll l ns = ns.map (relabel l) := by
  induction ns with
  | nil => rfl
  | cons n ns ih => rw [relabelAll, ih, List.map_cons]

@[simp]
theorem place_relabel (n : Node) : (n.relabel l).place = l.place n.place := by
  cases n <;> rfl

@[simp]
theorem children_relabel (n : Node) : (n.relabel l).children = n.children.map (relabel l) := by
  cases n with
  | atom => rfl
  | expression => exact relabelAll_eq _

@[simp]
theorem identifier?_relabel (n : Node) : (n.relabel l).identifier? = n.identifier? := by
  cases n with
  | atom place span content => cases content <;> rfl
  | expression => rfl

mutual

@[simp]
theorem text_relabel : ∀ n : Node, (n.relabel l).text = n.text
  | .atom _ _ _ => rfl
  | .expression _ _ children => by rw [relabel, text, text, textAll_relabelAll children]

theorem textAll_relabelAll : ∀ ns : List Node, textAll (relabelAll l ns) = textAll ns
  | [] => rfl
  | [n] => text_relabel n
  | n :: m :: rest => by
    have hrest := textAll_relabelAll (m :: rest)
    rw [relabelAll] at hrest
    rw [relabelAll, relabelAll, textAll, hrest, text_relabel n, textAll]

end

end Node

namespace Form

def relabel (l : Relabelling) : Form → Form
  | .number x => .number x
  | .identifier x => .identifier x
  | .conditional c a b => .conditional (c.relabel l) (a.relabel l) (b.relabel l)
  | .definition x b => .definition x (b.relabel l)
  | .abstraction ps b => .abstraction ps (b.relabel l)
  | .application children => .application (children.map (Node.relabel l))

theorem conditionalOf_relabel (ns : List Node) :
    conditionalOf (ns.map (Node.relabel l)) = (conditionalOf ns).map (relabel l) := by
  match ns with
  | [] | [_] | [_, _] | [_, _, _] | [_, _, _, _] | _ :: _ :: _ :: _ :: _ :: _ => rfl

theorem definitionOf_relabel (ns : List Node) :
    definitionOf (ns.map (Node.relabel l)) = (definitionOf ns).map (relabel l) := by
  match ns with
  | [] | [_] | [_, _] | _ :: _ :: _ :: _ :: _ => rfl
  | [_, name, value] =>
    simp only [List.map_cons, List.map_nil, definitionOf, Node.identifier?_relabel]
    cases name.identifier? <;> rfl

theorem abstractionOf_relabel (ns : List Node) :
    abstractionOf (ns.map (Node.relabel l)) = (abstractionOf ns).map (relabel l) := by
  match ns with
  | [] | [_] | [_, .atom _ _ _] | [_, .expression _ _ _] | [_, .atom _ _ _, _] => rfl
  | _ :: .atom _ _ _ :: _ :: _ :: _ | _ :: .expression _ _ _ :: _ :: _ :: _ => rfl
  | [_, .expression _ _ params, body] =>
    have hnames :
        (params.map (Node.relabel l)).mapM Node.identifier? = params.mapM Node.identifier? := by
      rw [List.mapM_map]
      simp only [Function.comp_def, Node.identifier?_relabel]
    simp only [List.map_cons, List.map_nil, Node.relabel, Node.relabelAll_eq, abstractionOf, hnames]
    cases params.mapM Node.identifier? <;> rfl

/-- **No form depends on places and spans.** -/
theorem ofNode_relabel (n : Node) :
    Form.ofNode (n.relabel l) = (Form.ofNode n).map (relabel l) := by
  cases n with
  | atom place span content => cases content <;> rfl
  | expression place span children =>
    have hhead : (children.map (Node.relabel l)).head?.bind Node.identifier? =
        children.head?.bind Node.identifier? := by
      cases children <;> simp
    rw [Node.relabel, Node.relabelAll_eq, ofNode, ofNode, hhead]
    split
    · exact conditionalOf_relabel children
    · exact definitionOf_relabel children
    · exact abstractionOf_relabel children
    · rfl

end Form

/-! ## Values and frames -/

def Closure.relabel (l : Relabelling) (c : Closure) : Closure := { c with body := c.body.relabel l }

namespace Value

mutual

/-- The value with other places and spans in the bodies of its closures. -/
def relabel (l : Relabelling) : Value → Value
  | .closure c => .closure (c.relabel l)
  | .list items => .list (relabelAll l items)
  | .number x => .number x
  | .boolean b => .boolean b
  | .primitive p => .primitive p
  | .void => .void

def relabelAll (l : Relabelling) : List Value → List Value
  | [] => []
  | v :: rest => v.relabel l :: relabelAll l rest

end

@[simp]
theorem relabelAll_eq (vs : List Value) : relabelAll l vs = vs.map (relabel l) := by
  induction vs with
  | nil => rfl
  | cons v vs ih => rw [relabelAll, ih, List.map_cons]

@[simp]
theorem isTruthy_relabel (v : Value) : (v.relabel l).isTruthy = v.isTruthy := by
  cases v <;> rfl

@[simp]
theorem isCallable_relabel (v : Value) : (v.relabel l).isCallable = v.isCallable := by
  cases v <;> rfl

@[simp]
theorem toNumber_relabel (v : Value) : (v.relabel l).toNumber = v.toNumber := by
  cases v <;> rfl

mutual

@[simp]
theorem text_relabel : ∀ v : Value, (v.relabel l).text = v.text
  | .number _ | .boolean _ | .closure _ | .primitive _ | .void => rfl
  | .list items => by rw [relabel, text, text, textAll_relabelAll items]

theorem textAll_relabelAll : ∀ vs : List Value, textAll (relabelAll l vs) = textAll vs
  | [] => rfl
  | [v] => text_relabel v
  | v :: w :: rest => by
    have hrest := textAll_relabelAll (w :: rest)
    rw [relabelAll] at hrest
    rw [relabelAll, relabelAll, textAll, hrest, text_relabel v, textAll]

end

end Value

namespace Primitive

theorem operand_relabel (vs : List Value) (i : Nat) :
    operand (vs.map (Value.relabel l)) i = operand vs i := by
  unfold operand
  rw [List.getElem?_map]
  cases vs[i]? with
  | none => rfl
  | some v => exact v.toNumber_relabel

theorem call_relabel (p : Primitive) (vs : List Value) :
    p.call (vs.map (Value.relabel l)) = (p.call vs).relabel l := by
  cases p <;>
    simp only [call, operand_relabel, List.foldl_map, Value.toNumber_relabel, Value.relabel]

end Primitive

namespace Bindings

def relabel (l : Relabelling) (bs : Bindings) : Bindings := bs.map fun b => (b.1, b.2.relabel l)

theorem insert_relabel (x : String) (v : Value) (bs : Bindings) :
    Bindings.insert x (v.relabel l) (bs.relabel l) =
      Bindings.relabel l (Bindings.insert x v bs) := by
  induction bs with
  | nil => rfl
  | cons b bs ih =>
    obtain ⟨y, w⟩ := b
    show Bindings.insert x (v.relabel l) ((y, w.relabel l) :: relabel l bs) = _
    rw [Bindings.insert, Bindings.insert]
    split
    · rfl
    · split
      · rfl
      · rw [ih]
        rfl

theorem find?_relabel (x : String) (bs : Bindings) :
    Bindings.find? x (bs.relabel l) = (Bindings.find? x bs).map (Value.relabel l) := by
  induction bs with
  | nil => rfl
  | cons b bs ih =>
    obtain ⟨y, w⟩ := b
    show Bindings.find? x ((y, w.relabel l) :: relabel l bs) = _
    rw [Bindings.find?, Bindings.find?]
    split
    · rfl
    · exact ih

end Bindings

def Frame.relabel (l : Relabelling) (f : Frame) : Frame :=
  { f with bindings := f.bindings.relabel l }

theorem Frame.define_relabel (f : Frame) (x : String) (v : Value) :
    (f.relabel l).define x (v.relabel l) = (f.define x v).relabel l := by
  simp only [Frame.define, Frame.relabel, Bindings.insert_relabel]

@[simp]
theorem Frame.view_relabel (f : Frame) : (f.relabel l).view = f.view := by
  simp [view, relabel, Bindings.relabel, Function.comp_def]

namespace Heap

/-- The heap with other places and spans in the closures that its frames hold. -/
def relabel (l : Relabelling) (h : Heap) : Heap :=
  { h with frames := h.frames.map (Frame.relabel l) }

theorem frame?_relabel (h : Heap) (f : FrameId) :
    (h.relabel l).frame? f = (h.frame? f).map (Frame.relabel l) :=
  Array.getElem?_map

@[simp]
theorem view_relabel (h : Heap) (f : FrameId) : (h.relabel l).view f = h.view f := by
  rw [view, frame?_relabel, view]
  cases h.frame? f with
  | none => rfl
  | some frame => exact frame.view_relabel

theorem lookup_relabel (h : Heap) (f : FrameId) (x : String) :
    (h.relabel l).lookup f x = (h.lookup f x).map (Value.relabel l) := by
  fun_induction Heap.lookup h f x with
  | case1 f hf =>
    rw [lookup, frame?_relabel, hf]
    rfl
  | case2 f frame hf v hv =>
    rw [lookup, frame?_relabel, hf]
    simp [Frame.relabel, Bindings.find?_relabel, hv]
  | case3 f frame hf hv hp =>
    rw [lookup, frame?_relabel, hf]
    simp [Frame.relabel, Bindings.find?_relabel, hv, hp]
  | case4 f frame hf hv p hp hlt ih =>
    rw [lookup, frame?_relabel, hf]
    simpa [Frame.relabel, Bindings.find?_relabel, hv, hp, hlt] using ih
  | case5 f frame hf hv p hp hlt =>
    rw [lookup, frame?_relabel, hf]
    simp [Frame.relabel, Bindings.find?_relabel, hv, hp, hlt]

theorem allocate_relabel (h : Heap) (f : Frame) :
    (h.relabel l).allocate (f.relabel l) = ((h.allocate f).1, (h.allocate f).2.relabel l) := by
  simp [allocate, relabel]

theorem define_relabel (h : Heap) (f : FrameId) (x : String) (v : Value) :
    (h.relabel l).define f x (v.relabel l) = (h.define f x v).relabel l := by
  have hframes : (h.frames.map (Frame.relabel l)).modify f.index (·.define x (v.relabel l)) =
      (h.frames.modify f.index (·.define x v)).map (Frame.relabel l) := by
    refine Array.ext_getElem? fun i => ?_
    simp only [Array.getElem?_modify, Array.getElem?_map]
    split
    · cases h.frames[i]? <;> simp [Frame.define_relabel]
    · rfl
  rw [define, define, relabel, relabel, hframes]

end Heap

/-! ## Calls -/

def Application.relabel (l : Relabelling) : Application → Application
  | .value v => .value (v.relabel l)
  | .enter c args => .enter (c.relabel l) (args.map (Value.relabel l))

theorem apply_relabel (vs : List Value) :
    apply (vs.map (Value.relabel l)) = (apply vs).map (Application.relabel l) := by
  match vs with
  | [] => rfl
  | .primitive p :: args =>
    show Except.ok (Application.value (p.call (args.map (Value.relabel l)))) = _
    rw [p.call_relabel]
    rfl
  | .closure c :: args =>
    have harity : (c.relabel l).arity = c.arity := rfl
    show apply (.closure (c.relabel l) :: args.map (Value.relabel l)) = _
    rw [apply, apply, List.length_map, harity]
    split <;> rfl
  | .number _ :: _ | .boolean _ :: _ | .void :: _ =>
    simp [apply, Value.relabel, Application.relabel, Except.map]
  | .list _ :: _ =>
    simp [apply, Value.relabel, Application.relabel, Except.map]

theorem Closure.bindings_relabel (c : Closure) (args : List Value) :
    (c.relabel l).bindings (args.map (Value.relabel l)) = (c.bindings args).relabel l := by
  have hfold : ∀ (ps : List (String × Value)) (bs : Bindings),
      (ps.map (Prod.map id (Value.relabel l))).foldl (fun bs p => Bindings.insert p.1 p.2 bs)
          (bs.relabel l) =
        Bindings.relabel l (ps.foldl (fun bs p => Bindings.insert p.1 p.2 bs) bs) := by
    intro ps
    induction ps with
    | nil => exact fun _ => rfl
    | cons p ps ih =>
      intro bs
      rw [List.map_cons, List.foldl_cons, List.foldl_cons, ← ih, ← Bindings.insert_relabel]
      rfl
  rw [bindings, List.zip_map_right]
  exact hfold _ []

theorem Closure.enter_relabel (c : Closure) (args : List Value) (h : Heap) :
    (c.relabel l).enter (args.map (Value.relabel l)) (h.relabel l) =
      ((c.enter args h).1, (c.enter args h).2.relabel l) := by
  rw [enter, bindings_relabel]
  exact h.allocate_relabel ⟨.call, some c.scope, c.bindings args⟩

/-! ## The machine -/

def Pending.relabel (l : Relabelling) : Pending → Pending
  | .annotate n => .annotate (n.relabel l)
  | .branch a b s => .branch (a.relabel l) (b.relabel l) s
  | .define x s => .define x s
  | .collect n vs s => .collect (n.relabel l) (vs.map (Value.relabel l)) s
  | .leave f => .leave f

def Control.relabel (l : Relabelling) : Control → Control
  | .evaluate n s => .evaluate (n.relabel l) s
  | .deliver v => .deliver (v.relabel l)
  | .finished v => .finished (v.relabel l)
  | .halted => .halted

def Fault.relabel (l : Relabelling) (f : Fault) : Fault := { f with node := f.node.relabel l }

def Answer.relabel (l : Relabelling) : Answer → Answer
  | .suspended n v => .suspended (n.relabel l) (v.relabel l)
  | .done v => .done (v.relabel l)
  | .failed f => .failed (f.relabel l)

def Event.relabel (l : Relabelling) : Event → Event
  | .entered f => .entered f
  | .left f => .left f
  | .suspended n v => .suspended (n.relabel l) (v.relabel l)

/-- The machine with other places and spans in its nodes. -/
def Machine.relabel (l : Relabelling) (m : Machine) : Machine where
  root := m.root.relabel l
  control := m.control.relabel l
  pending := m.pending.map (Pending.relabel l)
  frames := m.frames
  current := m.current.map (Node.relabel l)
  steps := m.steps

def Transition.relabel (l : Relabelling) : Transition → Transition
  | .proceed m h e => .proceed (m.relabel l) (h.relabel l) (e.map (Event.relabel l))
  | .pause a m h => .pause (a.relabel l) (m.relabel l) (h.relabel l)

def Machine.Advance.relabel (l : Relabelling) (a : Machine.Advance) : Machine.Advance where
  answer := a.answer.relabel l
  machine := a.machine.relabel l
  heap := a.heap.relabel l
  events := a.events.map (Event.relabel l)

namespace Machine

variable (h : Heap) (m : Machine)

theorem collectNext_relabel (n : Node) (vs : List Value) (s : FrameId) :
    (m.relabel l).collectNext (h.relabel l) (n.relabel l) (vs.map (Value.relabel l)) s =
      (m.collectNext h n vs s).relabel l := by
  unfold collectNext
  rw [Node.children_relabel, List.getElem?_map, List.length_map]
  cases n.children[vs.length]? with
  | some child => rfl
  | none =>
    rw [apply_relabel]
    rcases apply vs with cause | (v | ⟨c, args⟩)
    · rfl
    · rfl
    · simp only [Option.map_none, Except.map, Application.relabel, Closure.enter_relabel]
      rfl

theorem enterNode_relabel (n : Node) (s : FrameId) :
    (m.relabel l).enterNode (h.relabel l) (n.relabel l) s = (m.enterNode h n s).relabel l := by
  unfold enterNode
  rw [Form.ofNode_relabel]
  rcases Form.ofNode n with e | (x | x | ⟨c, a, b⟩ | ⟨x, b⟩ | ⟨ps, b⟩ | children)
  · rfl
  · rfl
  · simp only [Except.map, Form.relabel, Heap.lookup_relabel]
    cases h.lookup s x <;> rfl
  · rfl
  · rfl
  · rfl
  · exact collectNext_relabel h { m with pending := .annotate n :: m.pending } n [] s

theorem resume_relabel (v : Value) (p : Pending) :
    (m.relabel l).resume (h.relabel l) (v.relabel l) (p.relabel l) =
      (m.resume h v p).relabel l := by
  cases p with
  | annotate n => rfl
  | branch a b s =>
    simp only [Pending.relabel, resume, Value.isTruthy_relabel]
    split <;> rfl
  | define x s =>
    simp only [Pending.relabel, resume, Heap.define_relabel]
    rfl
  | collect n vs s =>
    have hvalues :
        vs.map (Value.relabel l) ++ [v.relabel l] = (vs ++ [v]).map (Value.relabel l) := by
      simp
    simp only [Pending.relabel, resume, hvalues]
    exact collectNext_relabel h m n (vs ++ [v]) s
  | leave f => rfl

theorem transition_relabel :
    (m.relabel l).transition (h.relabel l) = (m.transition h).relabel l := by
  obtain ⟨root, control, pending, frames, current, steps⟩ := m
  cases control with
  | evaluate n s =>
    exact enterNode_relabel h ⟨root, .evaluate n s, pending, frames, current, steps⟩ n s
  | finished v => rfl
  | halted => rfl
  | deliver v =>
    cases pending with
    | nil => rfl
    | cons p rest => exact resume_relabel h ⟨root, .deliver v, rest, frames, current, steps⟩ v p

/-- **A relabelled machine advances alike.** -/
theorem advance_relabel : (m.relabel l).advance (h.relabel l) = (m.advance h).relabel l := by
  fun_induction Machine.advance h m with
  | case1 h m a m' h' ht =>
    have hrelabel : (m.relabel l).transition (h.relabel l) =
        .pause (a.relabel l) (m'.relabel l) (h'.relabel l) := by
      rw [transition_relabel, ht]
      rfl
    rw [advance_of_pause hrelabel]
    cases a <;> rfl
  | case2 h m m' h' e ht rest ih =>
    have hrelabel : (m.relabel l).transition (h.relabel l) =
        .proceed (m'.relabel l) (h'.relabel l) (e.map (Event.relabel l)) := by
      rw [transition_relabel, ht]
      rfl
    rw [advance_of_proceed hrelabel, ih]
    cases e <;> rfl

end Machine

/-! ## Evaluation in one pass -/

def Trail.relabel (l : Relabelling) (t : Trail) : Trail where
  heap := t.heap.relabel l
  written := t.written.map (Prod.map (Node.relabel l) (Value.relabel l))

namespace Evaluation

variable {α β : Type}

/-- An evaluation with other places and spans, where `f` gives them to its value. -/
def relabelBy (l : Relabelling) (f : α → α) (r : Evaluation α) : Evaluation α :=
  r.map fun e => ((e.1.map f).mapError (Fault.relabel l), e.2.relabel l)

theorem relabelBy_andThen {f : α → α} {g : β → β} {next : α → Trail → Evaluation β}
    {next' : α → Trail → Evaluation β}
    (hnext : ∀ a t, next' (f a) (t.relabel l) = (next a t).relabelBy l g) (r : Evaluation α) :
    (r.relabelBy l f).andThen next' = (r.andThen next).relabelBy l g := by
  rcases r with _ | ⟨e | a, t⟩
  · rfl
  · rfl
  · exact hnext a t

theorem relabelBy_record (n : Node) (r : Evaluation Value) :
    record (n.relabel l) (r.relabelBy l (Value.relabel l)) =
      (record n r).relabelBy l (Value.relabel l) := by
  rcases r with _ | ⟨e | v, t⟩ <;> rfl

end Evaluation

open Evaluation

theorem evaluateEach_relabel {ev ev' : Node → Trail → Evaluation Value}
    (hev : ∀ n t, ev' (n.relabel l) (t.relabel l) = (ev n t).relabelBy l (Value.relabel l))
    (ns : List Node) (t : Trail) :
    evaluateEach ev' (ns.map (Node.relabel l)) (t.relabel l) =
      (evaluateEach ev ns t).relabelBy l (List.map (Value.relabel l)) := by
  induction ns generalizing t with
  | nil => rfl
  | cons n ns ih =>
    rw [List.map_cons, evaluateEach_cons, evaluateEach_cons, hev]
    refine relabelBy_andThen (fun v t => ?_) _
    rw [ih]
    exact relabelBy_andThen (fun vs t => rfl) _

/-- **A relabelled node is evaluated alike.** -/
theorem evaluate_relabel (depth : Nat) (n : Node) (s : FrameId) (t : Trail) :
    evaluate depth (n.relabel l) s (t.relabel l) =
      (evaluate depth n s t).relabelBy l (Value.relabel l) := by
  induction depth generalizing n s t with
  | zero => rfl
  | succ depth ih =>
    have hform : Form.ofNode (n.relabel l) = (Form.ofNode n).map (Form.relabel l) :=
      Form.ofNode_relabel n
    cases hf : Form.ofNode n with
    | error e =>
      rw [hf] at hform
      rw [evaluate_malformed hform, evaluate_malformed hf]
      rfl
    | ok form =>
      rw [hf] at hform
      cases form with
      | number x =>
        rw [evaluate_number hform, evaluate_number hf, ← relabelBy_record]
        rfl
      | identifier x =>
        rw [evaluate_identifier hform, evaluate_identifier hf, ← relabelBy_record]
        have hvalue : (t.relabel l).heap.lookup s x = (t.heap.lookup s x).map (Value.relabel l) :=
          t.heap.lookup_relabel s x
        rw [hvalue]
        cases t.heap.lookup s x <;> rfl
      | conditional c a b =>
        rw [evaluate_conditional hform, evaluate_conditional hf, ← relabelBy_record, ih]
        congr 1
        refine relabelBy_andThen (fun v t => ?_) _
        rw [Value.isTruthy_relabel, ← ih]
        split <;> rfl
      | definition x b =>
        rw [evaluate_definition hform, evaluate_definition hf, ← relabelBy_record, ih]
        congr 1
        refine relabelBy_andThen (fun v t => ?_) _
        show some (Except.ok Value.void, _) = _
        rw [show (t.relabel l).heap = t.heap.relabel l from rfl, Heap.define_relabel]
        rfl
      | abstraction ps b =>
        rw [evaluate_abstraction hform, evaluate_abstraction hf, ← relabelBy_record]
        rfl
      | application children =>
        rw [evaluate_application hform, evaluate_application hf, ← relabelBy_record,
          evaluateEach_relabel fun n t => ih n s t]
        congr 1
        refine relabelBy_andThen (fun vs t => ?_) _
        rw [applyAll, applyAll, apply_relabel]
        rcases apply vs with cause | (v | ⟨c, args⟩)
        · rfl
        · rfl
        · have henter : (c.relabel l).enter (args.map (Value.relabel l)) (t.relabel l).heap =
              ((c.enter args t.heap).1, (c.enter args t.heap).2.relabel l) :=
            c.enter_relabel args t.heap
          simp only [Except.map, Application.relabel, henter]
          exact ih c.body _ ⟨(c.enter args t.heap).2, t.written⟩

end StepLisp
