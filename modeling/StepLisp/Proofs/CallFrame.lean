import StepLisp.Proofs.Canonical
import StepLisp.Proofs.Evaluation

/-!
# The frame of a call

A closure is called with as many arguments as it has parameters, or not at all. A call adds one
frame inside the frame that the closure was created in. A parameter may be repeated, and then the
argument at its last place counts.

* `LastAt`, the last place of a name in a list, with **`lastGiven_zip`**: what a name is given last
  when names and values are paired up;
* `Heap.lookup_allocate` and `Heap.lookup_inner`: what is seen from the older frames and from a new
  one;
* `Closure.Framed`, a heap with the frame of a call, and `Closure.framed_enter`;
* **`Closure.call_laws`**: when a call is refused, and what it does if it is not, in the machine and
  in the recursive evaluator.
-/

namespace StepLisp

/-! ## The last place of a name -/

/-- The name `x` stands in `names` at the place `i`, and at no later one. -/
def LastAt (x : String) (names : List String) (i : Nat) : Prop :=
  names[i]? = some x ∧ ∀ j, i < j → names[j]? ≠ some x

section LastPlace

variable {x y : String} {v : Value} {names : List String} {i : Nat}

theorem LastAt.lt (hi : LastAt x names i) : i < names.length :=
  (List.getElem?_eq_some_iff.mp hi.1).1

theorem lastAt_concat_self : LastAt x (names ++ [x]) i ↔ i = names.length := by
  constructor
  · rintro ⟨hi, hlater⟩
    have hlt := (List.getElem?_eq_some_iff.mp hi).1
    rw [List.length_append, List.length_singleton] at hlt
    by_contra hne
    exact hlater names.length (by omega) List.getElem?_concat_length
  · rintro rfl
    refine ⟨List.getElem?_concat_length, fun j hj => ?_⟩
    rw [List.getElem?_eq_none (by simp; omega)]
    simp

theorem lastAt_concat_of_ne (hne : y ≠ x) :
    LastAt x (names ++ [y]) i ↔ LastAt x names i := by
  have hsame : ∀ j : Nat, (names ++ [y])[j]? = some x ↔ names[j]? = some x := by
    intro j
    rcases lt_trichotomy j names.length with hj | rfl | hj
    · rw [List.getElem?_append_left hj]
    · simp [hne]
    · rw [List.getElem?_eq_none (by simp; omega), List.getElem?_eq_none hj.le]
  simp only [LastAt, ne_eq, hsame]

theorem lastGiven_eq_some {ds : List (String × Value)} : lastGiven ds x = some v ↔
    ∃ i, LastAt x (ds.map (·.1)) i ∧ (ds.map (·.2))[i]? = some v := by
  induction ds using List.reverseRecOn with
  | nil => simp [lastGiven]
  | append_singleton ds d ih =>
    obtain ⟨y, w⟩ := d
    rw [lastGiven_concat, List.map_append, List.map_append, List.map_singleton, List.map_singleton]
    by_cases hxy : x = y
    · subst hxy
      simp [lastAt_concat_self]
    · rw [if_neg hxy, ih]
      simp only [lastAt_concat_of_ne (Ne.symm hxy)]
      refine exists_congr fun i => and_congr_right fun hi => ?_
      rw [List.getElem?_append_left (by simpa using hi.lt)]

/-- **What a name is given last** if names and values are paired up. -/
theorem lastGiven_zip {values : List Value} (hlen : values.length = names.length) :
    lastGiven (names.zip values) x = some v ↔ ∃ i, LastAt x names i ∧ values[i]? = some v := by
  rw [lastGiven_eq_some, List.map_fst_zip hlen.ge, List.map_snd_zip hlen.le]

end LastPlace

/-! ## Names seen from a new frame -/

namespace Heap

variable {h : Heap} {s : FrameId}

theorem lookup_allocate (hs : (h.frame? s).isSome) (new : Frame) (x : String) :
    (h.allocate new).2.lookup s x = h.lookup s x := by
  have hkept : ∀ s, (h.frame? s).isSome → (h.allocate new).2.frame? s = h.frame? s := by
    intro s hs
    rw [frame?_allocate, if_neg]
    rintro rfl
    rw [frame?_fresh] at hs
    cases hs
  fun_induction h.lookup s x with
  | case1 s hnone => simp [hnone] at hs
  | case2 s frame hf v hv =>
    rw [lookup, hkept s hs, hf]
    simp only [hv]
  | case3 s frame hf hv hp =>
    rw [lookup, hkept s hs, hf]
    simp only [hv, hp]
  | case4 s frame hf hv p hp hlt ih =>
    rw [lookup, hkept s hs, hf]
    simp only [hv, hp, if_pos hlt]
    -- the parent is older, so it is there
    exact ih (isSome_frame?.mpr (hlt.trans (isSome_frame?.mp hs)))
  | case5 s frame hf hv p hp hlt =>
    rw [lookup, hkept s hs, hf]
    simp only [hv, hp, if_neg hlt]

theorem lookup_inner (h : Heap) (kind : FrameKind) (p : FrameId) (bs : Bindings) (x : String) :
    (h.allocate ⟨kind, some p, bs⟩).2.lookup (h.allocate ⟨kind, some p, bs⟩).1 x =
      (bs.find? x).or (h.lookup p x) := by
  rw [lookup, frame?_allocate, if_pos rfl]
  dsimp only
  rcases bs.find? x with _ | v
  · rw [Option.none_or]
    by_cases hp : (h.frame? p).isSome
    · exact (if_pos (isSome_frame?.mp hp)).trans (lookup_allocate hp _ x)
    · rw [isSome_frame?] at hp
      have hnone : h.lookup p x = none := by
        rw [lookup, frame?, Array.getElem?_eq_none (not_lt.mp hp)]
      rw [hnone]
      exact if_neg hp
  · rfl

end Heap

/-! ## Calls -/

namespace Closure

/-- The heap `h'` is the heap `h` with the frame `f` for a call of `c`. -/
structure Framed (c : Closure) (args : List Value) (h : Heap) (f : FrameId) (h' : Heap) :
    Prop where
  fresh : h.frame? f = none
  /-- The frame binds each parameter once, to the argument at its last place. -/
  created : ∃ bs : Bindings, h'.frame? f = some ⟨.call, some c.scope, bs⟩ ∧
    (bs.map (·.1)).Nodup ∧ (∀ x, x ∈ bs.map (·.1) ↔ x ∈ c.params) ∧
    ∀ x v, (x, v) ∈ bs ↔ ∃ i, LastAt x c.params i ∧ args[i]? = some v
  param : ∀ x ∈ c.params, ∃ i v,
    LastAt x c.params i ∧ args[i]? = some v ∧ h'.lookup f x = some v
  /-- What is no parameter is looked up where the closure was created. -/
  free : ∀ x, x ∉ c.params → h'.lookup f x = h.lookup c.scope x
  others : ∀ g, g ≠ f → h'.frame? g = h.frame? g
  lookups : ∀ g x, (h.frame? g).isSome → h'.lookup g x = h.lookup g x
  next : h'.next = h.next

variable {c : Closure} {args : List Value}

theorem bindings_eq (c : Closure) (args : List Value) :
    c.bindings args = .ofDefinitions (c.params.zip args) := rfl

/-- **Entering a closure** adds the frame of the call. -/
theorem framed_enter (hlen : args.length = c.params.length) (h : Heap) :
    c.Framed args h (c.enter args h).1 (c.enter args h).2 := by
  have hnames : ∀ x, x ∈ (c.params.zip args).map (·.1) ↔ x ∈ c.params := by
    rw [List.map_fst_zip hlen.ge]
    exact fun x => Iff.rfl
  have hlookup : ∀ x, (c.enter args h).2.lookup (c.enter args h).1 x =
      (lastGiven (c.params.zip args) x).or (h.lookup c.scope x) := fun x => by
    rw [enter, Heap.lookup_inner, bindings_eq, Bindings.find?_ofDefinitions]
  refine ⟨Heap.frame?_fresh h _, ⟨c.bindings args, ?_, ?_, ?_, ?_⟩, ?_, ?_, ?_, ?_, rfl⟩
  · rw [enter, Heap.frame?_allocate, if_pos rfl]
  · rw [List.Nodup, List.pairwise_map, bindings_eq]
    exact (Bindings.increasing_ofDefinitions _).imp ne_of_lt
  · intro x
    rw [bindings_eq, Bindings.mem_names_ofDefinitions, hnames]
  · intro x v
    rw [bindings_eq, Bindings.mem_ofDefinitions, lastGiven_zip hlen]
  · intro x hx
    obtain ⟨v, hv⟩ := Option.isSome_iff_exists.mp (isSome_lastGiven.mpr ((hnames x).mpr hx))
    obtain ⟨i, hi, hvalue⟩ := (lastGiven_zip hlen).mp hv
    refine ⟨i, v, hi, hvalue, ?_⟩
    rw [hlookup, hv, Option.some_or]
  · intro x hx
    have hnone : lastGiven (c.params.zip args) x = none := by
      rw [← Option.not_isSome_iff_eq_none, isSome_lastGiven, hnames]
      exact hx
    rw [hlookup, hnone, Option.none_or]
  · intro g hg
    rw [enter, Heap.frame?_allocate]
    exact if_neg hg
  · intro g x hg
    exact Heap.lookup_allocate hg _ x

theorem apply_closure (c : Closure) (args : List Value) : apply (.closure c :: args) =
    if args.length = c.params.length then .ok (.enter c args)
    else .error (.arity c.params.length args.length) := rfl

/-- **The call of a closure**, in any heap, is refused iff the number of arguments is wrong, without
a frame; otherwise its body is evaluated in a new frame, inside of the frame that the closure was
created in, which binds just the parameters. -/
theorem call_laws (c : Closure) (args : List Value) (h : Heap) :
    (∀ cause, apply (.closure c :: args) = .error cause ↔
      args.length ≠ c.params.length ∧ cause = .arity c.params.length args.length) ∧
    (args.length ≠ c.params.length →
      (∀ (m : Machine) (n : Node) (s : FrameId), n.children[args.length + 1]? = none →
        m.collectNext h n (.closure c :: args) s =
          .pause (.failed ⟨.arity c.params.length args.length, n⟩)
            { m with control := .halted } h) ∧
      ∀ (depth : Nat) (n : Node) (s : FrameId) (children : List Node) (t : Trail)
        (written : List (Node × Value)), Form.ofNode n = .ok (.application children) →
        evaluateEach (fun n => evaluate depth n s) children t =
          some (.ok (.closure c :: args), ⟨h, written⟩) →
        evaluate (depth + 1) n s t =
          some (.error ⟨.arity c.params.length args.length, n⟩, ⟨h, written⟩)) ∧
    (args.length = c.params.length → ∃ f h', c.Framed args h f h' ∧
      apply (.closure c :: args) = .ok (.enter c args) ∧
      (∀ (m : Machine) (n : Node) (s : FrameId), n.children[args.length + 1]? = none →
        m.collectNext h n (.closure c :: args) s =
          .proceed
            { m with
              control := .evaluate c.body f
              pending := .leave f :: m.pending
              frames := m.frames.push f } h' (some (.entered f))) ∧
      ∀ (depth : Nat) (n : Node) (s : FrameId) (children : List Node) (t : Trail)
        (written : List (Node × Value)), Form.ofNode n = .ok (.application children) →
        evaluateEach (fun n => evaluate depth n s) children t =
          some (.ok (.closure c :: args), ⟨h, written⟩) →
        evaluate (depth + 1) n s t =
          Evaluation.record n (evaluate depth c.body f ⟨h', written⟩)) := by
  refine ⟨fun cause => ?_, fun hlen => ?_, fun hlen => ?_⟩
  · rw [apply_closure]
    by_cases hlen : args.length = c.params.length
    · simp [hlen]
    · simp [hlen, eq_comm]
  · have happly := (apply_closure c args).trans (if_neg hlen)
    refine ⟨fun m n s hn => ?_, fun depth n s children t written hf heach => ?_⟩
    · simp only [Machine.collectNext, List.length_cons, hn, happly]
      rfl
    · rw [evaluate_application hf, heach, Evaluation.andThen_ok, applyAll, happly]
      rfl
  · have happly := (apply_closure c args).trans (if_pos hlen)
    refine ⟨_, _, framed_enter hlen h, happly, fun m n s hn => ?_,
      fun depth n s children t written hf heach => ?_⟩
    · simp only [Machine.collectNext, List.length_cons, hn, happly]
    · rw [evaluate_application hf, heach, Evaluation.andThen_ok, applyAll, happly]

/-- A closure of the global frame with a repeated parameter. From the frame of its call one sees the
last argument under that name, and the primitives further outwards. -/
theorem call_laws_repeated : ∃ (c : Closure) (h : Heap), c.params = ["x", "y", "x"] ∧
    (∀ u, apply [.closure c, u] = .error (.arity 3 1)) ∧
    ∀ u v w, ∃ f h', c.Framed [u, v, w] h f h' ∧ h'.lookup f "x" = some w ∧
      h'.lookup f "y" = some v ∧ h'.lookup f "+" = some (.primitive .add) := by
  refine ⟨⟨default, ["x", "y", "x"], default, ⟨1⟩⟩, Heap.empty.openSession.2.2, rfl, fun u => ?_,
    fun u v w => ?_⟩
  · exact ((call_laws _ [u] Heap.empty.openSession.2.2).1 _).mpr ⟨by simp, rfl⟩
  · obtain ⟨-, -, hcall⟩ := call_laws ⟨default, ["x", "y", "x"], default, ⟨1⟩⟩ [u, v, w]
      Heap.empty.openSession.2.2
    obtain ⟨f, h', hf, -⟩ := hcall rfl
    refine ⟨f, h', hf, ?_, ?_, ?_⟩
    · obtain ⟨i, a, hi, ha, hx⟩ := hf.param "x" (by simp)
      obtain rfl := lastAt_concat_self.mp (show LastAt "x" (["x", "y"] ++ ["x"]) i from hi)
      exact hx.trans ha.symm
    · obtain ⟨i, a, hi, ha, hy⟩ := hf.param "y" (by simp)
      have hi := (lastAt_concat_of_ne (by decide)).mp
        (show LastAt "y" (["x", "y"] ++ ["x"]) i from hi)
      obtain rfl := lastAt_concat_self.mp (show LastAt "y" (["x"] ++ ["y"]) i from hi)
      exact hy.trans ha.symm
    · rw [hf.free "+" (by simp), Heap.lookup]
      change Heap.empty.openSession.2.2.lookup ⟨0⟩ "+" = _
      rw [Heap.lookup]
      rfl

end Closure

end StepLisp
