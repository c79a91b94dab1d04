import StepLisp.CommandLine
import StepLisp.Proofs.Agreement
import StepLisp.Proofs.SameWords
import StepLisp.Proofs.Sequence
import StepLisp.Proofs.Spelling
import StepLisp.Proofs.Words

/-!
# Programs in parts

An interactive session reads and runs one text after the other. A program whose forms are spread
over several texts comes to the same end as the program in one text, unless one of the texts takes
its forms together in another way: by the name of a special form at its beginning, or because its
first form has a value that can be called.

The nodes of the one text have other places and spans than those of the texts, and so have the
bodies of the closures, but the same frames are created in the same order.

* `Repl.Interprets`, what becomes of a text, and `Repl.InterpretsAll`, of several texts one after
  the other;
* `Relabelling.plain` and `Spells.exists_read`: what has the words of some nodes is read as these
  nodes, up to places and spans;
* `Tree.Part`, a text that does not begin with the name of a special form, and `Repl.UncalledAll`,
  with `Repl.exists_ends`: what becomes of such a text;
* `Repl.ends_of_interpretsAll` and `Repl.interpretsAll_of_ends`: texts come to the end of their
  forms;
* **`Repl.parts_agree_whole`**: a program in parts comes to the same end as in one piece.
-/

namespace StepLisp

/-! ## Texts of an interactive session -/

namespace Repl

/-- Reads a text as the next program and runs it, with at most `limit` advances. -/
def interpret (r : Repl) (source : String) (limit : Nat) :
    Option (Except Complaint Value × Repl) :=
  match r.session.parse r.programs source with
  | (.error e, session) => some (.error (.syntaxError e), ⟨session, r.results, r.programs + 1⟩)
  | (.ok t, session) =>
    ((Stepper.start t session r.results).run limit).map fun e =>
      (e.1.mapError .execution, ⟨e.2.session, e.2.results, r.programs + 1⟩)

/-- The line that answers a text. -/
def answerLine : Except Complaint Value → String
  | .ok v => v.text ++ "\n"
  | .error c => c.line

theorem respond_eq (r : Repl) (line : String) (limit : Nat) :
    r.respond line limit = (r.interpret (String.ofList (trimBlank line.toList)) limit).map fun e =>
      (answerLine e.1, e.2) := by
  obtain ⟨session, results, programs⟩ := r
  unfold respond interpret
  dsimp only
  rcases session.parse programs (String.ofList (trimBlank line.toList)) with ⟨e | t, session'⟩
  · rfl
  · dsimp only
    rcases (Stepper.start t session' results).run limit with _ | ⟨f | v, s⟩ <;> rfl

/-- The text comes to an end, with some number of advances. -/
def Interprets (r : Repl) (source : String) (o : Except Complaint Value) (r' : Repl) : Prop :=
  ∃ limit, r.interpret source limit = some (o, r')

/-- Texts come to their ends one after the other, up to the first that has no value; the value of
all are their values. -/
inductive InterpretsAll : Repl → List String → Except Complaint (List Value) → Repl → Prop where
  | nil {r : Repl} : InterpretsAll r [] (.ok []) r
  | failed {r r' : Repl} {p : String} {ps : List String} {c : Complaint}
      (hp : r.Interprets p (.error c) r') : InterpretsAll r (p :: ps) (.error c) r'
  | next {r r' r'' : Repl} {p : String} {ps : List String} {v : Value}
      {o : Except Complaint (List Value)} (hp : r.Interprets p (.ok v) r')
      (hps : InterpretsAll r' ps o r'') : InterpretsAll r (p :: ps) (o.map (v :: ·)) r''

end Repl

/-! ## Forms with the same words -/

/-- Takes the places and the spans off. -/
def Relabelling.plain : Relabelling := ⟨fun _ => default, fun _ => default⟩

namespace Node

mutual

theorem plain_unplaced : ∀ n : Node, n.unplaced.relabel .plain = n.relabel .plain
  | .atom _ _ _ => rfl
  | .expression _ _ children => by
    rw [unplaced, relabel, relabel, plain_unplacedAll children]
    rfl

theorem plain_unplacedAll : ∀ ns : List Node,
    relabelAll .plain (unplacedAll ns) = relabelAll .plain ns
  | [] => rfl
  | n :: ns => by rw [unplacedAll, relabelAll, relabelAll, plain_unplaced n, plain_unplacedAll ns]

end

theorem plain_eq_of_unplacedAll {ns ms : List Node} (h : unplacedAll ns = unplacedAll ms) :
    ns.map (relabel .plain) = ms.map (relabel .plain) := by
  rw [← relabelAll_eq, ← relabelAll_eq, ← plain_unplacedAll, h, plain_unplacedAll]

end Node

section Words

variable {ns ms : List Node} {ts us : List Token}

theorem Spells.head_text (hs : Spells ns ts) {x : String}
    (hx : ns.head?.bind Node.identifier? = some x) : (ts.map Token.text).head? = some x := by
  cases hs with
  | nil => cases hx
  | atom ht hc _ =>
    cases hc with
    | number _ => cases hx
    | identifier _ => exact hx
  | expression => cases hx

theorem Spells.head_opening (hs : Spells ns ts) {n : Node} (hn : ns.head? = some n)
    (hc : n.children ≠ []) : (ts.map Token.text).head? = some "(" := by
  cases hs with
  | nil => cases hn
  | atom _ _ _ =>
    cases hn
    exact absurd rfl hc
  | expression ho _ _ _ => exact congrArg some (Token.kind_eq_opening.mp ho)

/-- Tokens with the texts of tokens that spell some nodes are read as these nodes, up to places and
spans. -/
theorem Spells.exists_read (hs : Spells ns ts) (h : us.map Token.text = ts.map Token.text)
    (tree : Nat) (first : NodeId) : ∃ t, (Tree.ofTokens tree first us).outcome = .ok t ∧
      t.root.children.map (Node.relabel .plain) = ns.map (Node.relabel .plain) := by
  obtain ⟨t, ht, hforms⟩ := Tree.ofTokens_of_spells hs tree first
  have hmatch : List.Forall₂ (Token.Matches Eq) ts us :=
    Token.matches_of_text_eq (fun _ => rfl) h
  obtain ⟨u, hu, halike⟩ := Tree.ofTokens_alike hmatch ht
  refine ⟨u, hu, ?_⟩
  rw [← Node.plain_eq_of_unplacedAll hforms]
  exact (halike.children.relabel_eq fun _ _ => rfl).symm

end Words

/-! ## The parts of a program -/

/-- The names of the special forms. -/
def Form.keywords : List String := ["if", "define", "lambda"]

theorem Form.ofNode_of_head {place : Place} {span : Span} {ns : List Node}
    (h : ∀ name ∈ keywords, ns.head?.bind Node.identifier? ≠ some name) :
    Form.ofNode (.expression place span ns) = .ok (.application ns) := by
  rw [ofNode]
  split
  · rename_i hk
    exact absurd hk (h _ (by decide))
  · rename_i hk
    exact absurd hk (h _ (by decide))
  · rename_i hk
    exact absurd hk (h _ (by decide))
  · rfl

namespace Tree

/-- A text that holds some forms of a program, and does not begin with the name of a special
form. -/
structure Part (source : String) : Prop where
  program : ∃ t, parse source = .ok t
  head : ∀ name ∈ Form.keywords, (words source.toList).head? ≠ some name

/-- The forms of a text. -/
def forms (source : String) : List Node :=
  match parse source with
  | .ok t => t.root.children
  | .error _ => []

theorem part_of_defined {source : String}
    (hd : ((forms source).head?.bind Node.defined?).isSome) : Part source := by
  cases ht : parse source with
  | error e =>
    rw [forms, ht] at hd
    cases hd
  | ok t =>
    obtain ⟨y, hy⟩ := Option.isSome_iff_exists.mp hd
    obtain ⟨n, hn, hd⟩ := Option.bind_eq_some_iff.mp hy
    rw [forms, ht] at hn
    obtain ⟨b, hform⟩ := Node.ofNode_of_defined hd
    obtain ⟨head, name, -, -, hchildren⟩ := Form.ofNode_eq_definition hform
    have hfirst : (words source.toList).head? = some "(" :=
      (spells_root ht).head_opening hn (by simp [hchildren])
    refine ⟨⟨t, ht⟩, fun name hname => ?_⟩
    rw [hfirst]
    rintro ⟨⟩
    exact absurd hname (by decide)

end Tree

namespace Repl

variable {r r' : Repl} {p : String} {t : Tree}

/-- The first form of a text, if there is one, does not evaluate to a value that can be called, in
the session as it is. -/
def Uncalled (r : Repl) (source : String) : Prop :=
  ∀ t, (r.session.parse r.programs source).1 = .ok t →
    r.session.heap.Uncalled r.session.global t.root.children

/-- No text begins with a form whose value can be called, at the time when the texts before it have
their values. -/
def UncalledAll : Repl → List String → Prop
  | _, [] => True
  | r, p :: ps => r.Uncalled p ∧ ∀ v r', r.Interprets p (.ok v) r' → r'.UncalledAll ps

theorem exists_parse (hp : Tree.Part p) (r : Repl) : ∃ t,
    (r.session.parse r.programs p).1 = .ok t ∧
      t.root.children.map (Node.relabel .plain) = (Tree.forms p).map (Node.relabel .plain) ∧
      Form.ofNode t.root = .ok (.application t.root.children) := by
  obtain ⟨u, hu⟩ := hp.program
  have hforms : Tree.forms p = u.root.children := by rw [Tree.forms, hu]
  obtain ⟨t, ht, hplain⟩ := (Tree.spells_root hu).exists_read rfl r.programs r.session.next
  refine ⟨t, ht, hforms ▸ hplain, ?_⟩
  rw [Tree.root_of_ofTokens ht]
  refine Form.ofNode_of_head fun name hname hhead => hp.head name hname ?_
  exact (Tree.spells_root ht).head_text hhead

section Parse

variable (ht : (r.session.parse r.programs p).1 = .ok t)

include ht

theorem interpret_of_parse (limit : Nat) : r.interpret p limit =
    ((Stepper.start t (r.session.parse r.programs p).2 r.results).run limit).map fun e =>
      (e.1.mapError .execution, ⟨e.2.session, e.2.results, r.programs + 1⟩) := by
  have hparse : r.session.parse r.programs p = (.ok t, (r.session.parse r.programs p).2) :=
    Prod.ext ht rfl
  rw [interpret, hparse]

theorem interprets_of_evaluate {depth : Nat} {o : Except Fault Value} {trail : Trail}
    (he : evaluate depth t.root r.session.global ⟨r.session.heap, []⟩ = some (o, trail)) :
    ∃ r', r.Interprets p (o.mapError .execution) r' ∧ r'.session.heap = trail.heap := by
  have hpass : (r.session.parse r.programs p).2.evaluate t r.results depth = some (o, _, _) :=
    Stepper.evaluate_eq_some.mpr ⟨trail, he, rfl, rfl⟩
  obtain ⟨limit, st, hrun, hsession, -⟩ := Stepper.run_of_evaluate hpass
  refine ⟨⟨st.session, st.results, r.programs + 1⟩, ⟨limit, ?_⟩, by rw [hsession]; rfl⟩
  rw [interpret_of_parse ht, hrun]
  rfl

theorem evaluate_of_interprets {o : Except Complaint Value} (hr : r.Interprets p o r') :
    ∃ depth o₁ trail,
      evaluate depth t.root r.session.global ⟨r.session.heap, []⟩ = some (o₁, trail) ∧
        o = o₁.mapError .execution ∧ r'.session.heap = trail.heap ∧
        r'.session.global = r.session.global := by
  obtain ⟨limit, hr⟩ := hr
  rw [interpret_of_parse ht] at hr
  obtain ⟨⟨o₁, st⟩, hrun, heq⟩ := Option.map_eq_some_iff.mp hr
  cases heq
  obtain ⟨depth, trail, he, hsession⟩ := Stepper.evaluate_of_run hrun
  refine ⟨depth, o₁, trail, he, rfl, ?_⟩
  show st.session.heap = trail.heap ∧ st.session.global = r.session.global
  rw [hsession]
  exact ⟨rfl, rfl⟩

end Parse

theorem uncalled_of_defined (hd : ((Tree.forms p).head?.bind Node.defined?).isSome) (r : Repl) :
    r.Uncalled p := by
  intro t ht
  obtain ⟨t', ht', hplain, -⟩ := exists_parse (Tree.part_of_defined hd) r
  obtain rfl : t' = t := Except.ok.inj (ht'.symm.trans ht)
  have hforms : r.session.heap.Uncalled r.session.global (Tree.forms p) :=
    Heap.uncalled_of_defined hd _ _
  have hheads : t'.root.children.head?.map (Node.relabel .plain) =
      (Tree.forms p).head?.map (Node.relabel .plain) := by
    rw [← List.head?_map, ← List.head?_map, hplain]
  exact hforms.transfer rfl hheads

/-- **What becomes of a part** whose first form has no value that can be called: its forms come to
their end, and the value of the part is the list of theirs. -/
theorem exists_ends (hp : Tree.Part p) (hu : r.Uncalled p) : ∃ ns : List Node,
    ns.map (Node.relabel .plain) = (Tree.forms p).map (Node.relabel .plain) ∧
    r.session.heap.Uncalled r.session.global ns ∧
    (∀ o h', r.session.heap.Ends r.session.global ns o h' →
      ∃ r', r.Interprets p ((o.map .list).mapError .execution) r' ∧ r'.session.heap = h') ∧
    ∀ o r', r.Interprets p o r' → r'.session.global = r.session.global ∧
      ∃ o₁, r.session.heap.Ends r.session.global ns o₁ r'.session.heap ∧
        o = (o₁.map .list).mapError .execution := by
  obtain ⟨t, ht, hplain, hform⟩ := exists_parse hp r
  refine ⟨t.root.children, hplain, hu t ht, fun o h' he => ?_, fun o r' hr => ?_⟩
  · obtain ⟨depth, written, he⟩ := (evaluate_iff_ends hform (hu t ht) _).mpr ⟨o, he, rfl⟩
    exact interprets_of_evaluate ht he
  · obtain ⟨depth, o₁, ⟨h', written⟩, he, rfl, hheap, hglobal⟩ := evaluate_of_interprets ht hr
    obtain ⟨o₂, hends, rfl⟩ := (evaluate_iff_ends hform (hu t ht) _).mp ⟨depth, written, he⟩
    exact ⟨hglobal, o₂, hheap ▸ hends, rfl⟩

/-! ## All parts together -/

section Together

variable {r r' : Repl} {k k' : Heap} {ns : List Node} {ps : List String}
  {o : Except Fault (List Value)} {os : Except Complaint (List Value)}

/-- The end of some nodes, and the end of the texts that hold them, up to places and spans. -/
inductive SameEnd : Except Fault (List Value) → Except Complaint (List Value) → Prop where
  | finished {ws : List Value} {vss : List (List Value)}
      (h : ws.map (Value.relabel .plain) = vss.flatten.map (Value.relabel .plain)) :
      SameEnd (.ok ws) (.ok (vss.map .list))
  | failed {f g : Fault} (h : f.relabel .plain = g.relabel .plain) :
      SameEnd (.error f) (.error (.execution g))

theorem SameEnd.next (hs : SameEnd o os) {ws vs : List Value}
    (h : ws.map (Value.relabel .plain) = vs.map (Value.relabel .plain)) :
    SameEnd (o.map (ws ++ ·)) (os.map (.list vs :: ·)) := by
  cases hs with
  | @finished ws' vss hs =>
    have hvalues : (ws ++ ws').map (Value.relabel .plain) =
        ((vs :: vss).flatten).map (Value.relabel .plain) := by
      rw [List.map_append, List.flatten_cons, List.map_append, h, hs]
    exact .finished hvalues
  | failed hs => exact .failed hs

/-- The forms of some texts, and nodes that are the same up to places and spans. -/
def Hold (ps : List String) (ns : List Node) : Prop :=
  ns.map (Node.relabel .plain) = (ps.flatMap Tree.forms).map (Node.relabel .plain)

theorem hold_cons {p : String} (h : Hold (p :: ps) ns) : ∃ ns₁ ns₂, ns = ns₁ ++ ns₂ ∧
    ns₁.map (Node.relabel .plain) = (Tree.forms p).map (Node.relabel .plain) ∧ Hold ps ns₂ := by
  rw [Hold, List.flatMap_cons, List.map_append] at h
  obtain ⟨ns₁, ns₂, rfl, h₁, h₂⟩ := List.map_eq_append_iff.mp h
  exact ⟨ns₁, ns₂, rfl, h₁, h₂⟩

theorem uncalled_of_parts (hps : ∀ p ∈ ps, Tree.Part p) (hu : r.UncalledAll ps)
    (hk : k.relabel .plain = r.session.heap.relabel .plain) (hns : Hold ps ns) :
    k.Uncalled r.session.global ns := by
  induction ps generalizing r k ns with
  | nil =>
    rw [List.map_eq_nil_iff.mp hns]
    rintro _ _ _ _ ⟨⟩
  | cons p ps ih =>
    obtain ⟨hp, hps⟩ := List.forall_mem_cons.mp hps
    obtain ⟨ms, hms, huncalled, hends, hglobal⟩ := exists_ends hp hu.1
    obtain ⟨ns₁, ns₂, rfl, hns₁, hns₂⟩ := hold_cons hns
    cases ms with
    | nil =>
      -- an empty text leaves everything as it was
      obtain rfl : ns₁ = [] := List.map_eq_nil_iff.mp (hns₁.trans hms.symm)
      obtain ⟨r', hr, hheap⟩ := hends _ _ (Heap.ends_nil _ _)
      rw [← (hglobal _ _ hr).1]
      exact ih hps (hu.2 _ _ hr) (hk.trans (by rw [hheap])) hns₂
    | cons m ms =>
      have hheads : (ns₁ ++ ns₂).head?.map (Node.relabel .plain) =
          (m :: ms).head?.map (Node.relabel .plain) := by
        rw [← List.head?_map, ← List.head?_map, List.map_append, hns₁, ← hms]
        rfl
      exact huncalled.transfer hk hheads

/-- **The texts come to the end of their forms.** -/
theorem ends_of_interpretsAll (hps : ∀ p ∈ ps, Tree.Part p) (hu : r.UncalledAll ps)
    (hk : k.relabel .plain = r.session.heap.relabel .plain) (hns : Hold ps ns)
    (hr : r.InterpretsAll ps os r') : ∃ o k', k.Ends r.session.global ns o k' ∧ SameEnd o os ∧
      k'.relabel .plain = r'.session.heap.relabel .plain ∧
      r'.session.global = r.session.global := by
  induction hr generalizing k ns with
  | nil =>
    rw [List.map_eq_nil_iff.mp hns]
    exact ⟨.ok [], k, Heap.ends_nil _ _, @SameEnd.finished [] [] rfl, hk, rfl⟩
  | failed hr =>
    obtain ⟨hp, hps⟩ := List.forall_mem_cons.mp hps
    obtain ⟨ms, hms, -, -, hends⟩ := exists_ends hp hu.1
    obtain ⟨ns₁, ns₂, rfl, hns₁, -⟩ := hold_cons hns
    obtain ⟨hglobal, o, ho, heq⟩ := hends _ _ hr
    obtain ⟨o', k', he, hlabel, hk'⟩ := ho.transfer hk (hns₁.trans hms.symm)
    rcases o with f | vs <;> cases heq
    obtain ⟨g, rfl, hg⟩ := relabelEnd_eq_error hlabel
    exact ⟨_, k', he.append_error, .failed hg, hk', hglobal⟩
  | next hr _ ih =>
    obtain ⟨hp, hps⟩ := List.forall_mem_cons.mp hps
    obtain ⟨ms, hms, -, -, hends⟩ := exists_ends hp hu.1
    obtain ⟨ns₁, ns₂, rfl, hns₁, hns₂⟩ := hold_cons hns
    obtain ⟨hglobal, o, ho, heq⟩ := hends _ _ hr
    obtain ⟨o', k', he, hlabel, hk'⟩ := ho.transfer hk (hns₁.trans hms.symm)
    rcases o with f | vs <;> cases heq
    obtain ⟨ws, rfl, hws⟩ := relabelEnd_eq_ok hlabel
    obtain ⟨o, k'', he', hsame, hk'', hglobal'⟩ := ih hps (hu.2 _ _ hr) hk' hns₂
    rw [hglobal] at he' hglobal'
    exact ⟨_, k'', he.append he', hsame.next hws, hk'', hglobal'⟩

/-- **Where the forms come to an end, the texts do.** -/
theorem interpretsAll_of_ends (hps : ∀ p ∈ ps, Tree.Part p) (hu : r.UncalledAll ps)
    (hk : k.relabel .plain = r.session.heap.relabel .plain) (hns : Hold ps ns)
    (he : k.Ends r.session.global ns o k') : ∃ os r', r.InterpretsAll ps os r' := by
  induction ps generalizing r k ns o with
  | nil => exact ⟨_, r, .nil⟩
  | cons p ps ih =>
    obtain ⟨hp, hps⟩ := List.forall_mem_cons.mp hps
    obtain ⟨ms, hms, -, hinterprets, hends⟩ := exists_ends hp hu.1
    obtain ⟨ns₁, ns₂, rfl, hns₁, hns₂⟩ := hold_cons hns
    rcases Heap.ends_append.mp he with ⟨f, rfl, hfirst⟩ | ⟨vs, k₁, o', hfirst, hrest, rfl⟩
    · obtain ⟨o', h', hms', hlabel, -⟩ := hfirst.transfer hk.symm (hms.trans hns₁.symm)
      obtain ⟨g, rfl, -⟩ := relabelEnd_eq_error hlabel
      obtain ⟨r', hr, -⟩ := hinterprets _ _ hms'
      exact ⟨_, r', .failed hr⟩
    · obtain ⟨o₁, h', hms', hlabel, hk'⟩ := hfirst.transfer hk.symm (hms.trans hns₁.symm)
      obtain ⟨ws, rfl, -⟩ := relabelEnd_eq_ok hlabel
      obtain ⟨r', hr, rfl⟩ := hinterprets _ _ hms'
      rw [← (hends _ _ hr).1] at hrest
      obtain ⟨os, r'', hps'⟩ := ih hps (hu.2 _ _ hr) hk'.symm hns₂ hrest
      exact ⟨_, r'', .next hr hps'⟩

theorem part_of_words {whole : String} (hps : ∀ p ∈ ps, Tree.Part p)
    (hwords : words whole.toList = ps.flatMap fun p => words p.toList) :
    Tree.Part whole ∧ Hold ps (Tree.forms whole) := by
  have hspells : Spells (ps.flatMap Tree.forms) (ps.flatMap Token.scan) := by
    clear hwords
    induction ps with
    | nil => exact .nil
    | cons p ps ih =>
      obtain ⟨hp, hps⟩ := List.forall_mem_cons.mp hps
      obtain ⟨t, ht⟩ := hp.program
      have hforms : Tree.forms p = t.root.children := by rw [Tree.forms, ht]
      rw [List.flatMap_cons, List.flatMap_cons, hforms]
      exact (Tree.spells_root ht).append (ih hps)
  have htexts : (Token.scan whole).map Token.text = (ps.flatMap Token.scan).map Token.text := by
    rw [List.map_flatMap]
    exact hwords
  obtain ⟨t, ht, hplain⟩ := hspells.exists_read htexts 0 ⟨0⟩
  have hparse : Tree.parse whole = .ok t := ht
  refine ⟨⟨⟨t, hparse⟩, fun name hname hhead => ?_⟩, ?_⟩
  · rw [hwords, List.head?_flatMap] at hhead
    obtain ⟨p, hp, hfirst⟩ := List.exists_of_findSome?_eq_some hhead
    exact (hps p hp).head name hname hfirst
  · rwa [Hold, Tree.forms, hparse]

/-- What is seen of the end of a text, and of the ends of the texts that it was divided into: values
with the same texts, or faults for the same reason at nodes with the same text. -/
inductive Agree : Except Complaint Value → Except Complaint (List Value) → Prop where
  | finished {ws : List Value} {vss : List (List Value)}
      (items : ws.map Value.text = vss.flatten.map Value.text)
      (text : (Value.list ws).text = (Value.list vss.flatten).text) :
      Agree (.ok (.list ws)) (.ok (vss.map .list))
  | failed {f g : Fault} (cause : f.cause = g.cause) (text : f.node.text = g.node.text) :
      Agree (.error (.execution f)) (.error (.execution g))

theorem SameEnd.agree (hs : SameEnd o os) :
    Agree ((o.map .list).mapError .execution) os := by
  cases hs with
  | @finished ws vss h =>
    refine .finished ?_ ?_
    · have htexts := congrArg (List.map Value.text) h
      simpa [Function.comp_def] using htexts
    · rw [← (Value.list ws).text_relabel (l := .plain), Value.relabel, Value.relabelAll_eq, h,
        ← Value.relabelAll_eq, ← Value.relabel, Value.text_relabel]
  | @failed f g h =>
    refine .failed (congrArg Fault.cause h :) ?_
    have hnode : f.node.relabel .plain = g.node.relabel .plain := congrArg Fault.node h
    rw [← f.node.text_relabel (l := .plain), hnode, Node.text_relabel]

/-- **A program in parts comes to the same end as in one piece**, if no part begins with the name of
a special form or with a form whose value can be called: with the same values or the same fault, and
with the same global frame. -/
theorem parts_agree_whole {whole : String} {parts : List String}
    (hwords : words whole.toList = parts.flatMap fun p => words p.toList)
    (hparts : ∀ p ∈ parts, Tree.Part p) (hvalues : r.UncalledAll parts) :
    ((∃ o r', r.Interprets whole o r') ↔ ∃ os r', r.InterpretsAll parts os r') ∧
    ∀ o r₁ os r₂, r.Interprets whole o r₁ → r.InterpretsAll parts os r₂ →
      Agree o os ∧ r₁.session.globalView = r₂.session.globalView := by
  obtain ⟨hwhole, hhold⟩ := part_of_words hparts hwords
  have huncalled : r.Uncalled whole := by
    intro t ht
    obtain ⟨t', ht', hplain, -⟩ := exists_parse hwhole r
    obtain rfl : t' = t := Except.ok.inj (ht'.symm.trans ht)
    exact uncalled_of_parts hparts hvalues rfl (hplain.trans hhold)
  obtain ⟨ns, hplain, -, hinterprets, hends⟩ := exists_ends hwhole huncalled
  have hns : Hold parts ns := hplain.trans hhold
  refine ⟨⟨fun ⟨o, r', hr⟩ => ?_, fun ⟨os, r', hr⟩ => ?_⟩, fun o r₁ os r₂ hr₁ hr₂ => ?_⟩
  · obtain ⟨-, o₁, he, -⟩ := hends o r' hr
    exact interpretsAll_of_ends hparts hvalues rfl hns he
  · obtain ⟨o, k', he, -⟩ := ends_of_interpretsAll hparts hvalues rfl hns hr
    obtain ⟨r', hr', -⟩ := hinterprets o k' he
    exact ⟨_, r', hr'⟩
  · obtain ⟨hglobal, o₁, he, rfl⟩ := hends o r₁ hr₁
    obtain ⟨o₂, k', he', hsame, hheap, hglobal'⟩ :=
      ends_of_interpretsAll hparts hvalues rfl hns hr₂
    obtain ⟨rfl, rfl⟩ := he.unique he'
    refine ⟨hsame.agree, ?_⟩
    rw [Session.globalView, Session.globalView, hglobal, hglobal', ← Heap.view_relabel, hheap,
      Heap.view_relabel]

theorem uncalledAll_of_defined
    (hd : ∀ p ∈ ps, ((Tree.forms p).head?.bind Node.defined?).isSome) (r : Repl) :
    r.UncalledAll ps := by
  induction ps generalizing r with
  | nil => trivial
  | cons p ps ih =>
    obtain ⟨hp, hps⟩ := List.forall_mem_cons.mp hd
    exact ⟨uncalled_of_defined hp r, fun v r' _ => ih hps r'⟩

/-- The second text defines what the closure of the first one looks up. -/
theorem parts_agree_whole_calls : ∃ whole first second : String,
    words whole.toList = ([first, second].flatMap fun p => words p.toList) ∧
    (∀ p ∈ [first, second], Tree.Part p) ∧ Repl.new.UncalledAll [first, second] ∧
    ∃ v r₁ os r₂, Repl.new.Interprets whole (.ok v) r₁ ∧ v.text = "(void void ())" ∧
      Repl.new.InterpretsAll [first, second] os r₂ ∧ Agree (.ok v) os ∧
      r₁.session.globalView = r₂.session.globalView := by
  let whole := "(define f(lambda()g)) (define g()) (f)"
  let first := "(define f(lambda()g))"
  let second := "(define g()) (f)"
  have hwords : words whole.toList = [first, second].flatMap fun p => words p.toList := by
    decide +kernel
  have hd : ∀ p ∈ [first, second], ((Tree.forms p).head?.bind Node.defined?).isSome :=
    List.forall_mem_cons.mpr ⟨by decide +kernel, List.forall_mem_singleton.mpr (by decide +kernel)⟩
  have hparts : ∀ p ∈ [first, second], Tree.Part p := fun p hp => Tree.part_of_defined (hd p hp)
  have hvalues := uncalledAll_of_defined hd Repl.new
  have hpass : (do
      let t ← (Repl.new.session.parse Repl.new.programs whole).1.toOption
      let e ← evaluate 9 t.root Repl.new.session.global ⟨Repl.new.session.heap, []⟩
      let v ← e.1.toOption
      some v.text) = some "(void void ())" := by
    decide +kernel
  obtain ⟨t, ht, hpass⟩ := Option.bind_eq_some_iff.mp hpass
  obtain ⟨⟨o, trail⟩, he, hpass⟩ := Option.bind_eq_some_iff.mp hpass
  obtain ⟨v, hv, htext⟩ := Option.bind_eq_some_iff.mp hpass
  obtain rfl : o = .ok v := eq_ok_of_toOption hv
  obtain ⟨r₁, hr₁, -⟩ := interprets_of_evaluate (eq_ok_of_toOption ht) he
  obtain ⟨hends, hagree⟩ := parts_agree_whole hwords hparts hvalues
  obtain ⟨os, r₂, hr₂⟩ := hends.mp ⟨_, r₁, hr₁⟩
  obtain ⟨hsame, hview⟩ := hagree _ _ _ _ hr₁ hr₂
  exact ⟨whole, first, second, hwords, hparts, hvalues, v, r₁, os, r₂, hr₁, Option.some.inj htext,
    hr₂, hsame, hview⟩

end Together

end Repl

end StepLisp
