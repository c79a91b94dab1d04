import StepLisp.Proofs.Answered
import StepLisp.Proofs.Ledger
import StepLisp.Proofs.Protocol
import StepLisp.Proofs.Reprint

/-!
# What is shown, line by line

Names are words, so neither they nor the texts of nodes and values have line feeds. What is printed
for a step is one line for the node and its value and one for each frame that is listed, whatever
the names and the values are.

* `OneLine`, a text without line feeds, with `Node.InLine` and **`Value.oneLine_text`**;
* `Machine.Change.names` and `Machine.names_advance`: the names that are bound come from the nodes;
* `Stepper.Tidy`, all that a stepper shows is in lines, with `Tree.tidy_start` and `Tidy.after`;
* `textLines`, the lines of a text, and `printed`, the text of lines, with `textLines_printed`;
* `Answer.lines`, the lines for an answer with the value of a node;
* **`Stepper.printed_snapshot`**: these are the lines of the snapshot behind the answer.
-/

namespace StepLisp

/-! ## Texts in one line -/

/-- The text has no line feed. -/
def OneLine (text : String) : Prop := '\n' ∉ text.toList

instance (text : String) : Decidable (OneLine text) :=
  inferInstanceAs (Decidable ('\n' ∉ text.toList))

theorem oneLine_append {a b : String} : OneLine (a ++ b) ↔ OneLine a ∧ OneLine b := by
  simp [OneLine]

theorem Word.oneLine {text : String} (hw : Word text.toList) : OneLine text :=
  fun hc => absurd (hw.atomChars _ hc) (by decide)

theorem oneLine_repr (n : Nat) : OneLine n.repr :=
  fun hc => absurd (Numeral.digits_repr n _ hc) (by decide)

theorem oneLine_intercalate {texts : List String} (htexts : ∀ a ∈ texts, OneLine a) :
    OneLine (" ".intercalate texts) := by
  induction texts with
  | nil => decide
  | cons a rest ih =>
    obtain ⟨ha, hrest⟩ := List.forall_mem_cons.mp htexts
    cases rest with
    | nil => rwa [String.intercalate_singleton]
    | cons b rest =>
      rw [String.intercalate_cons_cons, oneLine_append, oneLine_append]
      exact ⟨⟨ha, by decide⟩, ih hrest⟩

/-! ## Nodes -/

namespace Node

variable {n b : Node} {ns : List Node} {ts : List Token} {x : String} {params : List String}

/-- The text of the node has one line. -/
def InLine (n : Node) : Prop := OneLine n.text

theorem oneLine_textAll : OneLine (textAll ns) ↔ ∀ n ∈ ns, n.InLine := by
  induction ns with
  | nil => simp [textAll, OneLine]
  | cons n rest ih =>
    cases rest with
    | nil => simp [textAll, InLine]
    | cons m rest =>
      have hspace : OneLine " " := by decide
      rw [textAll, oneLine_append, oneLine_append, ih, List.forall_mem_cons (a := n)]
      simp [InLine, hspace]

theorem inLine_expression {place : Place} {span : Span} :
    (expression place span ns).InLine ↔ ∀ n ∈ ns, n.InLine := by
  have hopen : OneLine "(" := by decide
  have hclose : OneLine ")" := by decide
  rw [InLine, text, oneLine_append, oneLine_append, oneLine_textAll]
  simp [hopen, hclose]

theorem hereditary_inLine : Machine.Hereditary InLine := by
  intro n hn c hc
  cases n with
  | atom => cases hc
  | expression place span children => exact inLine_expression.mp hn c hc

theorem InLine.identifier (hn : n.InLine) (hx : n.identifier? = some x) : OneLine x := by
  cases n with
  | expression => cases hx
  | atom place span content =>
    cases content with
    | number y => cases hx
    | identifier name =>
      cases hx
      exact hn

theorem inLine_of_spells (hs : Spells ns ts)
    (hw : ∀ t ∈ ts, t.kind = .atom → Word t.text.toList) : ∀ n ∈ ns, n.InLine := by
  induction hs with
  | nil => nofun
  | @atom place content t ns ts ht hc _ ih =>
    obtain rfl := Atom.denoted_iff.mp hc
    refine List.forall_mem_cons.mpr ⟨?_, ih fun u hu => hw u (List.mem_cons_of_mem t hu)⟩
    exact (Atom.word_text (hw t List.mem_cons_self ht)).oneLine
  | @expression place o c children ns inside ts ho hc _ _ ihi ih =>
    refine List.forall_mem_cons.mpr ⟨?_, ih fun u hu => hw u (by simp [hu])⟩
    exact inLine_expression.mpr (ihi fun u hu => hw u (by simp [hu]))

theorem InLine.definition (hn : n.InLine) (hf : Form.ofNode n = .ok (.definition x b)) :
    OneLine x := by
  obtain ⟨head, name, -, hname, hchildren⟩ := Form.ofNode_eq_definition hf
  exact (hereditary_inLine n hn name (by simp [hchildren])).identifier hname

theorem exists_of_mem_mapM {α β : Type} {f : α → Option β} {as : List α} {bs : List β} {y : β}
    (h : as.mapM f = some bs) (hy : y ∈ bs) : ∃ a ∈ as, f a = some y := by
  induction as generalizing bs with
  | nil =>
    cases h
    cases hy
  | cons a as ih =>
    simp only [List.mapM_cons, bind, Option.bind_eq_some_iff, pure, Option.some.injEq] at h
    obtain ⟨z, hz, zs, hzs, rfl⟩ := h
    rcases List.mem_cons.mp hy with rfl | hy
    · exact ⟨a, List.mem_cons_self, hz⟩
    · obtain ⟨c, hc, hcy⟩ := ih hzs hy
      exact ⟨c, List.mem_cons_of_mem a hc, hcy⟩

theorem params_of_ofNode (hf : Form.ofNode n = .ok (.abstraction params b)) :
    ∃ list ∈ n.children, list.children.mapM identifier? = some params := by
  obtain ⟨head, list, hhead, hchildren⟩ := Form.ofNode_eq_abstraction hf
  refine ⟨list, by simp [hchildren], ?_⟩
  cases n with
  | atom => cases hchildren
  | expression place span children =>
    obtain rfl : children = [head, list, b] := hchildren
    simp only [Form.ofNode, List.head?_cons, Option.bind_some, hhead] at hf
    cases list with
    | atom => cases hf
    | expression place' span' parts =>
      rw [Form.abstractionOf] at hf
      rcases hparts : parts.mapM identifier? with _ | names
      · rw [hparts] at hf
        cases hf
      · rw [hparts] at hf
        cases hf
        exact hparts

theorem InLine.abstraction (hn : n.InLine) (hf : Form.ofNode n = .ok (.abstraction params b)) :
    ∀ x ∈ params, OneLine x := by
  obtain ⟨list, hmem, hparams⟩ := params_of_ofNode hf
  have hlist : list.InLine := hereditary_inLine n hn list hmem
  intro x hx
  obtain ⟨c, hc, hcx⟩ := exists_of_mem_mapM hparams hx
  exact (hereditary_inLine list hlist c hc).identifier hcx

end Node

theorem Tree.inLine_root {source : String} {t : Tree} (ht : Tree.parse source = .ok t) :
    t.root.InLine := by
  rw [root_of_ofTokens ht, Node.inLine_expression]
  exact Node.inLine_of_spells (spells_root ht) fun _ hs => Token.word_of_mem_scan hs

/-! ## Values -/

theorem Closure.oneLine_text {S : FrameId → Prop} {c : Closure} (hc : c.Over Node.InLine S) :
    OneLine c.text := by
  obtain ⟨⟨n, hn, hf⟩, -⟩ := hc
  rw [Closure.text, oneLine_append, oneLine_append]
  exact ⟨⟨by decide, oneLine_intercalate (hn.abstraction hf)⟩, by decide⟩

namespace Value

mutual

theorem oneLine_text {S : FrameId → Prop} : ∀ v : Value,
    v.Each (Closure.Over Node.InLine S) → OneLine v.text
  | .number x, _ => (word_numberText x).oneLine
  | .boolean true, _ => by decide
  | .boolean false, _ => by decide
  | .closure c, hv => Closure.oneLine_text (each_closure.mp hv)
  | .primitive p, _ => by cases p <;> decide
  | .void, _ => by decide
  | .list items, hv => by
    rw [text, oneLine_append, oneLine_append]
    exact ⟨⟨by decide, oneLine_textAll items (each_list.mp hv)⟩, by decide⟩

theorem oneLine_textAll {S : FrameId → Prop} : ∀ vs : List Value,
    (∀ v ∈ vs, v.Each (Closure.Over Node.InLine S)) → OneLine (textAll vs)
  | [], _ => by decide
  | [v], hvs => oneLine_text v (hvs v List.mem_cons_self)
  | v :: w :: rest, hvs => by
    have hrest := oneLine_textAll (w :: rest) fun u hu => hvs u (List.mem_cons_of_mem v hu)
    rw [textAll, oneLine_append, oneLine_append]
    exact ⟨⟨oneLine_text v (hvs v List.mem_cons_self), by decide⟩, hrest⟩

end

end Value

/-! ## Names -/

namespace Machine

variable {h h' : Heap} {m m' : Machine} {e : Option Event}

/-- **The names that are bound come from definitions and lambdas.** -/
theorem Change.names (hm : m.Within Node.InLine h) (hh : h.Bound (OneLine ·.1))
    (hchange : Change h m e h' m') : h'.Bound (OneLine ·.1) := by
  cases hchange with
  | value hc hi =>
    cases hi with
    | number | identifier | abstraction | empty => exact hh
  | define hc hp =>
    obtain ⟨b, ha⟩ := hm.nested.deliver hc hp nofun
    cases ha with
    | @defined n _ x s rest hf ha =>
      have hn : n.InLine := hm.contents.pending (.annotate n) (by simp [hp])
      exact hh.define (hn.definition hf)
  | enter hc hp hn ha =>
    obtain ⟨⟨-, hvs, -⟩, -⟩ := hm.contents.cons hp
    obtain ⟨⟨n, hn, hf⟩, -⟩ := (apply_each (each_concat hvs (hm.contents.deliver hc)) ha).1
    refine hh.allocate (Bindings.forall_foldl nofun fun p hx => ?_)
    exact hn.abstraction hf p.1 (List.of_mem_zip hx).1
  | opened | branch | collect | apply | leave | suspend | finish => exact hh

theorem names_advance (hm : m.Within Node.InLine h) (hh : h.Bound (OneLine ·.1)) :
    (m.advance h).heap.Bound (OneLine ·.1) := by
  -- along the recursion of the advance, one silent change after the other
  induction h, m using Machine.advance.induct with
  | case1 h m a m' h' ht =>
    rw [advance_of_pause ht]
    rcases pause_cases ht with ⟨n, v, rfl, hchange⟩ | ⟨rfl, -⟩
    · exact hchange.names hm hh
    · exact hh
  | case2 h m m' h' e ht ih =>
    have hchange := change_of_proceed ht
    rw [advance_of_proceed ht]
    exact ih (hm.change Node.hereditary_inLine hchange) (hchange.names hm hh)

end Machine

/-! ## What a stepper shows -/

/-- All nodes that a stepper works with and all names that it has bound have one line. -/
structure Stepper.Tidy (s : Stepper) : Prop where
  within : s.Within Node.InLine
  names : s.session.heap.Bound (OneLine ·.1)

theorem Heap.names_openSession : Heap.empty.openSession.2.2.Bound (OneLine ·.1) := by
  have hlibrary : ∀ b ∈ libraryBindings, OneLine b.1 :=
    Bindings.forall_foldl nofun fun p _ => by cases p <;> decide
  have hempty : Heap.empty.Bound (OneLine ·.1) := fun _ _ hf => by cases hf
  exact (hempty.allocate hlibrary).allocate nofun

theorem Tree.tidy_start {source : String} {t : Tree} (ht : Tree.parse source = .ok t)
    (r : Results) : (Stepper.start t .new r).Tidy where
  within := ⟨.start _ _ _, Machine.over_start (inLine_root ht) trivial, Session.each_new⟩
  names := Heap.names_openSession

theorem FrameView.oneLine_text {v : FrameView}
    (hv : ∀ b ∈ v.bindings, OneLine b.name ∧ OneLine b.value) : OneLine v.text := by
  have hspace : OneLine " " := by decide
  have hcolon : OneLine " : " := by decide
  refine List.foldlRecOn _ _ (by cases v.kind <;> decide) fun line hline b hb => ?_
  obtain ⟨hname, hvalue⟩ := hv b hb
  split <;> simp only [oneLine_append, hline, hname, hvalue, hspace, hcolon, and_self]

namespace Stepper

open Machine

variable {s : Stepper} {n : Node} {v : Value}

theorem Tidy.after (hs : s.Tidy) (j : Nat) : (s.after j).Tidy := by
  induction j with
  | zero => exact hs
  | succ j ih =>
    refine ⟨hs.within.after Node.hereditary_inLine (j + 1), ?_⟩
    rw [Stepper.after, (s.after j).advance_eq.2]
    exact names_advance ih.within ih.names

theorem Tidy.oneLine_view (hs : s.Tidy) (f : FrameId) : OneLine (s.session.heap.view f).text := by
  refine FrameView.oneLine_text fun b hb => ?_
  rcases hframe : s.session.heap.frame? f with _ | frame
  · simp only [Heap.view, hframe, Option.getD_none] at hb
    cases hb
  · simp only [Heap.view, hframe, Option.getD_some, Frame.view] at hb
    obtain ⟨c, hc, rfl⟩ := List.mem_map.mp hb
    exact ⟨hs.names f frame hframe c hc, c.2.oneLine_text (hs.within.heap f frame hframe c hc)⟩

theorem snapshot_of_suspended (ha : s.advance.answer = .suspended n v) :
    s.advance.stepper.snapshot.steps = s.machine.steps + 1 ∧
      s.advance.stepper.snapshot.current = some (n, some v) := by
  have hwrites := s.writes_advance
  rw [Writes, ha] at hwrites
  obtain ⟨-, hresult, -, hsteps, hcurrent⟩ := hwrites
  refine ⟨hsteps, ?_⟩
  rw [snapshot, hcurrent, Option.map_some, hresult]

end Stepper

/-! ## Lines -/

/-- The lines of a text. -/
def textLines (text : String) : List (List Char) := text.toList.splitOn '\n'

theorem textLines_append (a b : String) :
    textLines (a ++ "\n" ++ b) = textLines a ++ textLines b := by
  have htext : (a ++ "\n" ++ b).toList = a.toList ++ '\n' :: b.toList := by simp
  rw [textLines, htext]
  exact List.splitOnP_append_cons (p := (· == '\n')) _ _ rfl

theorem OneLine.textLines {a : String} (ha : OneLine a) : textLines a = [a.toList] :=
  List.splitOn_eq_singleton ha

/-- What is printed for lines: each of them with a line feed behind it. -/
def printed (lines : List String) : String := String.join (lines.map (· ++ "\n"))

theorem printed_append (as bs : List String) : printed (as ++ bs) = printed as ++ printed bs := by
  simp [printed]

theorem printed_cons (a : String) (as : List String) :
    printed (a :: as) = a ++ "\n" ++ printed as := by
  rw [printed, List.map_cons, String.join_cons, printed]

theorem textLines_printed {lines : List String} (hlines : ∀ l ∈ lines, OneLine l) :
    textLines (printed lines) = lines.map String.toList ++ [[]] := by
  induction lines with
  | nil => rfl
  | cons a rest ih =>
    obtain ⟨ha, hrest⟩ := List.forall_mem_cons.mp hlines
    rw [printed_cons, textLines_append, ih hrest, ha.textLines]
    rfl

/-- The lines for an answer that was the step with a number, with the frames that were listed then.
-/
def Answer.lines (step : Nat) (frames : List FrameView) : Answer → List String
  | .suspended n v =>
    ("step " ++ step.repr ++ ": " ++ n.id.text ++ " " ++ n.text ++ " => " ++ v.text) ::
      frames.map fun f => "    " ++ f.text
  | .done _ | .failed _ => []

theorem Snapshot.printed_frames (fs : List FrameView) (text : String) :
    fs.foldl (fun lines f => lines ++ "\n    " ++ f.text) text ++ "\n" =
      printed (text :: fs.map fun f => "    " ++ f.text) := by
  induction fs generalizing text with
  | nil => simp [printed]
  | cons f fs ih =>
    rw [List.foldl_cons, ih, List.map_cons, printed_cons, printed_cons, printed_cons]
    simp [← String.toList_inj]

namespace Stepper

variable {s : Stepper} {n : Node} {v : Value}

/-- **The text of a snapshot behind a suspension** has these lines. -/
theorem printed_snapshot (ha : s.advance.answer = .suspended n v) :
    s.advance.stepper.snapshot.text ++ "\n" =
      printed (s.advance.answer.lines (s.machine.steps + 1) s.advance.stepper.snapshot.frames) := by
  obtain ⟨hsteps, hcurrent⟩ := snapshot_of_suspended ha
  rw [Snapshot.text, Snapshot.printed_frames, hsteps, hcurrent, ha, Answer.lines]
  simp only [String.append_assoc]

theorem Tidy.oneLine_lines (hs : s.Tidy) (step : Nat) :
    ∀ l ∈ s.advance.answer.lines step s.advance.stepper.snapshot.frames, OneLine l := by
  rcases ha : s.advance.answer with ⟨n, v⟩ | v | f
  · have hnext : s.advance.stepper.Tidy := hs.after 1
    have hn : n.InLine := by
      refine (hs.within.advance Node.hereditary_inLine).2.1 n ?_
      rw [← s.advance_eq.1, ha]
      rfl
    have hv : OneLine v.text := by
      have hbehind := hs.within.nested.advance s.session.heap
      rw [← s.advance_eq.1, ha] at hbehind
      cases hbehind with
      | suspended hm =>
        refine v.oneLine_text (hnext.within.contents.deliver ?_)
        rw [s.advance_eq.2]
        exact hm.control
    refine List.forall_mem_cons.mpr ⟨?_, ?_⟩
    · have hmarks : OneLine "step " ∧ OneLine ": " ∧ OneLine "#" ∧ OneLine " " ∧
          OneLine " => " := by
        decide
      simp only [oneLine_append, oneLine_repr, NodeId.text, hmarks, hv, show OneLine n.text from hn,
        and_self]
    · intro l hl
      obtain ⟨f, hf, rfl⟩ := List.mem_map.mp hl
      obtain ⟨g, -, rfl⟩ := List.mem_map.mp hf
      exact oneLine_append.mpr ⟨by decide, hnext.oneLine_view g⟩
  · exact List.forall_mem_nil _
  · exact List.forall_mem_nil _

end Stepper

end StepLisp
