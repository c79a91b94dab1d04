import Mathlib.Data.List.Sort
import Std.Data.HashMap.Lemmas
import StepLisp.Report.View
import StepLisp.Proofs.ByteOrder
import StepLisp.Proofs.Visibility

/-!
# What a frame shows

A frame shows each name that was defined in it, once, with the value that it was given last, in the
order of the encodings of the names. So two frames show the same if their names were given the same
values last, in whatever order, and if the bindings are kept in a table without an order, sorting
its entries gives what the frame shows.

* `Bindings.Increasing`, with `mem_iff_find?` and `Increasing.eq_of_mem_iff`: increasing bindings
  are told by their members;
* `Bindings.increasing_ofDefinitions`, `mem_ofDefinitions` and `ofDefinitions_congr`;
* `TableOf`, the entries of a table after some definitions, in any order, with `TableOf.sorted_eq`
  and **`Bindings.sorted_toList`**, for hash tables;
* **`Heap.view_after`**: the views of the frames after any acts on a heap.
-/

namespace StepLisp

namespace Bindings

/-! ## Increasing bindings -/

/-- The names are in increasing order, each name once. -/
def Increasing (bs : Bindings) : Prop := bs.Pairwise fun a b => a.1 < b.1

variable {bs bs' : Bindings} {ds : List (String × Value)} {x : String} {v : Value}

theorem Increasing.insert (hbs : bs.Increasing) (x : String) (v : Value) :
    (bs.insert x v).Increasing := by
  induction bs with
  | nil => exact List.pairwise_singleton ..
  | cons b bs ih =>
    obtain ⟨y, w⟩ := b
    obtain ⟨hy, hrest⟩ := List.pairwise_cons.mp hbs
    unfold Bindings.insert
    split
    · rename_i hxy
      exact List.pairwise_cons.mpr
        ⟨List.forall_mem_cons.mpr ⟨hxy, fun b hb => lt_trans hxy (hy b hb)⟩, hbs⟩
    split
    · rename_i hxy
      exact List.pairwise_cons.mpr ⟨fun b hb => hxy ▸ hy b hb, hrest⟩
    · rename_i hlt hne
      have hyx : y < x := lt_of_le_of_ne (not_lt.mp hlt) (Ne.symm hne)
      exact List.pairwise_cons.mpr ⟨forall_insert hy hyx, ih hrest⟩

theorem mem_iff_find? (hbs : bs.Increasing) : (x, v) ∈ bs ↔ bs.find? x = some v := by
  induction bs with
  | nil => simp [find?]
  | cons b bs ih =>
    obtain ⟨y, w⟩ := b
    obtain ⟨hy, hrest⟩ := List.pairwise_cons.mp hbs
    rw [List.mem_cons, ih hrest, find?]
    by_cases hxy : x = y
    · subst hxy
      have hnone : Bindings.find? x bs ≠ some v := fun hv =>
        absurd (hy _ ((ih hrest).mpr hv)) (lt_irrefl x)
      simp [hnone, eq_comm]
    · simp [hxy]

/-- **Increasing bindings are told by their members.** -/
theorem Increasing.eq_of_mem_iff (hbs : bs.Increasing) (hbs' : bs'.Increasing)
    (hmem : ∀ b, b ∈ bs ↔ b ∈ bs') : bs = bs' := by
  have hperm : bs.Perm bs' :=
    (List.perm_ext_iff_of_nodup (hbs.imp fun hab heq => by simp [heq] at hab)
      (hbs'.imp fun hab heq => by simp [heq] at hab)).mpr hmem
  exact hperm.eq_of_pairwise (fun a b _ _ hab hba => absurd hab (lt_asymm hba)) hbs hbs'

theorem increasing_ofDefinitions (ds : List (String × Value)) : (ofDefinitions ds).Increasing := by
  induction ds using List.reverseRecOn with
  | nil => exact List.Pairwise.nil
  | append_singleton ds d ih =>
    rw [ofDefinitions_concat]
    exact ih.insert d.1 d.2

theorem mem_ofDefinitions : (x, v) ∈ ofDefinitions ds ↔ lastGiven ds x = some v := by
  rw [mem_iff_find? (increasing_ofDefinitions ds), find?_ofDefinitions]

theorem mem_names_ofDefinitions :
    x ∈ (ofDefinitions ds).map (·.1) ↔ x ∈ ds.map (·.1) := by
  constructor
  · intro hx
    obtain ⟨⟨x, v⟩, hb, rfl⟩ := List.mem_map.mp hx
    exact isSome_lastGiven.mp (Option.isSome_iff_exists.mpr ⟨v, mem_ofDefinitions.mp hb⟩)
  · intro hx
    obtain ⟨v, hv⟩ := Option.isSome_iff_exists.mp (isSome_lastGiven.mpr hx)
    exact List.mem_map.mpr ⟨(x, v), mem_ofDefinitions.mpr hv, rfl⟩

/-- **The order of the definitions does not matter**, as long as it is the same one of every name
that comes last. -/
theorem ofDefinitions_congr {ds' : List (String × Value)}
    (hds : ∀ x, lastGiven ds x = lastGiven ds' x) : ofDefinitions ds = ofDefinitions ds' :=
  (increasing_ofDefinitions ds).eq_of_mem_iff (increasing_ofDefinitions ds') fun b => by
    rw [mem_ofDefinitions, mem_ofDefinitions, hds]

/-- Entries in the order of the encodings of their names. -/
def sorted (entries : List (String × Value)) : Bindings :=
  entries.mergeSort fun a b => textBytes a.1 ≤ textBytes b.1

end Bindings

/-! ## Tables without an order -/

/-- The entries of a table after the definitions `ds`, each of which replaced what its name was
bound to: every name once with its last value, in whatever order. -/
structure TableOf (ds entries : List (String × Value)) : Prop where
  once : (entries.map (·.1)).Nodup
  last : ∀ x v, (x, v) ∈ entries ↔ lastGiven ds x = some v

/-- The entries of a hash table are such entries, whatever the names are hashed to. -/
theorem tableOf_toList [Hashable String] (ds : List (String × Value)) :
    TableOf ds (ds.foldl (fun t d => t.insert d.1 d.2) (∅ : Std.HashMap String Value)).toList := by
  have hget : ∀ x, (ds.foldl (fun t d => t.insert d.1 d.2) (∅ : Std.HashMap String Value))[x]? =
      lastGiven ds x := by
    intro x
    induction ds using List.reverseRecOn with
    | nil => exact Std.HashMap.getElem?_empty
    | append_singleton ds d ih =>
      rw [List.foldl_concat, Std.HashMap.getElem?_insert, ih, lastGiven_concat]
      by_cases hx : x = d.1 <;> simp [hx, Ne.symm]
  refine ⟨?_, fun x v => ?_⟩
  · rw [List.Nodup, List.pairwise_map]
    exact Std.HashMap.distinct_keys_toList.imp fun hne => by simpa using hne
  · rw [Std.HashMap.mem_toList_iff_getElem?_eq_some, hget]

/-- **Sorting forgets the order of a table.** -/
theorem TableOf.sorted_eq {ds entries : List (String × Value)} (ht : TableOf ds entries) :
    Bindings.sorted entries = .ofDefinitions ds := by
  have hperm : (Bindings.sorted entries).Perm entries := List.mergeSort_perm ..
  have hle : (Bindings.sorted entries).Pairwise fun a b => a.1 ≤ b.1 := by
    unfold Bindings.sorted
    simp only [← le_iff_textBytes_le]
    refine (List.pairwise_mergeSort (fun a b c hab hbc => ?_) (fun a b => ?_) entries).imp ?_
    · exact decide_eq_true (le_trans (of_decide_eq_true hab) (of_decide_eq_true hbc))
    · simpa using String.le_total a.1 b.1
    · exact fun hab => of_decide_eq_true hab
  have hne : (Bindings.sorted entries).Pairwise fun a b => a.1 ≠ b.1 :=
    List.pairwise_map.mp ((hperm.map _).nodup_iff.mpr ht.once)
  refine Bindings.Increasing.eq_of_mem_iff ?_ (Bindings.increasing_ofDefinitions ds) fun b => ?_
  · exact (hle.and hne).imp fun hab => lt_of_le_of_ne hab.1 hab.2
  · rw [hperm.mem_iff, ht.last, Bindings.mem_ofDefinitions]

/-- **Bindings that are kept in a hash table and sorted** when they are asked for are the same,
whatever the names are hashed to. -/
theorem Bindings.sorted_toList [Hashable String] (ds : List (String × Value)) :
    sorted (ds.foldl (fun t d => t.insert d.1 d.2) (∅ : Std.HashMap String Value)).toList =
      ofDefinitions ds := (tableOf_toList ds).sorted_eq

/-! ## Views -/

theorem Frame.find?_view (frame : Frame) (x : String) : frame.view.find? x =
    (frame.bindings.find? x).map fun v => ⟨x, v.text, v.isCallable⟩ := by
  unfold FrameView.find? view
  induction frame.bindings with
  | nil => rfl
  | cons b bs ih =>
    obtain ⟨y, v⟩ := b
    rw [List.map_cons, List.find?_cons, ih, Bindings.find?]
    by_cases hxy : x = y
    · simp [hxy]
    · have hyx : (y == x) = false := by simpa using Ne.symm hxy
      simp [hxy, hyx]

namespace Heap

variable {acts acts' : List Act} {h h' : Heap} {f f' : FrameId}

theorem After.exists_frame (ha : After acts h) (hf : (h.frame? f).isSome) :
    ∃ kind parent, h.frame? f = some ⟨kind, parent, .ofDefinitions (given acts f)⟩ := by
  rw [ha.frame?_eq, Option.isSome_map, Option.isSome_iff_exists] at hf
  obtain ⟨⟨kind, parent⟩, hc⟩ := hf
  exact ⟨kind, parent, by rw [ha.frame?_eq, hc, Option.map_some]⟩

/-- **What a frame shows**, after any acts on the frames of a heap, are the names that were defined
in it, in the order of their encodings, each with the value that it was given last. -/
theorem view_after (ha : After acts h) (hf : (h.frame? f).isSome) :
    (∃ frame, h.frame? f = some frame ∧
      frame.bindings.Pairwise (fun a b => textBytes a.1 < textBytes b.1) ∧
      (∀ x, x ∈ frame.bindings.map (·.1) ↔ x ∈ (given acts f).map (·.1)) ∧
      (∀ x v, (x, v) ∈ frame.bindings ↔ lastGiven (given acts f) x = some v) ∧
      (∀ entries, TableOf (given acts f) entries → Bindings.sorted entries = frame.bindings) ∧
      h.view f = ⟨frame.kind, frame.bindings.map fun b => ⟨b.1, b.2.text, b.2.isCallable⟩⟩) ∧
    (∀ x, (h.view f).find? x =
        (lastGiven (given acts f) x).map (fun v => ⟨x, v.text, v.isCallable⟩) ∧
      (((h.view f).find? x).isSome ↔ x ∈ (given acts f).map (·.1))) ∧
    ∀ acts' h' f', After acts' h' → (h'.frame? f').isSome → (h'.view f').kind = (h.view f).kind →
      (∀ x, lastGiven (given acts' f') x = lastGiven (given acts f) x) →
      h'.view f' = h.view f ∧ (h'.view f').text = (h.view f).text := by
  obtain ⟨kind, parent, hframe⟩ := ha.exists_frame hf
  have hview : h.view f = Frame.view ⟨kind, parent, .ofDefinitions (given acts f)⟩ := by
    rw [view, hframe, Option.getD_some]
  have hfind : ∀ x, (h.view f).find? x =
      (lastGiven (given acts f) x).map fun v => ⟨x, v.text, v.isCallable⟩ := by
    intro x
    rw [hview, Frame.find?_view, Bindings.find?_ofDefinitions]
  refine ⟨⟨_, hframe, ?_, fun x => Bindings.mem_names_ofDefinitions,
    fun x v => Bindings.mem_ofDefinitions, fun entries ht => ht.sorted_eq, hview⟩,
    fun x => ⟨hfind x, ?_⟩, ?_⟩
  · exact (Bindings.increasing_ofDefinitions _).imp lt_iff_textBytes_lt.mp
  · rw [hfind, Option.isSome_map, isSome_lastGiven]
  · intro acts' h' f' ha' hf' hkind hlast
    obtain ⟨kind', parent', hframe'⟩ := ha'.exists_frame hf'
    have hview' : h'.view f' = h.view f := by
      rw [hview] at hkind ⊢
      rw [view, hframe', Option.getD_some] at hkind ⊢
      rw [Frame.view, Frame.view, Bindings.ofDefinitions_congr hlast]
      exact congrArg (FrameView.mk · _) hkind
    exact ⟨hview', congrArg FrameView.text hview'⟩

/-- In one frame `y` is defined, then `x` and then `y` again, and in another one `x` twice and then
`y`. The last values are the same, and so are the views. -/
theorem view_after_overwritten : ∃ (acts acts' : List Act) (h h' : Heap), After acts h ∧
    (h.frame? ⟨0⟩).isSome ∧ After acts' h' ∧ h'.view ⟨0⟩ = h.view ⟨0⟩ ∧
    (h.view ⟨0⟩).text = "[global] x : true y : void" ∧
    (h.view ⟨0⟩).find? "y" = some ⟨"y", "void", false⟩ ∧ (h.view ⟨0⟩).find? "z" = none := by
  have hcreated := After.empty.create .global none nofun
  have ha := ((hcreated.define (f := ⟨0⟩) rfl "y" (.boolean false)).define (f := ⟨0⟩) rfl "x"
    (.boolean true)).define (f := ⟨0⟩) rfl "y" .void
  have ha' := ((hcreated.define (f := ⟨0⟩) rfl "x" .void).define (f := ⟨0⟩) rfl "x"
    (.boolean true)).define (f := ⟨0⟩) rfl "y" .void
  obtain ⟨-, hfind, hsame⟩ := view_after ha (f := ⟨0⟩) rfl
  refine ⟨_, _, _, _, ha, rfl, ha', (hsame _ _ ⟨0⟩ ha' rfl rfl fun x => ?_).1, ?_, (hfind "y").1,
    (hfind "z").1⟩
  · simp only [lastGiven_define]
    by_cases hx : x = "x" <;> by_cases hy : x = "y" <;> simp [hx, hy]
  · decide +kernel

end Heap

end StepLisp
