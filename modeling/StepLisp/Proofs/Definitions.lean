import Mathlib.Data.List.Induction
import StepLisp.Value.Heap

/-!
# Definitions in a row

The bindings of a frame come from the definitions in it, one after the other: a name is bound to the
value that it was given last.

* `Bindings.find?_insert`: what is found behind one more binding;
* `lastGiven`, the value that a name was given last in a list of definitions;
* `Bindings.ofDefinitions`, the bindings that definitions lead to, with
  **`Bindings.find?_ofDefinitions`**.
-/

namespace StepLisp

namespace Bindings

variable {bs : Bindings} {x y : String} {v : Value}

theorem find?_insert (bs : Bindings) (x : String) (v : Value) (y : String) :
    (bs.insert x v).find? y = if y = x then some v else bs.find? y := by
  induction bs with
  | nil => rfl
  | cons b bs ih =>
    obtain ⟨z, w⟩ := b
    rw [insert]
    split
    · rfl
    split
    · rename_i hxz
      subst hxz
      by_cases hy : y = x <;> simp [find?, hy]
    · rename_i hxz
      by_cases hy : y = z
      · subst hy
        simp [find?, Ne.symm hxz]
      · simp [find?, hy, ih]

end Bindings

/-- The value that the name `x` was given last, in a list of definitions. -/
def lastGiven (ds : List (String × Value)) (x : String) : Option Value :=
  ((ds.filter (·.1 = x)).map (·.2)).getLast?

theorem lastGiven_concat (ds : List (String × Value)) (x : String) (v : Value) (y : String) :
    lastGiven (ds ++ [(x, v)]) y = if y = x then some v else lastGiven ds y := by
  by_cases hy : y = x <;> simp [lastGiven, hy, Ne.symm]

theorem isSome_lastGiven {ds : List (String × Value)} {x : String} :
    (lastGiven ds x).isSome ↔ x ∈ ds.map (·.1) := by
  simp [lastGiven]

/-- The bindings that a list of definitions leads to, in a frame that binds nothing before. -/
def Bindings.ofDefinitions (ds : List (String × Value)) : Bindings :=
  ds.foldl (fun bs d => Bindings.insert d.1 d.2 bs) []

theorem Bindings.ofDefinitions_concat (ds : List (String × Value)) (x : String) (v : Value) :
    ofDefinitions (ds ++ [(x, v)]) = (ofDefinitions ds).insert x v := List.foldl_append

/-- **A name is bound to the value that it was given last.** -/
theorem Bindings.find?_ofDefinitions (ds : List (String × Value)) (x : String) :
    (ofDefinitions ds).find? x = lastGiven ds x := by
  -- from the last definition to the first
  induction ds using List.reverseRecOn with
  | nil => rfl
  | append_singleton ds d ih =>
    rw [ofDefinitions_concat, find?_insert, lastGiven_concat, ih]

end StepLisp
