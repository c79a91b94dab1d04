import Mathlib.Data.List.Forall2
import StepLisp.Value.Basic
import StepLisp.Proofs.NumberText

/-!
# Equality of values

The equality of values is symmetric and transitive, and a value is equal to itself iff nothing in it
is not a number, at any depth of lists within lists.

* `beq_comm`, `beq_trans` and `beq_self_iff`: so it is for numbers;
* `Value.HasNaN`, a value in which something is not a number;
* `Value.same_comm`, `Value.same_trans` and `Value.same_self_iff`.
-/

namespace StepLisp

open Float.Model (UnpackedFloat)

/-! ## Numbers -/

theorem isNaN_iff {x : Float} : x.isNaN = true ↔ x.toModel.unpack = .notANumber := by
  rw [Float.isNaN, Float.Model.isNaN]
  cases x.toModel.unpack <;> simp [UnpackedFloat.isNaN]

theorem beq_iff {x y : Float} : (x == y) = true ↔
    x.toModel.unpack ≠ .notANumber ∧ y.toModel.unpack ≠ .notANumber ∧
      (x.toModel.unpack = y.toModel.unpack ∨
        x.toModel.unpack = .zero .positive ∧ y.toModel.unpack = .zero .negative ∨
        x.toModel.unpack = .zero .negative ∧ y.toModel.unpack = .zero .positive) :=
  UnpackedFloat.beq_iff_ne_notANumber_and_eq _ _

theorem beq_comm (x y : Float) : (x == y) = (y == x) := by
  rw [Bool.eq_iff_iff, beq_iff, beq_iff]
  grind

theorem beq_trans {x y z : Float} (hxy : (x == y) = true) (hyz : (y == z) = true) :
    (x == z) = true := by
  rw [beq_iff] at hxy hyz ⊢
  grind

theorem beq_self_iff {x : Float} : (x == x) = true ↔ ¬ x.isNaN = true := by
  rw [isNaN_iff, beq_iff]
  simp

/-! ## Values -/

namespace Value

/-- The value is not a number, or it is a list with an item in which something is not a number. -/
inductive HasNaN : Value → Prop where
  | number {x : Float} (hx : x.isNaN = true) : HasNaN (.number x)
  | item {items : List Value} {v : Value} (hv : v ∈ items) (hn : HasNaN v) : HasNaN (.list items)

theorem hasNaN_list {items : List Value} : (list items).HasNaN ↔ ∃ v ∈ items, v.HasNaN := by
  constructor
  · rintro (_ | ⟨hv, hn⟩)
    exact ⟨_, hv, hn⟩
  · rintro ⟨v, hv, hn⟩
    exact .item hv hn

/-! ## What is equal to a value of one kind -/

variable {v w : Value} {vs ws : List Value}

theorem number_same {x : Float} :
    (number x).same w = true ↔ ∃ y, w = .number y ∧ (x == y) = true := by
  cases w <;> simp [same]

theorem boolean_same {b : Bool} : (boolean b).same w = true ↔ w = .boolean b := by
  cases w with
  | boolean c => rw [same, beq_iff_eq, boolean.injEq, eq_comm]
  | _ => simp [same]

theorem closure_same {c : Closure} :
    (closure c).same w = true ↔ ∃ d, w = .closure d ∧ c.number = d.number := by
  cases w <;> simp [same]

theorem primitive_same {p : Primitive} :
    (primitive p).same w = true ↔ ∃ q, w = .primitive q ∧ p.name = q.name := by
  cases w <;> simp [same]

theorem list_same : (list vs).same w = true ↔ ∃ ws, w = .list ws ∧ sameAll vs ws = true := by
  cases w <;> simp [same]

theorem void_same : void.same w = true ↔ w = .void := by
  cases w <;> simp [same]

theorem sameAll_nil : sameAll [] ws = true ↔ ws = [] := by
  cases ws <;> simp [sameAll]

theorem sameAll_cons : sameAll (v :: vs) ws = true ↔
    ∃ w rest, ws = w :: rest ∧ v.same w = true ∧ sameAll vs rest = true := by
  cases ws <;> simp [sameAll]

theorem sameAll_iff : sameAll vs ws = true ↔ List.Forall₂ (fun v w => v.same w = true) vs ws := by
  induction vs generalizing ws with
  | nil => rw [sameAll_nil, List.forall₂_nil_left_iff]
  | cons v vs ih => cases ws <;> simp [sameAll, ih]

/-! ## The laws of equality -/

mutual

/-- **Equality is symmetric.** -/
theorem same_symm : ∀ {v w : Value}, v.same w = true → w.same v = true
  | .number x, w, h => by
    obtain ⟨y, rfl, hxy⟩ := number_same.mp h
    exact number_same.mpr ⟨x, rfl, beq_comm x y ▸ hxy⟩
  | .boolean b, w, h => by
    obtain rfl := boolean_same.mp h
    exact h
  | .closure c, w, h => by
    obtain ⟨d, rfl, hcd⟩ := closure_same.mp h
    exact closure_same.mpr ⟨c, rfl, hcd.symm⟩
  | .primitive p, w, h => by
    obtain ⟨q, rfl, hpq⟩ := primitive_same.mp h
    exact primitive_same.mpr ⟨p, rfl, hpq.symm⟩
  | .list vs, w, h => by
    obtain ⟨ws, rfl, hvs⟩ := list_same.mp h
    exact list_same.mpr ⟨vs, rfl, sameAll_symm hvs⟩
  | .void, w, h => by
    obtain rfl := void_same.mp h
    exact h

theorem sameAll_symm : ∀ {vs ws : List Value}, sameAll vs ws = true → sameAll ws vs = true
  | [], ws, h => by
    obtain rfl := sameAll_nil.mp h
    exact h
  | v :: vs, ws, h => by
    obtain ⟨w, rest, rfl, hv, hvs⟩ := sameAll_cons.mp h
    exact sameAll_cons.mpr ⟨v, vs, rfl, same_symm hv, sameAll_symm hvs⟩

end

mutual

/-- **Equality is transitive.** -/
theorem same_trans : ∀ {u v w : Value}, u.same v = true → v.same w = true → u.same w = true
  | .number x, v, w, huv, hvw => by
    obtain ⟨y, rfl, hxy⟩ := number_same.mp huv
    obtain ⟨z, rfl, hyz⟩ := number_same.mp hvw
    exact number_same.mpr ⟨z, rfl, beq_trans hxy hyz⟩
  | .boolean b, v, w, huv, hvw => by
    obtain rfl := boolean_same.mp huv
    exact hvw
  | .closure c, v, w, huv, hvw => by
    obtain ⟨d, rfl, hcd⟩ := closure_same.mp huv
    obtain ⟨e, rfl, hde⟩ := closure_same.mp hvw
    exact closure_same.mpr ⟨e, rfl, hcd.trans hde⟩
  | .primitive p, v, w, huv, hvw => by
    obtain ⟨q, rfl, hpq⟩ := primitive_same.mp huv
    obtain ⟨r, rfl, hqr⟩ := primitive_same.mp hvw
    exact primitive_same.mpr ⟨r, rfl, hpq.trans hqr⟩
  | .list us, v, w, huv, hvw => by
    obtain ⟨vs, rfl, hus⟩ := list_same.mp huv
    obtain ⟨ws, rfl, hvs⟩ := list_same.mp hvw
    exact list_same.mpr ⟨ws, rfl, sameAll_trans hus hvs⟩
  | .void, v, w, huv, hvw => by
    obtain rfl := void_same.mp huv
    exact hvw

theorem sameAll_trans : ∀ {us vs ws : List Value},
    sameAll us vs = true → sameAll vs ws = true → sameAll us ws = true
  | [], vs, ws, hus, hvs => by
    obtain rfl := sameAll_nil.mp hus
    exact hvs
  | u :: us, vs, ws, hus, hvs => by
    obtain ⟨v, vs, rfl, huv, hus⟩ := sameAll_cons.mp hus
    obtain ⟨w, ws, rfl, hvw, hvs⟩ := sameAll_cons.mp hvs
    exact sameAll_cons.mpr ⟨w, ws, rfl, same_trans huv hvw, sameAll_trans hus hvs⟩

end

mutual

/-- **A value is equal to itself iff nothing in it is not a number.** -/
theorem same_self_iff : ∀ v : Value, v.same v = true ↔ ¬ v.HasNaN
  | .number x => by
    rw [same, beq_self_iff]
    exact not_congr ⟨.number, fun hn => by cases hn; assumption⟩
  | .list vs => by
    rw [same, sameAll_self_iff, hasNaN_list]
    simp
  | .boolean b => iff_of_true (beq_self_eq_true b) nofun
  | .closure c => iff_of_true (beq_self_eq_true c.number) nofun
  | .primitive p => iff_of_true (beq_self_eq_true p.name) nofun
  | .void => iff_of_true rfl nofun

theorem sameAll_self_iff : ∀ vs : List Value, sameAll vs vs = true ↔ ∀ v ∈ vs, ¬ v.HasNaN
  | [] => by simp [sameAll]
  | v :: vs => by
    rw [sameAll, Bool.and_eq_true, same_self_iff, sameAll_self_iff, List.forall_mem_cons]

end

end Value

end StepLisp
