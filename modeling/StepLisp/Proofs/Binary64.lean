import Mathlib

/-!
# Stored numbers

Floating-point numbers of 64 bits are stored as a sign, an exponent and a mantissa. What is read off
the bits can be stored again, and gives the same bits. Mathlib is imported as a whole since no part
of it brings in the lemmas on the bits of a number.

* `Binary64.ofFields`, the number that three fields denote, with `unpack_packComponents`;
* `Binary64.pack_finite`: the sign of a number does not show in its other fields;
* **`Binary64.pack_unpack`**: unpacking loses nothing;
* `Binary64.Canonical`, the finite numbers as they are stored, and `unpack_pack_finite`;
* `Binary64.unpack_pack_ne_notANumber`: what is a number is stored as a number.
-/

namespace StepLisp

open Float.Model Float.Model.UnpackedFloat

namespace Binary64

/-! ## The three fields -/

/-- The number with the given sign, exponent and mantissa bits. -/
def ofFields (s : Sign) (ev : BitVec 11) (mv : BitVec 52) : UnpackedFloat :=
  if ev = -1#11 then
    if mv = 0#52 then .infinity s else .notANumber
  else if ev = 0#11 then
    if h : mv = 0#52 then .zero s
    else .finite s mv.toNat (-1074) (Nat.pos_of_ne_zero fun hz => h (BitVec.eq_of_toNat_eq hz))
  else .finite s (2 ^ 52 + mv.toNat) (ev.toNat - 1075) (by omega)

theorem toNat_one_append (mv : BitVec 52) : (1#1 ++ mv).toNat = 2 ^ 52 + mv.toNat := by
  rw [BitVec.toNat_append, ← Nat.shiftLeft_add_eq_or_of_lt mv.isLt]
  rfl

theorem unpack_eq (b : BitVec Format.binary64.numBits) :
    UnpackedFloat.unpack Format.binary64 b =
      ofFields (Sign.ofBitVec (unpackSign b)) (unpackExponent b) (unpackMantissa b) := by
  unfold UnpackedFloat.unpack ofFields
  dsimp only
  split
  · rfl
  split
  · rename_i he
    split
    · rfl
    · congr 1
      rw [he]
      decide
  · congr 1
    · exact toNat_one_append _

theorem unpack_packComponents (s : Sign) (ev : BitVec 11) (mv : BitVec 52) :
    UnpackedFloat.unpack Format.binary64 (packComponents Format.binary64 s ev mv) =
      ofFields s ev mv := by
  rw [unpack_eq, unpackSign_packComponents, unpackExponent_packComponents,
    unpackMantissa_packComponents, Sign.ofBitVec_toBitVec]

/-- The sign of a finite number does not show in its other fields, and these do not spell what is
not a number. -/
theorem pack_finite (m : Nat) (e : Int) (h : 0 < m) : ∃ (ev : BitVec 11) (mv : BitVec 52),
    (ev = -1#11 → mv = 0#52) ∧ ∀ s, UnpackedFloat.pack Format.binary64 (.finite s m e h) =
      packComponents Format.binary64 s ev mv := by
  obtain ⟨k, hk⟩ : ∃ k, (e + Format.binary64.exponentBias +
      Format.binary64.mantissaBitsWithoutImplicit).toNat = k := ⟨_, rfl⟩
  simp only [UnpackedFloat.pack, hk]
  by_cases hexp : 2 ^ Format.binary64.exponentBits ≤ k + 1
  · exact ⟨-1#11, 0#52, fun _ => rfl, fun s => by rw [if_pos hexp]; rfl⟩
  by_cases hlog : m.log2 + 1 = Format.binary64.mantissaBits
  · refine ⟨_, _, fun he => absurd (congrArg BitVec.toNat he) ?_, fun s => by
      rw [if_neg hexp, if_pos hlog]⟩
    have hexp : ¬ 2 ^ 11 ≤ k + 1 := hexp
    rw [BitVec.toNat_ofNat, Nat.mod_eq_of_lt (by omega), show (-1#11).toNat = 2047 from rfl]
    omega
  · exact ⟨0#11, _, fun he => absurd he (by decide), fun s => by rw [if_neg hexp, if_neg hlog]⟩

/-- **Unpacking loses nothing.** -/
theorem pack_unpack (f : Float.Model) : Float.Model.pack f.unpack = f := by
  obtain ⟨bits, hv⟩ := f
  simp only [Float.Model.pack, Float.Model.unpack, pack_unpack_of_valid hv]

/-! ## Stored numbers -/

/-- The pairs `m`, `e` for which `m * 2 ^ e` is a number as it is stored. -/
structure Canonical (m : Nat) (e : Int) : Prop where
  pos : 0 < m
  target : Format.binary64.targetExponent (totalExponent m e) = e
  le : e ≤ 971

theorem targetExponent_eq (k : Int) : Format.binary64.targetExponent k = max (k - 53) (-1074) := rfl

theorem Canonical.log2_le {m : Nat} {e : Int} (h : Canonical m e) : m.log2 ≤ 52 := by
  have ht := h.target
  rw [targetExponent_eq, totalExponent] at ht
  omega

theorem Canonical.ge {m : Nat} {e : Int} (h : Canonical m e) : -1074 ≤ e := by
  have ht := h.target
  rw [targetExponent_eq] at ht
  omega

theorem ofFields_eq_finite {s s' : Sign} {ev : BitVec 11} {mv : BitVec 52} {m : Nat} {e : Int}
    {h : 0 < m} (hf : ofFields s ev mv = .finite s' m e h) :
    Canonical m e ∧ ∀ r, ofFields r ev mv = .finite r m e h := by
  have hmv := mv.isLt
  have hev := ev.isLt
  unfold ofFields at hf ⊢
  split at hf
  · split at hf <;> cases hf
  rename_i he
  split at hf
  · rename_i he0
    split at hf
    · cases hf
    rename_i hm
    cases hf
    refine ⟨⟨h, ?_, by decide⟩, fun r => by rw [if_neg he, if_pos he0, dif_neg hm]⟩
    have hlog := (Nat.log2_lt (Nat.ne_of_gt h)).mpr hmv
    rw [targetExponent_eq, totalExponent]
    omega
  · rename_i he0
    cases hf
    have hpos : ev.toNat ≠ 0 := fun hz => he0 (BitVec.eq_of_toNat_eq hz)
    have hmax : ev.toNat ≠ 2047 := fun hmax => he (BitVec.eq_of_toNat_eq hmax)
    refine ⟨⟨h, ?_, by omega⟩, fun r => by rw [if_neg he, if_neg he0]⟩
    have hlog : (2 ^ 52 + mv.toNat).log2 = 52 :=
      (Nat.log2_eq_iff (Nat.ne_of_gt h)).mpr ⟨by omega, by omega⟩
    rw [targetExponent_eq, totalExponent, hlog]
    omega

theorem canonical_of_unpack {f : Float.Model} {s : Sign} {m : Nat} {e : Int} {h : 0 < m}
    (hf : f.unpack = .finite s m e h) : Canonical m e := by
  rw [Float.Model.unpack, unpack_eq] at hf
  exact (ofFields_eq_finite hf).1

theorem unpack_pack_finite {f : Float.Model} {s : Sign} {m : Nat} {e : Int} {h : 0 < m}
    (hf : f.unpack = .finite s m e h) (r : Sign) :
    (Float.Model.pack (.finite r m e h)).unpack = .finite r m e h := by
  obtain ⟨ev, mv, -, hpack⟩ := pack_finite m e h
  have hfields : ofFields s ev mv = .finite s m e h := by
    rw [← unpack_packComponents, ← hpack s, ← hf, Float.Model.unpack,
      pack_unpack_of_valid f.valid]
  simp only [Float.Model.unpack, Float.Model.pack, hpack, unpack_packComponents]
  exact (ofFields_eq_finite hfields).2 r

theorem ofFields_ne_notANumber {s : Sign} {ev : BitVec 11} {mv : BitVec 52}
    (h : ev = -1#11 → mv = 0#52) : ofFields s ev mv ≠ .notANumber := by
  unfold ofFields
  split
  · rename_i he
    rw [if_pos (h he)]
    exact UnpackedFloat.noConfusion
  split
  · split <;> exact UnpackedFloat.noConfusion
  · exact UnpackedFloat.noConfusion

/-- What is a number is stored as one, even if it is too large. -/
theorem unpack_pack_ne_notANumber {u : UnpackedFloat} (hu : u ≠ .notANumber) :
    (Float.Model.pack u).unpack ≠ .notANumber := by
  obtain ⟨s, ev, mv, hm, hpack⟩ : ∃ s ev mv, (ev = -1#11 → mv = 0#52) ∧
      UnpackedFloat.pack Format.binary64 u = packComponents Format.binary64 s ev mv := by
    cases u with
    | notANumber => exact absurd rfl hu
    | infinity s => exact ⟨s, -1#11, 0#52, fun _ => rfl, rfl⟩
    | zero s => exact ⟨s, 0#11, 0#52, fun _ => rfl, rfl⟩
    | finite s m e h =>
      obtain ⟨ev, mv, hm, hpack⟩ := pack_finite m e h
      exact ⟨s, ev, mv, hm, hpack s⟩
  simp only [Float.Model.unpack, Float.Model.pack, hpack, unpack_packComponents]
  exact ofFields_ne_notANumber hm

end Binary64

end StepLisp
