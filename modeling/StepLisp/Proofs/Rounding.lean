import StepLisp.Number.Decimal
import StepLisp.Proofs.Binary64

/-!
# Rounding of decimals

A decimal is read as the nearest floating-point number. If it equals a number that can be stored, it
is read as that number; so the shortest decimal that is searched for a number always reads back.

* `Binary64.roundWithAccuracy_exact`: a number that can be stored is not rounded;
* `Binary64.ofScientific_natCast`, `Binary64.ofScientific_neg`: nor is a decimal equal to it;
* `Decimal.toRat`, the number that a decimal denotes, with `toRat_exact` and `toRat_reduce`;
* **`Decimal.roundsTo_shortest`**: the shortest decimal of a number reads back as that number.
-/

namespace StepLisp

open Float.Model Float.Model.UnpackedFloat

namespace Binary64

/-! ## Exact rounding -/

theorem shiftRight_exact (m k : Nat) :
    (⟨m * 2 ^ k, false, false⟩ : ExtendedMantissa) >>> k = ⟨m, false, false⟩ := by
  change k.repeat ExtendedMantissa.shiftRightOne ⟨m * 2 ^ k, false, false⟩ = ⟨m, false, false⟩
  induction k generalizing m with
  | zero => simp [Nat.repeat]
  | succ k ih =>
    rw [Nat.repeat, show m * 2 ^ (k + 1) = 2 * m * 2 ^ k by ring, ih]
    simp [ExtendedMantissa.shiftRightOne]

theorem log2_mul_two_pow {m : Nat} (hm : 0 < m) (k : Nat) : (m * 2 ^ k).log2 = m.log2 + k := by
  induction k with
  | zero => simp
  | succ k ih =>
    have hpos : 0 < m * 2 ^ k := Nat.mul_pos hm (Nat.two_pow_pos k)
    rw [show m * 2 ^ (k + 1) = 2 * (m * 2 ^ k) by ring, Nat.log2_two_mul hpos.ne', ih]
    rfl

theorem totalExponent_mul {m : Nat} (hm : 0 < m) (k : Nat) (e : Int) :
    totalExponent (m * 2 ^ k) (e - k) = totalExponent m e := by
  rw [totalExponent, totalExponent, log2_mul_two_pow hm]
  push_cast
  ring

theorem shiftToTargetExponent_exact {m : Nat} {e : Int} (h : Canonical m e) (k : Nat) :
    shiftToTargetExponent Format.binary64 (m * 2 ^ k) (e - k) .exact =
      (⟨m, false, false⟩, e) := by
  have hk : (e - (e - k)).toNat = k := by omega
  rw [shiftToTargetExponent, totalExponent_mul h.pos, h.target]
  simp only [shiftToExponent, hk, ExtendedMantissa.ofMantissaAndAccuracy, shiftRight_exact]
  simp

/-- **What can be stored is not rounded.** -/
theorem roundWithAccuracy_exact {m : Nat} {e : Int} (h : Canonical m e) (s : Sign) (k : Nat) :
    roundWithAccuracy Format.binary64 s (m * 2 ^ k) (e - k) .exact = .finite s m e h.pos := by
  have h0 : shiftToTargetExponent Format.binary64 m e .exact = (⟨m, false, false⟩, e) := by
    simpa using shiftToTargetExponent_exact h 0
  simp only [roundWithAccuracy, shiftToTargetExponent_exact h k, ExtendedMantissa.roundedMantissa,
    ExtendedMantissa.accuracy, Accuracy.roundToNearestEven, h0]
  rw [dif_neg h.pos.ne']

/-! ## Decimals -/

/-- Of two pairs with equal values, that with the smaller exponent is the other one shifted. -/
theorem exists_shift {n m : Nat} {a e : Int} (h : (n : ℚ) * 2 ^ a = m * 2 ^ e) (hae : a ≤ e) :
    ∃ k : Nat, n = m * 2 ^ k ∧ a = e - k := by
  obtain ⟨k, rfl⟩ := Int.le.dest hae
  refine ⟨k, ?_, by omega⟩
  rw [zpow_add₀ two_ne_zero, zpow_natCast] at h
  have h2 : (2 : ℚ) ^ a ≠ 0 := zpow_ne_zero _ two_ne_zero
  have hn : (n : ℚ) = m * 2 ^ k := by
    apply mul_right_cancel₀ h2
    rw [h]
    ring
  exact_mod_cast hn

theorem totalExponent_eq {n m : Nat} {a e : Int} (hn : 0 < n) (hm : 0 < m)
    (h : (n : ℚ) * 2 ^ a = m * 2 ^ e) : totalExponent n a = totalExponent m e := by
  rcases le_total a e with hae | hae
  · obtain ⟨k, rfl, rfl⟩ := exists_shift h hae
    exact totalExponent_mul hm k e
  · obtain ⟨k, rfl, rfl⟩ := exists_shift h.symm hae
    exact (totalExponent_mul hn k a).symm

theorem roundWithAccuracy_eq {n m : Nat} {a e : Int} (hc : Canonical m e) (s : Sign)
    (h : (n : ℚ) * 2 ^ a = m * 2 ^ e) (hae : a ≤ e) :
    roundWithAccuracy Format.binary64 s n a .exact = .finite s m e hc.pos := by
  obtain ⟨k, rfl, rfl⟩ := exists_shift h hae
  exact roundWithAccuracy_exact hc s k

theorem le_log2_of_ten_pow {n k : Nat} (hn : 0 < n) (h : 10 ^ k ≤ n) : k ≤ n.log2 :=
  (Nat.le_log2 hn.ne').mpr ((Nat.pow_le_pow_left (by decide) k).trans h)

theorem log2_mul_le {m n : Nat} (hm : 0 < m) (hn : 0 < n) :
    (m * n).log2 ≤ m.log2 + n.log2 + 1 := by
  have hlt : m * n < 2 ^ (m.log2 + 1) * 2 ^ (n.log2 + 1) :=
    Nat.mul_lt_mul'' Nat.lt_log2_self Nat.lt_log2_self
  rw [← pow_add] at hlt
  have := (Nat.log2_lt (Nat.mul_pos hm hn).ne').mpr hlt
  omega

theorem div_exact {m n d : Nat} {e : Int} (hc : Canonical m e) (hd : 0 < d) (hn : 0 < n)
    (h : (d : ℚ) * 2 ^ (0 : Int) = (m * n : Nat) * 2 ^ e) :
    UnpackedFloat.div Format.binary64 (.finite .positive d 0 hd) (.finite .positive n 0 hn) =
      .finite .positive m e hc.pos := by
  have htotal := totalExponent_eq hd (Nat.mul_pos hc.pos hn) h
  obtain ⟨t, ht⟩ : ∃ t, min (0 - 0) (Format.binary64.targetExponent
      (totalExponent d 0 - totalExponent n 0)) = t := ⟨_, rfl⟩
  have hte : t ≤ e := by
    have htarget := hc.target
    have hlog := log2_mul_le hc.pos hn
    rw [targetExponent_eq] at ht htarget
    simp only [totalExponent] at ht htarget htotal
    omega
  obtain ⟨s, rfl⟩ : ∃ s : Nat, t = -s := ⟨(-t).toNat, by omega⟩
  have hshift : ((d * 2 ^ s : Nat) : ℚ) * 2 ^ (-(s : Int)) = (m * n : Nat) * 2 ^ e := by
    rw [← h, zpow_neg, zpow_natCast, zpow_zero]
    push_cast
    field_simp
  obtain ⟨j, hj, hs⟩ := exists_shift hshift hte
  have hquot : m * n * 2 ^ j = m * 2 ^ j * n := by ring
  simp only [UnpackedFloat.div, divCore, ht]
  rw [show (0 - 0 - -(s : Int)).toNat = s by omega, Nat.shiftLeft_eq, hj, hquot,
    Nat.mul_div_cancel _ hn, Nat.mul_mod_left, hs]
  exact roundWithAccuracy_exact hc _ j

theorem ofScientific_whole {d k : Nat} (hd : 0 < d) (hk : k ≤ 2048) :
    UnpackedFloat.ofScientific Format.binary64 d k =
      roundWithAccuracy Format.binary64 .positive (d * 2 ^ 53 * 10 ^ k) (-53) .exact := by
  have hbits : (2 : Int) ^ Format.binary64.exponentBits = 2048 := rfl
  unfold UnpackedFloat.ofScientific
  rw [dif_neg hd.ne', if_neg (by omega), if_neg (by omega), if_pos (by omega)]
  simp only [UnpackedFloat.mul, Nat.shiftLeft_eq, Int.toNat_natCast, add_zero]
  rfl

theorem ofScientific_shift {d k : Nat}
    (h : UnpackedFloat.ofScientific Format.binary64 d k ≠ .infinity .positive) :
    UnpackedFloat.ofScientific Format.binary64 (d * 10 ^ k) 0 =
      UnpackedFloat.ofScientific Format.binary64 d k := by
  rcases Nat.eq_zero_or_pos d with rfl | hd
  · rw [Nat.zero_mul]
    simp [UnpackedFloat.ofScientific]
  · have hk : k ≤ 2048 := by
      have hbits : (2 : Int) ^ Format.binary64.exponentBits = 2048 := rfl
      by_contra hk
      rw [UnpackedFloat.ofScientific, dif_neg hd.ne', if_pos (by omega)] at h
      exact h rfl
    have hpos : 0 < d * 10 ^ k := Nat.mul_pos hd (Nat.pow_pos (by decide))
    calc UnpackedFloat.ofScientific Format.binary64 (d * 10 ^ k) 0
        = roundWithAccuracy Format.binary64 .positive (d * 10 ^ k * 2 ^ 53 * 10 ^ 0) (-53) .exact :=
          ofScientific_whole hpos (Nat.zero_le _)
      _ = roundWithAccuracy Format.binary64 .positive (d * 2 ^ 53 * 10 ^ k) (-53) .exact := by
          rw [pow_zero, Nat.mul_one, Nat.mul_right_comm]
      _ = UnpackedFloat.ofScientific Format.binary64 d k := (ofScientific_whole hd hk).symm

theorem ofScientific_natCast {m d k : Nat} {e : Int} (hc : Canonical m e) (hd : 0 < d)
    (h : ((d * 10 ^ k : Nat) : ℚ) * 2 ^ (0 : Int) = m * 2 ^ e) :
    UnpackedFloat.ofScientific Format.binary64 d k = .finite .positive m e hc.pos := by
  have hpos : 0 < d * 10 ^ k := Nat.mul_pos hd (Nat.pow_pos (by decide))
  have htotal := totalExponent_eq hpos hc.pos h
  have hk := le_log2_of_ten_pow hpos (Nat.le_mul_of_pos_left _ hd)
  have hlog := hc.log2_le
  have hle := hc.le
  rw [totalExponent, totalExponent] at htotal
  rw [ofScientific_whole hd (by omega)]
  refine roundWithAccuracy_eq hc _ ?_ (by omega)
  rw [← h, zpow_neg, zpow_zero]
  push_cast
  field_simp

theorem ofScientific_neg {m d k : Nat} {e : Int} (hc : Canonical m e) (hd : 0 < d) (hk : 0 < k)
    (h : (d : ℚ) * 2 ^ (0 : Int) = (m * 10 ^ k : Nat) * 2 ^ e) :
    UnpackedFloat.ofScientific Format.binary64 d (-k) = .finite .positive m e hc.pos := by
  have hpos : 0 < m * 10 ^ k := Nat.mul_pos hc.pos (Nat.pow_pos (by decide))
  have htotal := totalExponent_eq hd hpos h
  have hten := le_log2_of_ten_pow hpos (Nat.le_mul_of_pos_left _ hc.pos)
  have hge := hc.ge
  have hbits : (2 : Int) ^ Format.binary64.exponentBits = 2048 := rfl
  rw [totalExponent, totalExponent] at htotal
  unfold UnpackedFloat.ofScientific
  rw [dif_neg hd.ne', if_neg (by omega), if_neg (by omega), if_neg (by omega)]
  simp only [neg_neg, Int.toNat_natCast]
  exact div_exact hc hd _ h

theorem roundWithAccuracy_cases (s : Sign) (m : Nat) (e : Int) (a : Accuracy) :
    roundWithAccuracy Format.binary64 s m e a = .zero s ∨
      ∃ m' e' h, roundWithAccuracy Format.binary64 s m e a = .finite s m' e' h := by
  unfold roundWithAccuracy
  dsimp only
  split
  · exact .inl rfl
  · rename_i h
    exact .inr ⟨_, _, Nat.pos_of_ne_zero h, rfl⟩

theorem ofScientific_cases (d : Nat) (x : Int) :
    UnpackedFloat.ofScientific Format.binary64 d x = .zero .positive ∨
    UnpackedFloat.ofScientific Format.binary64 d x = .infinity .positive ∨
      ∃ m e h, UnpackedFloat.ofScientific Format.binary64 d x = .finite .positive m e h := by
  unfold UnpackedFloat.ofScientific
  split
  · exact .inl rfl
  split
  · exact .inr (.inl rfl)
  split
  · exact .inl rfl
  split
  · exact (roundWithAccuracy_cases _ _ _ _).imp id .inr
  · exact (roundWithAccuracy_cases _ _ _ _).imp id .inr

end Binary64

namespace Decimal

/-- The number that a decimal denotes. -/
def toRat (d : Decimal) : ℚ := d.digits * 10 ^ d.exponent

theorem toRat_reduce (d : Decimal) : d.reduce.toRat = d.toRat := by
  fun_induction reduce d with
  | case1 d h ih =>
    rw [ih, toRat, toRat, zpow_add₀ (by decide), zpow_one]
    have hdiv : d.digits = d.digits / 10 * 10 := by omega
    have hcast : (d.digits : ℚ) = (d.digits / 10 : Nat) * 10 := by exact_mod_cast hdiv
    rw [hcast]
    ring
  | case2 => rfl

theorem toRat_powerOfTwo (e : Int) : (powerOfTwo e).toRat = 2 ^ e := by
  cases e with
  | ofNat k => simp [powerOfTwo, toRat]
  | negSucc k =>
    have hten : (10 : ℚ) ^ (k + 1) = 2 ^ (k + 1) * 5 ^ (k + 1) := by
      rw [← mul_pow]
      norm_num
    simp only [powerOfTwo, toRat, zpow_negSucc, Nat.pow_eq, Nat.cast_pow, Nat.cast_ofNat, hten]
    field_simp

theorem toRat_exact (m : Nat) (e : Int) : (exact m e).toRat = m * 2 ^ e := by
  have h := toRat_powerOfTwo (e - 1)
  rw [toRat] at h
  rw [exact, toRat]
  push_cast
  rw [mul_assoc, h, zpow_sub₀ two_ne_zero]
  ring

/-- **A decimal equal to a number that can be stored is read as that number.** -/
theorem ofScientific_eq {d : Decimal} {m : Nat} {e : Int} (hc : Binary64.Canonical m e)
    (h : d.toRat = m * 2 ^ e) :
    UnpackedFloat.ofScientific Format.binary64 d.digits d.exponent =
      .finite .positive m e hc.pos := by
  have hm : (0 : ℚ) < m * 2 ^ e := mul_pos (Nat.cast_pos.mpr hc.pos) (zpow_pos two_pos e)
  have hd : 0 < d.digits := by
    refine Nat.pos_of_ne_zero fun hz => hm.ne ?_
    rw [← h, toRat, hz, Nat.cast_zero, zero_mul]
  obtain ⟨digits, k | k⟩ := d
  · refine Binary64.ofScientific_natCast hc hd ?_
    rw [← h, toRat]
    push_cast
    simp
  · refine Binary64.ofScientific_neg hc hd (Nat.succ_pos k) ?_
    have hten : (10 : ℚ) ^ (k + 1) ≠ 0 := pow_ne_zero _ (by decide)
    rw [toRat, zpow_negSucc] at h
    rw [zpow_zero, mul_one, Nat.cast_mul, mul_right_comm, ← h]
    push_cast
    field_simp

theorem roundsTo_iff {d : Decimal} {m : Nat} {e : Int} (hm : 0 < m) :
    d.roundsTo m e = true ↔ UnpackedFloat.ofScientific Format.binary64 d.digits d.exponent =
      .finite .positive m e hm := by
  unfold roundsTo
  rcases Binary64.ofScientific_cases d.digits d.exponent with h | h | ⟨m', e', hm', h⟩
  · simp [h]
  · simp [h]
  · simp [h]

/-- **The shortest decimal of a number reads back as that number.** -/
theorem roundsTo_shortest {m : Nat} {e : Int} (hc : Binary64.Canonical m e) :
    (shortest m e).roundsTo m e = true := by
  unfold shortest
  dsimp only
  generalize hf : List.findSome? _ _ = found
  cases found with
  | some d =>
    obtain ⟨i, -, hi⟩ := List.exists_of_findSome?_eq_some hf
    simpa using List.find?_some hi
  | none =>
    rw [roundsTo_iff hc.pos]
    refine ofScientific_eq hc ?_
    rw [Option.getD_none, toRat_reduce, toRat_exact]

end Decimal

end StepLisp
