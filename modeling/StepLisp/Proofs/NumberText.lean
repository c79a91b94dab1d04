import StepLisp.Number.Format
import StepLisp.Number.Numeral
import StepLisp.Proofs.Rounding

/-!
# The text of a number

The text of a finite number is a numeral, and it is read as that very number, with the sign of zero.

* `Numeral.readChars?_digits`, `Numeral.readChars?_point`, `Numeral.readChars?_minus`: how digits, a
  point among them and a minus sign are read;
* `Decimal.readChars?_positional`: the text of a decimal is a numeral for it;
* **`read?_numberText`**: the text of a finite number is read as that number;
* `Numeral.value_ne_notANumber` and `beq_self`: numerals denote numbers, and these equal themselves.
-/

namespace StepLisp

open Float.Model (UnpackedFloat Format)

namespace Numeral

/-! ## Reading digits -/

/-- A list of ASCII digits. -/
def Digits (ds : List Char) : Prop := ∀ c ∈ ds, c.isDigit = true

theorem ofDigits_eq (ds : List Char) : ofDigits ds = Nat.ofDigitChars 10 ds 0 := rfl

theorem Digits.append {ds es : List Char} (hd : Digits ds) (he : Digits es) : Digits (ds ++ es) :=
  fun c hc => (List.mem_append.mp hc).elim (hd c) (he c)

theorem digits_replicate (n : Nat) : Digits (List.replicate n '0') := by
  intro c hc
  rw [List.eq_of_mem_replicate hc]
  rfl

theorem digits_repr (n : Nat) : Digits n.repr.toList := by
  intro c hc
  rw [Nat.toList_repr] at hc
  exact Nat.isDigit_of_mem_toDigits (by decide) (by decide) hc

theorem takeSign_digits {ds : List Char} (hd : Digits ds) (hne : ds ≠ []) (rest : List Char) :
    takeSign (ds ++ rest) = (false, ds ++ rest) := by
  cases ds with
  | nil => exact absurd rfl hne
  | cons c ds =>
    have hc := hd c List.mem_cons_self
    rw [List.cons_append, takeSign]
    · intro cs heq
      rw [(List.cons.inj heq).1] at hc
      exact absurd hc (by decide)
    · intro cs heq
      rw [(List.cons.inj heq).1] at hc
      exact absurd hc (by decide)

theorem takeWhile_digits {ds : List Char} (hd : Digits ds) : ds.takeWhile Char.isDigit = ds :=
  List.takeWhile_eq_self_iff.mpr hd

theorem dropWhile_digits {ds : List Char} (hd : Digits ds) : ds.dropWhile Char.isDigit = [] :=
  List.dropWhile_eq_nil_iff.mpr hd

theorem readChars?_digits {ds : List Char} (hd : Digits ds) (hne : ds ≠ []) :
    readChars? ds = some ⟨false, ofDigits ds, 0⟩ := by
  have hs := takeSign_digits hd hne []
  rw [List.append_nil] at hs
  simp [readChars?, hs, takeWhile_digits hd, dropWhile_digits hd, takeFraction, readExponent?, hne]

/-- Digits with a point among them are read as their number, scaled by the digits behind it. -/
theorem readChars?_point {ds fs : List Char} (hd : Digits ds) (hf : Digits fs) (hne : ds ≠ []) :
    readChars? (ds ++ '.' :: fs) = some ⟨false, ofDigits (ds ++ fs), -fs.length⟩ := by
  have hs := takeSign_digits hd hne ('.' :: fs)
  have ht : (ds ++ '.' :: fs).takeWhile Char.isDigit = ds := by
    rw [List.takeWhile_append_of_pos hd]
    simp [List.takeWhile]
  have hr : (ds ++ '.' :: fs).dropWhile Char.isDigit = '.' :: fs := by
    rw [List.dropWhile_append_of_pos hd]
    rfl
  simp [readChars?, hs, ht, hr, takeWhile_digits hf, dropWhile_digits hf, takeFraction,
    readExponent?, hne]

theorem readChars?_minus {cs : List Char} {n : Numeral} (hs : takeSign cs = (false, cs))
    (h : readChars? cs = some n) : readChars? ('-' :: cs) = some { n with negative := true } := by
  have hm : takeSign ('-' :: cs) = (true, cs) := rfl
  unfold readChars? at h ⊢
  simp only [hs, hm] at h ⊢
  split at h
  · cases h
  · rename_i hdigits
    rw [if_neg hdigits]
    obtain ⟨x, hx, rfl⟩ := Option.map_eq_some_iff.mp h
    rw [hx]
    rfl

end Numeral

/-! ## The text of a decimal -/

namespace Decimal

open Numeral

theorem positional_ofNat (g k : Nat) :
    (positional "" ⟨g, .ofNat k⟩).toList = g.repr.toList ++ List.replicate k '0' := by
  simp [positional]

theorem positional_negSucc (g k : Nat) : ∃ ds fs,
    (positional "" ⟨g, .negSucc k⟩).toList = ds ++ '.' :: fs ∧ Digits ds ∧ Digits fs ∧ ds ≠ [] ∧
      fs.length = k + 1 ∧ ofDigits (ds ++ fs) = g := by
  obtain ⟨padded, hp⟩ : ∃ padded, List.replicate (k + 2 - g.repr.toList.length) '0' ++
      g.repr.toList = padded := ⟨_, rfl⟩
  have hlen : k + 2 ≤ padded.length := by
    rw [← hp, List.length_append, List.length_replicate]
    omega
  have hd : Digits padded := hp ▸ (digits_replicate _).append (digits_repr g)
  refine ⟨padded.take (padded.length - (k + 1)), padded.drop (padded.length - (k + 1)), ?_, ?_, ?_,
    ?_, ?_, ?_⟩
  · simp only [positional, hp, String.toList_append, String.toList_ofList, List.append_assoc]
    rfl
  · exact fun c hc => hd c (List.mem_of_mem_take hc)
  · exact fun c hc => hd c (List.mem_of_mem_drop hc)
  · intro hnil
    have := congrArg List.length hnil
    rw [List.length_take, List.length_nil] at this
    omega
  · rw [List.length_drop]
    omega
  · rw [List.take_append_drop, ← hp, ofDigits_eq, Nat.ofDigitChars_append,
      Nat.ofDigitChars_replicate_zero, Nat.mul_zero, Nat.toList_repr, Nat.ofDigitChars_ten_toDigits]

/-- **A decimal that rounds to a number has a text without a sign, which is a numeral of that
number.** -/
theorem readChars?_positional {d : Decimal} {m : Nat} {e : Int} (hm : 0 < m)
    (h : d.roundsTo m e = true) : ∃ g x,
    takeSign (positional "" d).toList = (false, (positional "" d).toList) ∧
    readChars? (positional "" d).toList = some ⟨false, g, x⟩ ∧
    UnpackedFloat.ofScientific Format.binary64 g x = .finite .positive m e hm := by
  rw [roundsTo_iff hm] at h
  obtain ⟨g, k | k⟩ := d
  · have hd := (digits_repr g).append (digits_replicate k)
    have hne : g.repr.toList ++ List.replicate k '0' ≠ [] := by simp
    have hs := takeSign_digits hd hne []
    rw [List.append_nil] at hs
    rw [positional_ofNat]
    refine ⟨_, _, hs, readChars?_digits hd hne, ?_⟩
    have hfinite : UnpackedFloat.ofScientific Format.binary64 g k ≠ .infinity .positive :=
      fun hi => UnpackedFloat.noConfusion (hi.symm.trans h)
    rw [ofDigits_eq, Nat.ofDigitChars_append, Nat.ofDigitChars_replicate_zero, Nat.toList_repr,
      Nat.ofDigitChars_ten_toDigits, Nat.mul_comm, Binary64.ofScientific_shift hfinite]
    exact h
  · obtain ⟨ds, fs, htext, hd, hf, hne, hlen, hg⟩ := positional_negSucc g k
    rw [htext]
    refine ⟨_, _, takeSign_digits hd hne _, readChars?_point hd hf hne, ?_⟩
    rw [hg, hlen]
    exact h

end Decimal

/-! ## The text of a number -/

open Numeral

/-- Whether a number is neither infinite nor undefined. -/
def FiniteNumber (x : Float) : Prop :=
  x.toModel.unpack ≠ .notANumber ∧ ∀ s, x.toModel.unpack ≠ .infinity s

theorem ofModel_pack {x : Float} {u : UnpackedFloat} (h : x.toModel.unpack = u) :
    Float.ofModel (Float.Model.pack u) = x := by
  rw [← h, Binary64.pack_unpack]

theorem numberText_eq {x : Float} {u : UnpackedFloat} (h : x.toModel.unpack = u) :
    numberText x = NumberFormat.plain.writeUnpacked u := by
  rw [numberText, NumberFormat.write, h]

theorem Numeral.value_negative {g : Nat} {k : Int} {m : Nat} {e : Int} {hm : 0 < m} {x : Float}
    (h : UnpackedFloat.ofScientific Format.binary64 g k = .finite .positive m e hm)
    (hx : x.toModel.unpack = .finite .negative m e hm) : value ⟨true, g, k⟩ = x := by
  have hu : (Float.Model.ofScientific g k).unpack = .finite .positive m e hm := by
    rw [Float.Model.ofScientific, h]
    exact Binary64.unpack_pack_finite hx .positive
  have hneg : value ⟨true, g, k⟩ =
      Float.ofModel (Float.Model.pack (Float.Model.ofScientific g k).unpack.neg) := rfl
  rw [hneg, hu]
  exact ofModel_pack hx

/-- **The text of a finite number is read as that number**, and the sign of zero is kept. -/
theorem read?_numberText {x : Float} (hx : FiniteNumber x) :
    Numeral.read? (numberText x) = some x := by
  rcases hu : x.toModel.unpack with s | _ | s | ⟨s, m, e, hm⟩
  · exact absurd hu (hx.2 s)
  · exact absurd hu hx.1
  · have hzero : Numeral.read? (NumberFormat.plain.writeUnpacked (.zero s)) =
        some (Float.ofModel (Float.Model.pack (.zero s))) := by
      cases s <;> rfl
    rw [numberText_eq hu, hzero, ofModel_pack hu]
  · have hround := Decimal.roundsTo_shortest (Binary64.canonical_of_unpack hu)
    obtain ⟨g, k, hsign, hread, hg⟩ := Decimal.readChars?_positional hm hround
    rw [numberText_eq hu, Numeral.read?]
    cases s with
    | positive =>
      have htext : (NumberFormat.plain.writeUnpacked (.finite .positive m e hm)).toList =
          (Decimal.positional "" (.shortest m e)).toList := by
        simp [NumberFormat.writeUnpacked, NumberFormat.signText, NumberFormat.writeDecimal,
          NumberFormat.plain]
      have hvalue : value ⟨false, g, k⟩ = Float.ofModel (Float.Model.ofScientific g k) := rfl
      rw [htext, hread, Option.map_some, hvalue, Float.Model.ofScientific, hg, ofModel_pack hu]
    | negative =>
      have htext : (NumberFormat.plain.writeUnpacked (.finite .negative m e hm)).toList =
          '-' :: (Decimal.positional "" (.shortest m e)).toList := by
        simp [NumberFormat.writeUnpacked, NumberFormat.signText, NumberFormat.writeDecimal,
          NumberFormat.plain]
      rw [htext, readChars?_minus hsign hread, Option.map_some, value_negative hg hu]

theorem Numeral.value_ne_notANumber (n : Numeral) : n.value.toModel.unpack ≠ .notANumber := by
  have hpos : (Float.Model.ofScientific n.digits n.exponent).unpack ≠ .notANumber := by
    refine Binary64.unpack_pack_ne_notANumber ?_
    rcases Binary64.ofScientific_cases n.digits n.exponent with h | h | ⟨m, e, hm, h⟩ <;>
      rw [h] <;> exact UnpackedFloat.noConfusion
  unfold value
  dsimp only
  split
  · refine Binary64.unpack_pack_ne_notANumber ?_
    cases hu : (Float.Model.ofScientific n.digits n.exponent).unpack
    · exact UnpackedFloat.noConfusion
    · exact absurd hu hpos
    · exact UnpackedFloat.noConfusion
    · exact UnpackedFloat.noConfusion
  · exact hpos

theorem beq_self {x : Float} (hn : x.toModel.unpack ≠ .notANumber) : (x == x) = true :=
  (UnpackedFloat.beq_iff_ne_notANumber_and_eq _ _).mpr ⟨hn, hn, .inl rfl⟩

end StepLisp
