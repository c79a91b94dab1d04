import Mathlib.Data.List.Lex
import Mathlib.Data.String.Basic
import Mathlib.Data.UInt

/-!
# The order of texts

Texts are compared character by character. Their encodings in UTF-8, compared byte by byte, are in
the same order: of two characters the greater one has the greater encoding, and they differ before
either of the encodings ends.

* `Utf8.tailCount`, `Utf8.lead` and `Utf8.tail`: the encoding of a character is a leading byte, by
  which one knows the number of bytes behind it, and the digits of the character to the base 64
  (`Utf8.encodeChar_eq`);
* `Utf8.tail_lt` and **`Utf8.encodeChar_lt`**, the order of the encodings of characters;
* `textBytes`, the encoding of a text, and **`lt_iff_textBytes_lt`**.
-/

namespace StepLisp

namespace Utf8

/-- How many bytes stand behind the leading byte of the character with the code `n`. -/
def tailCount (n : Nat) : Nat :=
  if n ≤ 0x7f then 0 else if n ≤ 0x7ff then 1 else if n ≤ 0xffff then 2 else 3

/-- What a leading byte with `count` bytes behind it is marked by. -/
def mark : Nat → Nat
  | 0 => 0
  | 1 => 0xc0
  | 2 => 0xe0
  | _ => 0xf0

/-- The leading byte of the character with the code `n`. -/
def lead (n : Nat) : Nat := n / 64 ^ tailCount n + mark (tailCount n)

/-- The last `count` digits of the code `n` to the base 64, as the bytes behind a leading byte. -/
def tail : Nat → Nat → List UInt8
  | 0, _ => []
  | count + 1, n => tail count (n / 64) ++ [.ofNat (n % 64 + 0x80)]

theorem encodeChar_eq (c : Char) : String.utf8EncodeChar c =
    .ofNat (lead c.toNat) :: tail (tailCount c.toNat) c.toNat := by
  have hc : c.toNat < 0x110000 := by
    rcases c.valid with h | h
    · exact Nat.lt_trans h (by decide)
    · exact h.2
  unfold String.utf8EncodeChar lead tailCount
  simp only [Char.toNat_val]
  generalize c.toNat = n at hc
  split_ifs
  · simp [tail, mark]
  · have hlead : n / 64 % 32 = n / 64 := Nat.mod_eq_of_lt (by omega)
    simp [tail, mark, hlead]
  · have hlead : n / 4096 % 16 = n / 4096 := Nat.mod_eq_of_lt (by omega)
    simp [tail, mark, hlead]
  · have hlead : n / 262144 % 8 = n / 262144 := Nat.mod_eq_of_lt (by omega)
    simp [tail, mark, hlead, Nat.div_div_eq_div_mul]

theorem tail_lt {count m n : Nat} (hlead : m / 64 ^ count = n / 64 ^ count) (hmn : m < n)
    (as bs : List UInt8) : tail count m ++ as < tail count n ++ bs := by
  induction count generalizing m n as bs with
  | zero =>
    simp at hlead
    omega
  | succ count ih =>
    have hdigit : m / 64 < n / 64 ∨ m / 64 = n / 64 ∧ m % 64 < n % 64 := by omega
    rw [Nat.pow_succ', ← Nat.div_div_eq_div_mul, ← Nat.div_div_eq_div_mul] at hlead
    rw [tail, tail, List.append_assoc, List.append_assoc]
    rcases hdigit with hlt | ⟨heq, hlt⟩
    · exact ih hlead hlt _ _
    · rw [heq]
      refine List.append_left_lt (List.cons_lt_cons_iff.mpr (.inl ?_))
      rw [UInt8.lt_iff_toNat_lt, UInt8.toNat_ofNat', UInt8.toNat_ofNat']
      omega

theorem lead_lt_or {m n : Nat} (hmn : m < n) (hn : n < 0x110000) :
    (lead m < lead n ∧ lead n < 256) ∨
      tailCount m = tailCount n ∧ m / 64 ^ tailCount m = n / 64 ^ tailCount m := by
  unfold lead tailCount
  split_ifs <;> simp [mark] <;> omega

/-- **The encodings of characters are in the order of the characters**, whatever stands behind. -/
theorem encodeChar_lt {c d : Char} (hcd : c < d) (as bs : List UInt8) :
    String.utf8EncodeChar c ++ as < String.utf8EncodeChar d ++ bs := by
  have hlt : c.toNat < d.toNat := hcd
  have hd : d.toNat < 0x110000 := by
    rcases d.valid with h | h
    · exact Nat.lt_trans h (by decide)
    · exact h.2
  rw [encodeChar_eq, encodeChar_eq, List.cons_append, List.cons_append, List.cons_lt_cons_iff]
  rcases lead_lt_or hlt hd with ⟨hlead, hbyte⟩ | ⟨hcount, hlead⟩
  · left
    rw [UInt8.lt_iff_toNat_lt, UInt8.toNat_ofNat', UInt8.toNat_ofNat']
    omega
  · right
    rw [lead, lead, ← hcount, hlead]
    exact ⟨rfl, tail_lt hlead hlt _ _⟩

end Utf8

/-- The encoding of a text in UTF-8. -/
def textBytes (s : String) : List UInt8 := s.toUTF8.data.toList

theorem textBytes_eq (s : String) : textBytes s = s.toList.flatMap String.utf8EncodeChar := by
  rw [textBytes, String.toUTF8, ← String.utf8Encode_toList, List.utf8Encode,
    List.toList_data_toByteArray]

theorem textBytes_lt {s t : String} (hst : s < t) : textBytes s < textBytes t := by
  rw [textBytes_eq, textBytes_eq]
  rw [String.lt_iff_toList_lt] at hst
  generalize s.toList = cs at hst
  generalize t.toList = ds at hst
  induction cs generalizing ds with
  | nil =>
    cases ds with
    | nil => exact absurd hst (List.lt_irrefl _)
    | cons d ds =>
      rw [List.flatMap_cons, Utf8.encodeChar_eq]
      exact List.nil_lt_cons ..
  | cons c cs ih =>
    cases ds with
    | nil => exact absurd hst (List.not_lt_nil _)
    | cons d ds =>
      rw [List.flatMap_cons, List.flatMap_cons]
      rcases List.cons_lt_cons_iff.mp hst with hlt | ⟨rfl, hlt⟩
      · exact Utf8.encodeChar_lt hlt _ _
      · exact List.append_left_lt (ih _ hlt)

/-- **Texts are in the order of their encodings.** -/
theorem lt_iff_textBytes_lt {s t : String} : s < t ↔ textBytes s < textBytes t := by
  refine ⟨textBytes_lt, fun hlt => ?_⟩
  rcases lt_trichotomy s t with hst | rfl | hts
  · exact hst
  · exact absurd hlt (List.lt_irrefl _)
  · exact absurd hlt (List.lt_asymm (textBytes_lt hts))

theorem le_iff_textBytes_le {s t : String} : s ≤ t ↔ textBytes s ≤ textBytes t := by
  rw [← not_lt, lt_iff_textBytes_lt, List.not_lt]

end StepLisp
