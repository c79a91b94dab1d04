import Mathlib.Computability.Language
import StepLisp.Source.Node
import StepLisp.Proofs.Equality

/-!
# The grammar of numerals

The texts that are numbers, as a regular language. A reader of numbers may know more spellings than
these, of infinity and of what is not a number; each of them has a letter in it that no numeral has.

* `Grammar.numeral`, the language of the numerals, and `Grammar.special`, the spellings of special
  numbers;
* `Grammar.mem_signed`, `Grammar.mem_exponent` and `Grammar.mem_unsigned`: the parts of a numeral
  are told by the characters that they begin with;
* **`Grammar.isSome_readChars?`**: what is read is a numeral;
* `Grammar.spelled_numeral`, the characters of numerals, and the letters that tell special numbers,
  `Grammar.foreign` and `Grammar.exists_foreign_of_mem_special`;
* `Numeral.Reads`, the readers that know special numbers as well, and `Numeral.filtered`, such a
  reader kept from these letters, with `Numeral.filtered_readAny?`;
* **`Numeral.read?_numerals`**, all about the texts that are numbers.
-/

namespace StepLisp

namespace Grammar

open Language Numeral

/-! ## The language -/

/-- A word of the language, or nothing. -/
def optional (L : Language Char) : Language Char := 1 + L

def sign : Language Char := {['+'], ['-']}

/-- One digit or more. -/
def digits : Language Char := {ds : List Char | ds ≠ [] ∧ Digits ds}

def point : Language Char := {['.']}

/-- Digits, with a point behind or among them or without one, or digits behind a point. -/
def mantissa : Language Char := digits * optional (point * optional digits) + point * digits

def exponent : Language Char := {['e'], ['E']} * (optional sign * digits)

def unsigned : Language Char := mantissa * optional exponent

/-- **The numerals.** -/
def numeral : Language Char := optional sign * unsigned

/-- Infinity and what is not a number, in letters of either case. -/
def specialWord : Language Char :=
  {cs : List Char | cs.map Char.toLower ∈ ["inf".toList, "infinity".toList, "nan".toList]}

/-- The spellings of special numbers. -/
def special : Language Char := optional sign * specialWord

variable {L : Language Char} {cs : List Char}

theorem mem_optional : cs ∈ optional L ↔ cs = [] ∨ cs ∈ L := Iff.rfl

theorem mem_digits : cs ∈ digits ↔ cs ≠ [] ∧ Digits cs := Iff.rfl

theorem mem_point_mul : cs ∈ point * L ↔ ∃ rest ∈ L, cs = '.' :: rest := by
  rw [mem_mul]
  constructor
  · rintro ⟨_, rfl, rest, hrest, rfl⟩
    exact ⟨rest, hrest, rfl⟩
  · rintro ⟨rest, hrest, rfl⟩
    exact ⟨['.'], rfl, rest, hrest, rfl⟩

/-! ## Signs -/

theorem takeSign_append (cs : List Char) : ∃ s ∈ optional sign, s ++ (takeSign cs).2 = cs := by
  unfold takeSign
  split
  · exact ⟨['-'], .inr (.inr rfl), rfl⟩
  · exact ⟨['+'], .inr (.inl rfl), rfl⟩
  · exact ⟨[], .inl rfl, rfl⟩

/-- Behind an optional sign there is what is left when a sign is taken, if the words of the language
have no signs. -/
theorem mem_signed (hL : ∀ w ∈ L, takeSign w = (false, w)) :
    cs ∈ optional sign * L ↔ (takeSign cs).2 ∈ L := by
  rw [mem_mul]
  constructor
  · rintro ⟨s, rfl | rfl | rfl, w, hw, rfl⟩
    · rwa [List.nil_append, hL w hw]
    · exact hw
    · exact hw
  · intro hcs
    obtain ⟨s, hs, heq⟩ := takeSign_append cs
    exact ⟨s, hs, _, hcs, heq⟩

theorem takeSign_of_mem_digits (hcs : cs ∈ digits) : takeSign cs = (false, cs) := by
  have hsign := takeSign_digits hcs.2 hcs.1 []
  rwa [List.append_nil] at hsign

/-! ## Powers of ten -/

theorem mem_exponent {c : Char} : c :: cs ∈ exponent ↔
    (c = 'e' ∨ c = 'E') ∧ (takeSign cs).2 ∈ digits := by
  rw [← mem_signed fun w => takeSign_of_mem_digits, exponent, mem_mul]
  constructor
  · rintro ⟨_, rfl | rfl, rest, hrest, heq⟩
    · obtain ⟨rfl, rfl⟩ := List.cons.inj heq
      exact ⟨.inl rfl, hrest⟩
    · obtain ⟨rfl, rfl⟩ := List.cons.inj heq
      exact ⟨.inr rfl, hrest⟩
  · rintro ⟨rfl | rfl, hrest⟩
    · exact ⟨['e'], .inl rfl, cs, hrest, rfl⟩
    · exact ⟨['E'], .inr rfl, cs, hrest, rfl⟩

theorem isSome_readExponent? : (readExponent? cs).isSome ↔ cs ∈ optional exponent := by
  cases cs with
  | nil => exact iff_of_true rfl (.inl rfl)
  | cons c rest =>
    have hdigits : (takeSign rest).2.all Char.isDigit = true ↔ Digits (takeSign rest).2 :=
      List.all_eq_true
    rw [mem_optional, mem_exponent, mem_digits, ← hdigits, readExponent?]
    simp [and_assoc]

/-! ## Digits and points -/

/-- The text does not begin with a digit. -/
def Undigited (cs : List Char) : Prop := ∀ c ∈ cs.head?, c.isDigit = false

theorem digits_takeWhile (cs : List Char) : Digits (cs.takeWhile Char.isDigit) :=
  fun _ => List.mem_takeWhile_imp

theorem splitDigits {ds : List Char} (hd : Digits ds) (hcs : Undigited cs) :
    (ds ++ cs).takeWhile Char.isDigit = ds ∧ (ds ++ cs).dropWhile Char.isDigit = cs := by
  rw [List.takeWhile_append_of_pos hd, List.dropWhile_append_of_pos hd]
  cases cs with
  | nil => simp
  | cons c rest => simp [List.takeWhile, hcs c rfl]

theorem takeFraction_point {fs : List Char} (hf : Digits fs) (hcs : Undigited cs) :
    takeFraction ('.' :: (fs ++ cs)) = (fs, cs) := by
  obtain ⟨htake, hdrop⟩ := splitDigits hf hcs
  rw [takeFraction, htake, hdrop]

theorem head?_exponent (hcs : cs ∈ optional exponent) : ∀ c ∈ cs.head?, c = 'e' ∨ c = 'E' := by
  rcases hcs with rfl | hcs
  · simp
  · cases cs with
    | nil => simp
    | cons c rest =>
      rintro _ ⟨⟩
      exact (mem_exponent.mp hcs).1

theorem undigited_exponent (hcs : cs ∈ optional exponent) : Undigited cs := by
  intro c hc
  rcases head?_exponent hcs c hc with rfl | rfl <;> rfl

theorem takeFraction_exponent (hcs : cs ∈ optional exponent) : takeFraction cs = ([], cs) := by
  unfold takeFraction
  split
  · rename_i rest
    exact absurd (head?_exponent hcs '.' rfl) (by decide)
  · rfl

theorem takeFraction_cases (cs : List Char) : takeFraction cs = ([], cs) ∨
    ∃ fs rest, Digits fs ∧ cs = '.' :: (fs ++ rest) ∧ takeFraction cs = (fs, rest) := by
  unfold takeFraction
  split
  · rename_i rest
    exact .inr ⟨_, _, digits_takeWhile rest, by rw [List.takeWhile_append_dropWhile], rfl⟩
  · exact .inl rfl

theorem mem_mantissa : cs ∈ mantissa ↔ cs ∈ digits ∨
    ∃ ds fs, Digits ds ∧ Digits fs ∧ (ds ≠ [] ∨ fs ≠ []) ∧ cs = ds ++ '.' :: fs := by
  rw [mantissa, mem_add, mem_mul, mem_point_mul]
  constructor
  · rintro (⟨ds, hd, _, rfl | hpoint, rfl⟩ | ⟨fs, hf, rfl⟩)
    · exact .inl (by rwa [List.append_nil])
    · obtain ⟨fs, hf, rfl⟩ := mem_point_mul.mp hpoint
      refine .inr ⟨ds, fs, hd.2, ?_, .inl hd.1, rfl⟩
      rcases hf with rfl | hf
      · exact nofun
      · exact hf.2
    · exact .inr ⟨[], fs, nofun, hf.2, .inr hf.1, rfl⟩
  · rintro (hd | ⟨ds, fs, hd, hf, hne, rfl⟩)
    · exact .inl ⟨cs, hd, [], .inl rfl, List.append_nil cs⟩
    · by_cases hds : ds = []
      · exact .inr ⟨fs, ⟨hne.resolve_left (not_not_intro hds), hf⟩, by rw [hds, List.nil_append]⟩
      · refine .inl ⟨ds, ⟨hds, hd⟩, '.' :: fs, .inr (mem_point_mul.mpr ⟨fs, ?_, rfl⟩), rfl⟩
        by_cases hfs : fs = []
        · exact .inl hfs
        · exact .inr ⟨hfs, hf⟩

/-- Without its sign, a numeral is some digits, and perhaps a point with some digits behind, not all
of them missing, and then perhaps a power of ten. -/
theorem mem_unsigned : cs ∈ unsigned ↔
    (cs.takeWhile Char.isDigit ≠ [] ∨ (takeFraction (cs.dropWhile Char.isDigit)).1 ≠ []) ∧
      (takeFraction (cs.dropWhile Char.isDigit)).2 ∈ optional exponent := by
  rw [unsigned, mem_mul]
  constructor
  · rintro ⟨m, hm, e, he, rfl⟩
    rcases mem_mantissa.mp hm with ⟨hne, hd⟩ | ⟨ds, fs, hd, hf, hne, rfl⟩
    · obtain ⟨htake, hdrop⟩ := splitDigits hd (undigited_exponent he)
      rw [htake, hdrop, takeFraction_exponent he]
      exact ⟨.inl hne, he⟩
    · have hpoint : Undigited ('.' :: (fs ++ e)) := by
        rintro _ ⟨⟩
        rfl
      obtain ⟨htake, hdrop⟩ := splitDigits hd hpoint
      rw [List.append_assoc, List.cons_append, htake, hdrop,
        takeFraction_point hf (undigited_exponent he)]
      exact ⟨hne, he⟩
  · rintro ⟨hne, he⟩
    have hd := digits_takeWhile cs
    have hsplit := List.takeWhile_append_dropWhile (p := Char.isDigit) (l := cs)
    rcases takeFraction_cases (cs.dropWhile Char.isDigit) with heq | ⟨fs, rest, hf, hrest, heq⟩
    · rw [heq] at hne he
      have hmem := mem_mantissa.mpr (.inl ⟨hne.resolve_right (not_not_intro rfl), hd⟩)
      exact ⟨_, hmem, _, he, hsplit⟩
    · rw [heq] at hne he
      have hmem := mem_mantissa.mpr (.inr ⟨_, fs, hd, hf, hne, rfl⟩)
      refine ⟨_, hmem, rest, he, ?_⟩
      rw [List.append_assoc, List.cons_append, ← hrest, hsplit]

theorem exists_cons_unsigned (hcs : cs ∈ unsigned) :
    ∃ c rest, cs = c :: rest ∧ (c.isDigit = true ∨ c = '.') := by
  obtain ⟨m, hm, e, -, rfl⟩ := mem_mul.mp hcs
  have hdigits : ∀ {ds : List Char} (rest : List Char), Digits ds → ds ≠ [] →
      ∃ c rest', ds ++ rest = c :: rest' ∧ (c.isDigit = true ∨ c = '.') := by
    intro ds rest hd hne
    obtain ⟨c, ds', rfl⟩ := List.exists_cons_of_ne_nil hne
    exact ⟨c, ds' ++ rest, rfl, .inl (hd c List.mem_cons_self)⟩
  rcases mem_mantissa.mp hm with ⟨hne, hd⟩ | ⟨ds, fs, hd, -, -, rfl⟩
  · exact hdigits e hd hne
  · by_cases hds : ds = []
    · exact ⟨'.', fs ++ e, by rw [hds]; rfl, .inr rfl⟩
    · rw [List.append_assoc]
      exact hdigits _ hd hds

theorem takeSign_cons {c : Char} (hplus : c ≠ '+') (hminus : c ≠ '-') :
    takeSign (c :: cs) = (false, c :: cs) := by
  unfold takeSign
  split
  · rename_i heq
    exact absurd (List.cons.inj heq).1 hminus
  · rename_i heq
    exact absurd (List.cons.inj heq).1 hplus
  · rfl

theorem takeSign_of_mem_unsigned (hcs : cs ∈ unsigned) : takeSign cs = (false, cs) := by
  obtain ⟨c, rest, rfl, hc⟩ := exists_cons_unsigned hcs
  apply takeSign_cons <;> rintro rfl <;> exact absurd hc (by decide)

theorem mem_numeral : cs ∈ numeral ↔ (takeSign cs).2 ∈ unsigned :=
  mem_signed fun _ => takeSign_of_mem_unsigned

/-- **The texts that are read are the numerals.** -/
theorem isSome_readChars? : (readChars? cs).isSome ↔ cs ∈ numeral := by
  rw [mem_numeral, mem_unsigned, ← isSome_readExponent?]
  unfold readChars?
  dsimp only
  split
  · rename_i hempty
    rw [Bool.and_eq_true, List.isEmpty_iff, List.isEmpty_iff] at hempty
    simp [hempty]
  · rename_i hempty
    rw [Bool.and_eq_true, List.isEmpty_iff, List.isEmpty_iff, not_and_or] at hempty
    rw [Option.isSome_map]
    exact (and_iff_right hempty).symm

/-! ## The characters of numerals -/

/-- All characters of all words have the property `P`. -/
def Spelled (P : Char → Prop) (L : Language Char) : Prop := ∀ cs ∈ L, ∀ c ∈ cs, P c

namespace Spelled

variable {P : Char → Prop} {M : Language Char}

theorem mul (hL : Spelled P L) (hM : Spelled P M) : Spelled P (L * M) := by
  rintro _ ⟨u, hu, w, hw, rfl⟩
  exact List.forall_mem_append.mpr ⟨hL u hu, hM w hw⟩

theorem add (hL : Spelled P L) (hM : Spelled P M) : Spelled P (L + M) := by
  rintro cs (hcs | hcs)
  · exact hL cs hcs
  · exact hM cs hcs

theorem optional (hL : Spelled P L) : Spelled P (optional L) := by
  rintro cs (rfl | hcs)
  · exact nofun
  · exact hL cs hcs

end Spelled

/-- **The characters of numerals** are the digits, the signs, the point and the letter `e`. -/
theorem spelled_numeral :
    Spelled (fun c => c.isDigit = true ∨ c ∈ ['+', '-', '.', 'e', 'E']) numeral := by
  have hsign : Spelled (fun c => c.isDigit = true ∨ c ∈ ['+', '-', '.', 'e', 'E']) sign := by
    rintro _ (rfl | rfl) <;> simp
  have hdigits : Spelled (fun c => c.isDigit = true ∨ c ∈ ['+', '-', '.', 'e', 'E']) digits :=
    fun cs hcs c hc => .inl (hcs.2 c hc)
  have hpoint : Spelled (fun c => c.isDigit = true ∨ c ∈ ['+', '-', '.', 'e', 'E']) point := by
    rintro _ rfl
    simp
  have hletter : Spelled (fun c => c.isDigit = true ∨ c ∈ ['+', '-', '.', 'e', 'E'])
      {['e'], ['E']} := by
    rintro _ (rfl | rfl) <;> simp
  have hmantissa := (hdigits.mul (hpoint.mul hdigits.optional).optional).add (hpoint.mul hdigits)
  exact hsign.optional.mul (hmantissa.mul (hletter.mul (hsign.optional.mul hdigits)).optional)

theorem exists_digit_of_mem_numeral (hcs : cs ∈ numeral) : ∃ c ∈ cs, c.isDigit = true := by
  obtain ⟨s, -, u, hu, rfl⟩ := mem_mul.mp hcs
  obtain ⟨m, hm, e, -, rfl⟩ := mem_mul.mp hu
  have hdigits : ∀ {ds : List Char}, Digits ds → ds ≠ [] → ∃ c ∈ ds, c.isDigit = true := by
    intro ds hd hne
    obtain ⟨c, hc⟩ := List.exists_mem_of_ne_nil ds hne
    exact ⟨c, hc, hd c hc⟩
  rcases mem_mantissa.mp hm with ⟨hne, hd⟩ | ⟨ds, fs, hd, hf, hds | hfs, rfl⟩
  · obtain ⟨c, hc, hdigit⟩ := hdigits hd hne
    exact ⟨c, by simp [hc], hdigit⟩
  · obtain ⟨c, hc, hdigit⟩ := hdigits hd hds
    exact ⟨c, by simp [hc], hdigit⟩
  · obtain ⟨c, hc, hdigit⟩ := hdigits hf hfs
    exact ⟨c, by simp [hc], hdigit⟩

theorem not_mem_numeral_of_exponent (hcs : cs ∈ optional sign * exponent) : cs ∉ numeral := by
  have hsign : ∀ w ∈ exponent, takeSign w = (false, w) := by
    intro w hw
    cases w with
    | nil => rfl
    | cons c rest =>
      obtain ⟨hc, -⟩ := mem_exponent.mp hw
      apply takeSign_cons <;> rintro rfl <;> exact absurd hc (by decide)
  rw [mem_signed hsign] at hcs
  rw [mem_numeral]
  intro hu
  obtain ⟨c, rest, heq, hc⟩ := exists_cons_unsigned hu
  rw [heq] at hcs
  rcases (mem_exponent.mp hcs).1 with rfl | rfl <;> exact absurd hc (by decide)

/-! ## The letters of special numbers -/

/-- A letter that is in no numeral. -/
def foreign (c : Char) : Bool := c.isAlpha && !(c == 'e' || c == 'E')

theorem isAlpha_of_isDigit {c : Char} (hc : c.isDigit = true) : c.isAlpha = false := by
  grind [Char.isDigit, Char.isAlpha, Char.isUpper, Char.isLower]

theorem not_foreign_of_mem_numeral (hcs : cs ∈ numeral) : ∀ c ∈ cs, foreign c = false := by
  intro c hc
  rcases spelled_numeral cs hcs c hc with hdigit | hmem
  · rw [foreign, isAlpha_of_isDigit hdigit, Bool.false_and]
  · fin_cases hmem <;> rfl

theorem exists_foreign_of_mem_special (hcs : cs ∈ special) : ∃ c ∈ cs, foreign c = true := by
  obtain ⟨s, -, w, hw, rfl⟩ := mem_mul.mp hcs
  have hn : 'n' ∈ w.map Char.toLower := by
    have hw' : w.map Char.toLower ∈ ["inf".toList, "infinity".toList, "nan".toList] := hw
    generalize w.map Char.toLower = lower at hw'
    fin_cases hw' <;> simp
  obtain ⟨c, hc, hlower⟩ := List.mem_map.mp hn
  refine ⟨c, List.mem_append_right s hc, ?_⟩
  have halpha : c.isAlpha = true := by
    rw [← Char.isAlpha_toLower_eq_isAlpha, hlower]
    rfl
  have he : c ≠ 'e' := by
    rintro rfl
    exact absurd hlower (by decide)
  have hE : c ≠ 'E' := by
    rintro rfl
    exact absurd hlower (by decide)
  simp [foreign, halpha, he, hE]

theorem not_mem_numeral_of_special (hcs : cs ∈ special) : cs ∉ numeral := by
  intro hn
  obtain ⟨c, hc, hforeign⟩ := exists_foreign_of_mem_special hcs
  rw [not_foreign_of_mem_numeral hn c hc] at hforeign
  cases hforeign

theorem mem_special : cs ∈ special ↔ (takeSign cs).2 ∈ specialWord := by
  refine mem_signed fun w hw => ?_
  have hw' : w.map Char.toLower ∈ ["inf".toList, "infinity".toList, "nan".toList] := hw
  cases w with
  | nil => rfl
  | cons c rest => apply takeSign_cons <;> rintro rfl <;> simp at hw'

end Grammar

namespace Numeral

open Grammar

/-! ## Readers of numbers -/

theorem isSome_read? {text : String} : (read? text).isSome ↔ text.toList ∈ numeral := by
  rw [read?, Option.isSome_map, isSome_readChars?]

theorem isNaN_read? {text : String} {x : Float} (hx : read? text = some x) : ¬ x.isNaN = true := by
  obtain ⟨n, -, rfl⟩ := Option.map_eq_some_iff.mp hx
  rw [isNaN_iff]
  exact n.value_ne_notANumber

/-- A reader of numbers: it knows the numerals and the spellings of special numbers and nothing
else, and no numeral is read as what is not a number. -/
structure Reads (reader : String → Option Float) : Prop where
  known : ∀ text, (reader text).isSome ↔ text.toList ∈ numeral ∨ text.toList ∈ special
  number : ∀ text x, text.toList ∈ numeral → reader text = some x → ¬ x.isNaN = true

/-- A reader that is not asked about texts with foreign letters. -/
def filtered (reader : String → Option Float) (text : String) : Option Float :=
  if text.toList.any foreign then none else reader text

section Reads

variable {reader : String → Option Float} {text : String}

theorem any_foreign_of_mem_numeral (hn : text.toList ∈ numeral) :
    text.toList.any foreign = false :=
  List.any_eq_false.mpr fun c hc => by simp [not_foreign_of_mem_numeral hn c hc]

/-- **Foreign letters tell the special numbers**: without them just the numerals are left. -/
theorem Reads.isSome_filtered (hr : Reads reader) :
    (filtered reader text).isSome ↔ text.toList ∈ numeral := by
  unfold filtered
  split
  · rename_i hany
    refine iff_of_false (by simp) fun hn => ?_
    rw [any_foreign_of_mem_numeral hn] at hany
    cases hany
  · rename_i hany
    rw [hr.known]
    refine or_iff_left fun hs => hany ?_
    exact List.any_eq_true.mpr (exists_foreign_of_mem_special hs)

theorem Reads.isNaN_filtered (hr : Reads reader) {x : Float} (hx : filtered reader text = some x) :
    ¬ x.isNaN = true := by
  have hn : text.toList ∈ numeral := hr.isSome_filtered.mp (by rw [hx]; rfl)
  rw [filtered, any_foreign_of_mem_numeral hn] at hx
  exact hr.number text x hn hx

theorem Reads.filtered_eq_read? (hr : Reads reader)
    (hread : ∀ text, text.toList ∈ numeral → reader text = read? text) (text : String) :
    filtered reader text = read? text := by
  by_cases hn : text.toList ∈ numeral
  · rw [filtered, any_foreign_of_mem_numeral hn, ← hread text hn]
    rfl
  · rw [Option.not_isSome_iff_eq_none.mp (mt hr.isSome_filtered.mp hn),
      Option.not_isSome_iff_eq_none.mp (mt isSome_read?.mp hn)]

end Reads

/-- The special number that a text spells. -/
def readSpecial? (text : String) : Option Float :=
  let (negative, word) := takeSign text.toList
  let word := word.map Char.toLower
  if word = "nan".toList then some Value.nan
  else if word = "inf".toList ∨ word = "infinity".toList then
    some (if negative then -1.0 / 0.0 else 1.0 / 0.0)
  else none

/-- The number that a text spells, special ones among them. -/
def readAny? (text : String) : Option Float := (read? text).or (readSpecial? text)

theorem isSome_readSpecial? {text : String} :
    (readSpecial? text).isSome ↔ text.toList ∈ special := by
  rw [mem_special]
  have hword : (takeSign text.toList).2 ∈ specialWord ↔ (takeSign text.toList).2.map Char.toLower ∈
      ["inf".toList, "infinity".toList, "nan".toList] := Iff.rfl
  simp only [hword, List.mem_cons, List.not_mem_nil, or_false]
  unfold readSpecial?
  dsimp only
  split
  · rename_i hnan
    exact iff_of_true rfl (.inr (.inr hnan))
  split
  · rename_i hinfinity
    exact iff_of_true rfl (hinfinity.imp_right .inl)
  · rename_i hnan hinfinity
    refine iff_of_false (by simp) fun hspecial => ?_
    rcases hspecial with hinf | hinfinity' | hnan'
    · exact hinfinity (.inl hinf)
    · exact hinfinity (.inr hinfinity')
    · exact hnan hnan'

theorem readAny?_of_mem_numeral {text : String} (hn : text.toList ∈ numeral) :
    readAny? text = read? text := by
  obtain ⟨x, hx⟩ := Option.isSome_iff_exists.mp (isSome_read?.mpr hn)
  rw [readAny?, hx, Option.some_or]

theorem reads_readAny? : Reads readAny? where
  known text := by
    rw [readAny?, Option.isSome_or, Bool.or_eq_true, isSome_read?, isSome_readSpecial?]
  number text x hn hx := isNaN_read? (readAny?_of_mem_numeral hn ▸ hx)

/-- **Kept from foreign letters, a reader of all numbers reads the numerals**, with their values. -/
theorem filtered_readAny? (text : String) : filtered readAny? text = read? text :=
  reads_readAny?.filtered_eq_read? (fun _ => readAny?_of_mem_numeral) text

/-- **The texts that are numbers are the numerals.** So are those that a reader of all numbers reads
if it is kept from foreign letters, and no spelling of a special number is one of them. -/
theorem read?_numerals {reader : String → Option Float} (hr : Reads reader) :
    (∀ text, (read? text).isSome ↔ text.toList ∈ numeral) ∧
    (∀ text, (filtered reader text).isSome ↔ text.toList ∈ numeral) ∧
    (∀ text, (∃ x, Atom.ofText text = .number x) ↔ text.toList ∈ numeral) ∧
    (∀ text x, read? text = some x → ¬ x.isNaN = true) ∧
    (∀ text x, filtered reader text = some x → ¬ x.isNaN = true) ∧
    (∀ cs ∈ special, cs ∉ numeral) ∧
    (∀ cs : List Char, (∀ c ∈ cs, c.isDigit = false) → cs ∉ numeral) ∧
    (∀ cs ∈ optional sign * Grammar.exponent, cs ∉ numeral) ∧
    (∀ cs : List Char, (∃ c ∈ cs, 0x80 ≤ c.toNat) → cs ∉ numeral) := by
  refine ⟨fun text => isSome_read?, fun text => hr.isSome_filtered, fun text => ?_,
    fun text x => isNaN_read?, fun text x => hr.isNaN_filtered,
    fun cs => not_mem_numeral_of_special, fun cs hcs hn => ?_,
    fun cs => not_mem_numeral_of_exponent, fun cs hcs hn => ?_⟩
  · rw [← isSome_read?, Atom.ofText, Option.isSome_iff_exists]
    cases read? text <;> simp
  · obtain ⟨c, hc, hdigit⟩ := exists_digit_of_mem_numeral hn
    rw [hcs c hc] at hdigit
    cases hdigit
  · obtain ⟨c, hc, hlarge⟩ := hcs
    rcases spelled_numeral cs hn c hc with hdigit | hmem
    · have hsmall : c.toNat ≤ '9'.toNat := (Char.isDigit_iff_toNat.mp hdigit).2
      have hnine : '9'.toNat < 0x80 := by decide
      omega
    · fin_cases hmem <;> exact absurd hlarge (by decide)

/-- A fraction without a digit before the point is a numeral, also with a negative power of ten
behind it. A power of ten without digits is none, nor is infinity, which the reader knows. -/
theorem read?_numerals_readAny? : Reads readAny? ∧ "+.5E-3".toList ∈ numeral ∧
    (∃ x, Atom.ofText "+.5E-3" = .number x) ∧ "1e".toList ∉ numeral ∧
    (readAny? "-Infinity").isSome ∧ "-Infinity".toList ∉ numeral := by
  obtain ⟨hread, -, hatom, -, -, hspecial, -⟩ := read?_numerals reads_readAny?
  have hn : "+.5E-3".toList ∈ numeral := (hread _).mp (by decide)
  have hknown : "-Infinity".toList ∈ special := isSome_readSpecial?.mp (by decide)
  exact ⟨reads_readAny?, hn, (hatom _).mpr hn, mt (hread _).mpr (by decide),
    (reads_readAny?.known _).mpr (.inr hknown), hspecial _ hknown⟩

end Numeral

end StepLisp
