import NebulaToolkit.IniReader
/-!
# What a lookup depends on, and which numbers it takes

A lookup sees the bindings of its section and nothing else of the file
(`getProcessedValue_congr`). A number is read by `std::stoul`, which is content
with more than numerals: with white space and a sign in front of the digits
and with anything behind them (`numerals_only_iff`).
-/

namespace NebulaToolkit

open Lib

namespace IniReader

/-! ## Sections -/

/-- The bindings of the lines that stand in the section. -/
def sectionBindings (sectionName : List Char) : Bool → List (List Char) → List (List Char × List Char)
  | _, [] => []
  | inSection, line :: rest =>
    if trim line = [] then sectionBindings sectionName inSection rest
    else if isSectionHeader (trim line) then
      sectionBindings sectionName (extractSectionName (trim line) = sectionName) rest
    else if inSection then splitKeyValue (trim line) :: sectionBindings sectionName inSection rest
    else sectionBindings sectionName inSection rest

/-- All that a file has in sections of the name. -/
def bindings (file : Option (List Char)) (sectionName : List Char) : List (List Char × List Char) :=
  match file with
  | none => []
  | some content => sectionBindings sectionName false (lines '\n' content)

theorem scan_eq (sectionName key : List Char) (inSection : Bool) (ls : List (List Char)) :
    scan sectionName key inSection ls =
    (((sectionBindings sectionName inSection ls).find? (·.1 = key)).map Prod.snd).getD [] := by
  induction ls generalizing inSection with
  | nil => rfl
  | cons line rest ih =>
    rw [scan, sectionBindings]
    by_cases hempty : trim line = []
    · rw [if_pos hempty, if_pos hempty, ih]
    rw [if_neg hempty, if_neg hempty]
    by_cases hheader : isSectionHeader (trim line) = true
    · rw [if_pos hheader, if_pos hheader, ih]
    rw [if_neg hheader, if_neg hheader]
    cases inSection with
    | false =>
      rw [if_neg (by simp), if_neg (by simp), ih]
    | true =>
      rw [if_pos rfl]
      by_cases hkey : (splitKeyValue (trim line)).1 = key
      · rw [if_pos ⟨rfl, hkey⟩, List.find?_cons_of_pos (by simpa using hkey)]
        rfl
      · rw [if_neg fun h => hkey h.2, List.find?_cons_of_neg (by simpa using hkey), ih]

theorem getRawValue_eq (file : Option (List Char)) (sectionName key : List Char) :
    getRawValue file sectionName key =
    (((bindings file sectionName).find? (·.1 = key)).map Prod.snd).getD [] := by
  cases file with
  | none => rfl
  | some content => exact scan_eq sectionName key false _

/-- Files with the same bindings in the section give the same answers for it. -/
theorem getProcessedValue_congr {file file' : Option (List Char)} {sectionName : List Char}
    (h : bindings file sectionName = bindings file' sectionName) (key : List Char) :
    getProcessedValue file sectionName key = getProcessedValue file' sectionName key := by
  unfold getProcessedValue
  rw [getRawValue_eq, getRawValue_eq, h]

/-! ## What a lookup makes of the value -/

/-- The number a `size_t` is set to, if it is set. -/
def number (file : Option (List Char)) (sectionName key : List Char) : Option Nat :=
  let raw := getProcessedValue file sectionName key
  if raw = [] then none else stoul raw

theorem getSize_eq (file : Option (List Char)) (sectionName key : List Char) (outValue : Nat) :
    getSize file sectionName key outValue =
    ((number file sectionName key).isSome, (number file sectionName key).getD outValue) := by
  unfold getSize number
  dsimp only
  split
  · rfl
  · split
    · rename_i n hn
      rw [hn]
      rfl
    · rename_i hn
      rw [hn]
      rfl

/-- What a lookup leaves in a variable, it leaves there again. -/
theorem getSize_again (file : Option (List Char)) (sectionName key : List Char) (outValue : Nat) :
    (getSize file sectionName key (getSize file sectionName key outValue).2).2 =
    (getSize file sectionName key outValue).2 := by
  rw [getSize_eq, getSize_eq]
  cases number file sectionName key <;> rfl

theorem getBool_again (file : Option (List Char)) (sectionName key : List Char) (outValue : Bool) :
    (getBool file sectionName key (getBool file sectionName key outValue).2).2 =
    (getBool file sectionName key outValue).2 := by
  unfold getBool
  dsimp only
  by_cases hraw : getProcessedValue file sectionName key = []
  · simp only [if_pos hraw]
  simp only [if_neg hraw]
  by_cases htrue : (getProcessedValue file sectionName key).map Char.toLower = "true".toList ∨
      (getProcessedValue file sectionName key).map Char.toLower = "1".toList
  · simp only [if_pos htrue]
  simp only [if_neg htrue]
  split <;> rfl

theorem getValue_again (file : Option (List Char)) (sectionName key outValue : List Char) :
    (getValue file sectionName key (getValue file sectionName key outValue).2).2 =
    (getValue file sectionName key outValue).2 := by
  unfold getValue
  dsimp only
  by_cases hraw : getProcessedValue file sectionName key = []
  · simp only [if_pos hraw]
  · simp only [if_neg hraw]

/-! ## Numerals -/

/-- A value that is no numeral but starts with a number for `std::stoul`: white space, a
sign, digits and a rest, the digits' number below `2 ^ 64`. -/
def Lenient (raw : List Char) : Prop :=
  ∃ space sign digits rest, raw = space ++ (sign ++ (digits ++ rest)) ∧ (∀ c ∈ space, isSpace c) ∧
    (sign = [] ∨ sign = ['-'] ∨ sign = ['+']) ∧ (digits ≠ [] ∧ ∀ c ∈ digits, c.isDigit) ∧
    (∀ c ∈ rest.head?, ¬ c.isDigit) ∧ decimal digits < 2 ^ 64 ∧
    (space ≠ [] ∨ sign ≠ [] ∨ rest ≠ [])

/-- Digits of a number below `2 ^ 64`, and nothing else. -/
def Numeral (raw : List Char) : Prop := raw ≠ [] ∧ (∀ c ∈ raw, c.isDigit) ∧ decimal raw < 2 ^ 64

/-- A lookup returns true for the numerals, with their number, and changes nothing otherwise. -/
structure NumeralsOnly (file : Option (List Char)) (sectionName key : List Char) (outValue : Nat) : Prop where
  taken : Numeral (getProcessedValue file sectionName key) →
    getSize file sectionName key outValue = (true, decimal (getProcessedValue file sectionName key))
  refused : ¬ Numeral (getProcessedValue file sectionName key) →
    getSize file sectionName key outValue = (false, outValue)

theorem isSpace_not_digit {c : Char} (h : isSpace c) : ¬ c.isDigit := by
  rw [Char.isDigit_iff_toNat]
  simp only [isSpace, decide_eq_true_eq] at h
  show ¬ (48 ≤ c.toNat ∧ c.toNat ≤ 57)
  rcases h with rfl | h
  · decide
  · omega

theorem ne_of_isDigit {c d : Char} (hc : c.isDigit) (hd : ¬ d.isDigit) : c ≠ d := by
  rintro rfl
  exact hd hc

section
variable {space sign digits rest : List Char} (hspace : ∀ c ∈ space, isSpace c)
    (hsign : sign = [] ∨ sign = ['-'] ∨ sign = ['+'])
  (hdigits : digits ≠ [] ∧ ∀ c ∈ digits, c.isDigit) (hrest : ∀ c ∈ rest.head?, ¬ c.isDigit)
include hspace hsign hdigits hrest

/-- The digits are read up to the first other character; the sign says whether to negate. -/
theorem stoul_eq : stoul (space ++ (sign ++ (digits ++ rest))) =
    if 2 ^ 64 ≤ decimal digits then none
    else some (if sign = ['-'] then (2 ^ 64 - decimal digits) % 2 ^ 64 else decimal digits) := by
  obtain ⟨hne, hall⟩ := hdigits
  obtain ⟨d, ds, rfl⟩ := List.exists_cons_of_ne_nil hne
  have hd : d.isDigit := hall d List.mem_cons_self
  have hdspace : ¬ isSpace d := fun h => isSpace_not_digit h hd
  have htake : ((d :: ds) ++ rest).takeWhile Char.isDigit = d :: ds := by
    rw [List.takeWhile_append_of_pos hall]
    cases rest with
    | nil => simp
    | cons r rest => rw [List.takeWhile_cons_of_neg (hrest r rfl), List.append_nil]
  have hdrop : (space ++ (sign ++ ((d :: ds) ++ rest))).dropWhile isSpace = sign ++ ((d :: ds) ++ rest) := by
    rw [List.dropWhile_append_of_pos hspace]
    rcases hsign with rfl | rfl | rfl
    · exact List.dropWhile_cons_of_neg hdspace
    · exact List.dropWhile_cons_of_neg (by decide)
    · exact List.dropWhile_cons_of_neg (by decide)
  -- The first character is the sign or a digit.
  have hnegative : (sign ++ ((d :: ds) ++ rest)).head? = some '-' ↔ sign = ['-'] := by
    rcases hsign with rfl | rfl | rfl
    · simpa using ne_of_isDigit hd (by decide)
    · simp
    · simp
  have hunsigned : (if (sign ++ ((d :: ds) ++ rest)).head? = some '-' ∨
      (sign ++ ((d :: ds) ++ rest)).head? = some '+' then
      (sign ++ ((d :: ds) ++ rest)).tail else sign ++ ((d :: ds) ++ rest)) = (d :: ds) ++ rest := by
    rcases hsign with rfl | rfl | rfl
    · have hplain : d ≠ '-' ∧ d ≠ '+' := ⟨ne_of_isDigit hd (by decide), ne_of_isDigit hd (by decide)⟩
      exact if_neg (by simpa using hplain)
    · exact if_pos (.inl rfl)
    · exact if_pos (.inr rfl)
  unfold stoul
  dsimp only
  rw [hdrop, hunsigned, htake]
  simp only [hnegative, false_or, reduceCtorEq]
  split
  · rfl
  · split <;> rfl

omit hspace hsign hdigits hrest in
/-- What `std::stoul` reads starts with white space, a sign and digits. -/
theorem stoul_some {raw : List Char} {n : Nat} (h : stoul raw = some n) : ∃ space sign digits rest,
    raw = space ++ (sign ++ (digits ++ rest)) ∧ (∀ c ∈ space, isSpace c) ∧
    (sign = [] ∨ sign = ['-'] ∨ sign = ['+']) ∧
      (digits ≠ [] ∧ ∀ c ∈ digits, c.isDigit) ∧ (∀ c ∈ rest.head?, ¬ c.isDigit) ∧
      decimal digits < 2 ^ 64 := by
  unfold stoul at h
  dsimp only at h
  generalize hbody : raw.dropWhile isSpace = body at h
  have hraw : raw = raw.takeWhile isSpace ++ body := by rw [← hbody, List.takeWhile_append_dropWhile]
  have hspace : ∀ c ∈ raw.takeWhile isSpace, isSpace c := fun c hc => List.mem_takeWhile_imp hc
  obtain ⟨sign, unsigned, hsplit, hsign, hunsigned⟩ : ∃ sign unsigned, body = sign ++ unsigned ∧
      (sign = [] ∨ sign = ['-'] ∨ sign = ['+']) ∧
      (if body.head? = some '-' ∨ body.head? = some '+' then body.tail else body) = unsigned := by
    split
    · rename_i hs
      cases body with
      | nil => simp at hs
      | cons c body =>
        refine ⟨[c], body, rfl, ?_, rfl⟩
        simpa using hs
    · exact ⟨[], body, rfl, .inl rfl, rfl⟩
  rw [hunsigned] at h
  split at h
  · cases h
  rename_i hok
  simp only [not_or, Nat.not_le] at hok
  refine ⟨raw.takeWhile isSpace, sign, unsigned.takeWhile Char.isDigit, unsigned.dropWhile Char.isDigit,
    ?_, hspace, hsign, ⟨hok.1, fun c hc => List.mem_takeWhile_imp hc⟩, fun c hc => ?_, hok.2⟩
  · rw [List.takeWhile_append_dropWhile, ← hsplit]
    exact hraw
  · have hnot := List.head?_dropWhile_not Char.isDigit unsigned
    rw [Option.mem_def.1 hc] at hnot
    simpa using hnot

end

theorem stoul_numeral {raw : List Char} (h : Numeral raw) : stoul raw = some (decimal raw) := by
  obtain ⟨hne, hall, hlt⟩ := h
  have hplain : stoul ([] ++ ([] ++ (raw ++ []))) = _ := stoul_eq (by simp) (.inl rfl) ⟨hne, hall⟩ (by simp)
  rw [if_neg (Nat.not_le.2 hlt)] at hplain
  simpa using hplain

/-- Whatever else a value has is no digit. -/
theorem Lenient.not_numeral {raw : List Char} (h : Lenient raw) : ¬ Numeral raw := by
  obtain ⟨space, sign, digits, rest, rfl, hspace, hsign, -, hrest, -, hmore⟩ := h
  rintro ⟨-, hall, -⟩
  rcases hmore with hmore | hmore | hmore
  · obtain ⟨c, cs, rfl⟩ := List.exists_cons_of_ne_nil hmore
    exact isSpace_not_digit (hspace c List.mem_cons_self) (hall c (by simp))
  · rcases hsign with rfl | rfl | rfl
    · exact hmore rfl
    · exact absurd (hall '-' (by simp)) (by decide)
    · exact absurd (hall '+' (by simp)) (by decide)
  · obtain ⟨c, cs, rfl⟩ := List.exists_cons_of_ne_nil hmore
    exact hrest c rfl (hall c (by simp))

theorem Lenient.stoul_some {raw : List Char} (h : Lenient raw) : raw ≠ [] ∧ ∃ n, stoul raw = some n := by
  obtain ⟨space, sign, digits, rest, rfl, hspace, hsign, hdigits, hrest, hlt, -⟩ := h
  rw [stoul_eq hspace hsign hdigits hrest, if_neg (Nat.not_le.2 hlt)]
  exact ⟨by simp [hdigits.1], _, rfl⟩

/-- What `std::stoul` takes is one or the other. -/
theorem numeral_or_lenient {raw : List Char} {n : Nat} (h : stoul raw = some n) :
    Numeral raw ∨ Lenient raw := by
  obtain ⟨space, sign, digits, rest, hraw, hspace, hsign, hdigits, hrest, hlt⟩ := IniReader.stoul_some h
  by_cases hmore : space ≠ [] ∨ sign ≠ [] ∨ rest ≠ []
  · exact .inr ⟨space, sign, digits, rest, hraw, hspace, hsign, hdigits, hrest, hlt, hmore⟩
  · simp only [not_or, not_not] at hmore
    obtain ⟨rfl, rfl, rfl⟩ := hmore
    rw [List.nil_append, List.nil_append, List.append_nil] at hraw
    rw [hraw]
    exact .inl ⟨hdigits.1, hdigits.2, hlt⟩

/-- Exactly the numerals are taken if and only if the value is not one that starts with a
number for `std::stoul` and is no numeral. -/
theorem numerals_only_iff (file : Option (List Char)) (sectionName key : List Char) (outValue : Nat) :
    NumeralsOnly file sectionName key outValue ↔ ¬ Lenient (getProcessedValue file sectionName key) := by
  constructor
  · intro h hlenient
    obtain ⟨hne, n, hn⟩ := hlenient.stoul_some
    have hrefused := h.refused hlenient.not_numeral
    rw [getSize_eq, number, if_neg hne, hn] at hrefused
    cases hrefused
  · intro hno
    refine ⟨fun hnumeral => ?_, fun hnot => ?_⟩
    · rw [getSize_eq, number, if_neg hnumeral.1, stoul_numeral hnumeral]
      rfl
    · have hnumber : number file sectionName key = none := by
        unfold number
        dsimp only
        split
        · rfl
        · by_contra hsome
          obtain ⟨n, hn⟩ := Option.ne_none_iff_exists'.1 hsome
          exact (numeral_or_lenient hn).elim hnot hno
      rw [getSize_eq, hnumber]
      rfl

/-- A sign and a unit: both values are taken, and one is not what it says. -/
theorem minus_one_is_taken :
    getSize (some "[s]\nk = -1 ; no number\n".toList) ['s'] ['k'] 7 = (true, 18446744073709551615) ∧
      getSize (some "[s]\nk = 12kb\n".toList) ['s'] ['k'] 7 = (true, 12) ∧
      ¬ NumeralsOnly (some "[s]\nk = -1 ; no number\n".toList) ['s'] ['k'] 7 := by
  have hminus : getSize (some "[s]\nk = -1 ; no number\n".toList) ['s'] ['k'] 7 =
      (true, 18446744073709551615) := by decide
  refine ⟨hminus, by decide, fun h => ?_⟩
  have hvalue :
      getProcessedValue (some "[s]\nk = -1 ; no number\n".toList) ['s'] ['k'] = ['-', '1'] := by decide
  have hrefused :=
    h.refused fun hn => absurd (hn.2.1 '-' (by rw [hvalue]; exact List.mem_cons_self)) (by decide)
  rw [hminus] at hrefused
  cases hrefused

end IniReader

end NebulaToolkit
