import Mathlib.Data.List.Infix
import NebulaToolkit.Lib.Word
/-!
# Searching a list for a key

`first key xs start` is the first place at or after `start` where `key` occurs
in `xs`. `forUpTo` is the loop a search is usually written with, over a
counter that is a machine word and wraps.
-/

namespace NebulaToolkit.Lib

variable {α : Type}

/-- `key` stands in `xs` from index `i` on. -/
def OccursAt (key xs : List α) (i : Nat) : Prop := key <+: xs.drop i

instance [DecidableEq α] (key xs : List α) (i : Nat) : Decidable (OccursAt key xs i) :=
  inferInstanceAs (Decidable (key <+: xs.drop i))

/-- The first place at or after `start` where `key` occurs. -/
def first [DecidableEq α] (key xs : List α) (start : Nat) : Option Nat :=
  (List.range' start (xs.length + 1 - start)).find? fun i => decide (OccursAt key xs i)

/-! ## Occurrences -/

section
variable {key xs ys : List α} {i j s : Nat}

theorem occursAt_iff : OccursAt key xs i ↔ ∀ j < key.length, xs[i + j]? = key[j]? := by
  unfold OccursAt
  rw [List.prefix_iff_getElem?]
  constructor
  · intro h j hj
    rw [List.getElem?_eq_getElem hj, ← List.getElem?_drop]; exact h j hj
  · intro h j hj
    rw [List.getElem?_drop, h j hj, List.getElem?_eq_getElem hj]

theorem OccursAt.bound (h : OccursAt key xs i) (h0 : key ≠ []) : i + key.length ≤ xs.length := by
  have hk := List.length_pos_iff.2 h0
  by_contra hlt
  have := occursAt_iff.1 h (key.length - 1) (by omega)
  rw [List.getElem?_eq_none (by omega), List.getElem?_eq_getElem (by omega)] at this
  cases this

theorem OccursAt.append (h : OccursAt key xs i) (ys : List α) : OccursAt key (xs ++ ys) i := by
  unfold OccursAt at *
  rw [List.drop_append]
  exact h.trans (List.prefix_append _ _)

theorem OccursAt.of_append (h : OccursAt key (xs ++ ys) i) (hb : i + key.length ≤ xs.length) :
    OccursAt key xs i := by
  unfold OccursAt at *
  rw [List.drop_append, show i - xs.length = 0 by omega, List.drop_zero] at h
  exact List.prefix_of_prefix_length_le h (List.prefix_append _ _) (by rw [List.length_drop]; omega)

/-- Seen from the list without its first `s` entries. -/
theorem occursAt_drop : OccursAt key (xs.drop s) i ↔ OccursAt key xs (s + i) := by
  unfold OccursAt; rw [List.drop_drop]

end

/-! ## The first occurrence -/

section
variable [DecidableEq α] {key xs ys : List α} {i s : Nat}

theorem first_eq_some (h0 : key ≠ []) : first key xs s = some i ↔
    s ≤ i ∧ OccursAt key xs i ∧ ∀ j, s ≤ j → j < i → ¬ OccursAt key xs j := by
  unfold first
  rw [List.find?_range'_eq_some]
  simp only [decide_eq_true_eq, Bool.not_eq_true', decide_eq_false_iff_not, List.mem_range'_1]
  constructor
  · rintro ⟨ho, ⟨hs, -⟩, hj⟩; exact ⟨hs, ho, hj⟩
  · rintro ⟨hs, ho, hj⟩; exact ⟨ho, ⟨hs, by have := ho.bound h0; omega⟩, hj⟩

theorem first_eq_none (h0 : key ≠ []) : first key xs s = none ↔ ∀ i, s ≤ i → ¬ OccursAt key xs i := by
  unfold first
  simp only [List.find?_range'_eq_none, Bool.not_eq_true', decide_eq_false_iff_not]
  constructor
  · intro h i hs ho
    exact h i hs (by have := ho.bound h0; omega) ho
  · intro h i hs _; exact h i hs

/-- Seen from the list without its first `n` entries. -/
theorem first_drop (h0 : key ≠ []) {n : Nat} :
    first key (xs.drop n) s = some i ↔ first key xs (n + s) = some (n + i) := by
  rw [first_eq_some h0, first_eq_some h0, occursAt_drop]
  refine and_congr (by omega) (and_congr_right fun _ => ⟨fun h j h₁ h₂ => ?_, fun h j h₁ h₂ => ?_⟩)
  · have hj := h (j - n) (by omega) (by omega)
    rwa [occursAt_drop, Nat.add_sub_cancel' (by omega)] at hj
  · rw [occursAt_drop]
    exact h (n + j) (by omega) (by omega)

theorem first_none_drop (h0 : key ≠ []) {n : Nat} :
    first key (xs.drop n) s = none ↔ first key xs (n + s) = none := by
  rw [first_eq_none h0, first_eq_none h0]
  constructor
  · intro h i hi ho
    refine h (i - n) (by omega) ?_
    rwa [occursAt_drop, Nat.add_sub_cancel' (by omega)]
  · intro h i hi ho
    exact h (n + i) (by omega) (occursAt_drop.1 ho)

/-- A key that does not occur from `s` on does not occur further on. -/
theorem first_none_later (h0 : key ≠ []) (h : first key xs s = none) {t : Nat} (hst : s ≤ t) :
    first key xs t = none :=
  (first_eq_none h0).2 fun i hi => (first_eq_none h0).1 h i (Nat.le_trans hst hi)

/-- The list from an occurrence on starts with the key. -/
theorem first_drop_self (h0 : key ≠ []) (h : first key xs s = some i) : first key (xs.drop i) 0 = some 0 := by
  rw [first_drop h0]
  exact (first_eq_some h0).2 ⟨Nat.le_refl _, ((first_eq_some h0).1 h).2.1, fun j h₁ h₂ => by omega⟩

/-- More entries behind the list do not move a first occurrence. -/
theorem first_append (h0 : key ≠ []) (h : first key xs s = some i) (ys : List α) :
    first key (xs ++ ys) s = some i := by
  obtain ⟨hs, ho, hj⟩ := (first_eq_some h0).1 h
  have hb := ho.bound h0
  exact (first_eq_some h0).2 ⟨hs, ho.append ys, fun j h1 h2 ho' => hj j h1 h2 (ho'.of_append (by omega))⟩

end

/-! ## The loop -/

/-- `for (i = 0; i <= bound; ++i) if (hit(i)) return i`, with a `w`-bit counter,
for `fuel` iterations; `none` when it is still running then. The result is
`some none` when the loop ends without a hit. -/
def forUpTo (w bound : Nat) (hit : Nat → Bool) : Nat → Nat → Option (Option Nat)
  | 0, _ => none
  | fuel + 1, i =>
    if i ≤ bound then (if hit i then some (some i) else forUpTo w bound hit fuel (wadd w i 1))
    else some none

section
variable {w bound n : Nat} {hit : Nat → Bool}

theorem forUpTo_hit (hn : n ≤ bound) (hw : n < 2 ^ w) (hh : hit n = true) {i : Nat} (hi : i ≤ n)
    (hj : ∀ j, i ≤ j → j < n → hit j = false) {fuel : Nat} (hf : n < i + fuel) :
    forUpTo w bound hit fuel i = some (some n) := by
  induction fuel generalizing i with
  | zero => omega
  | succ fuel ih =>
    rw [forUpTo, if_pos (by omega)]
    by_cases h : i = n
    · subst h; rw [if_pos hh]
    · rw [if_neg (by rw [hj i (Nat.le_refl i) (by omega)]; decide), wadd_of_lt (by omega)]
      exact ih (by omega) (fun j h1 h2 => hj j (by omega) h2) (by omega)

/-- What the loop returns is a hit. -/
theorem forUpTo_sound {fuel i : Nat} (h : forUpTo w bound hit fuel i = some (some n)) (hi : i < 2 ^ w) :
    hit n = true ∧ n < 2 ^ w := by
  induction fuel generalizing i with
  | zero => cases h
  | succ fuel ih =>
    rw [forUpTo] at h
    split at h
    · split at h
      · cases h
        exact ⟨‹_›, hi⟩
      · exact ih h wadd_lt
    · cases h

theorem forUpTo_miss (hb : bound + 1 < 2 ^ w) {i : Nat} (hi : i ≤ bound + 1)
    (hj : ∀ j, i ≤ j → j ≤ bound → hit j = false) {fuel : Nat} (hf : bound + 1 < i + fuel) :
    forUpTo w bound hit fuel i = some none := by
  induction fuel generalizing i with
  | zero => omega
  | succ fuel ih =>
    rw [forUpTo]
    by_cases h : i ≤ bound
    · rw [if_pos h, if_neg (by rw [hj i (Nat.le_refl i) h]; decide), wadd_of_lt (by omega)]
      exact ih (by omega) (fun j h1 h2 => hj j (by omega) h2) (by omega)
    · rw [if_neg h]

/-- With the largest word as its bound the loop has no other end than a hit. -/
theorem forUpTo_runs (hb : bound + 1 = 2 ^ w) (hj : ∀ j < 2 ^ w, hit j = false) (fuel : Nat) {i : Nat}
    (hi : i < 2 ^ w) :
    forUpTo w bound hit fuel i = none := by
  induction fuel generalizing i with
  | zero => rfl
  | succ fuel ih =>
    rw [forUpTo, if_pos (by omega), if_neg (by rw [hj i hi]; decide)]
    exact ih wadd_lt

end

/-- How many entries the loop has looked at after `fuel` iterations. -/
def inspections (w bound : Nat) (hit : Nat → Bool) : Nat → Nat → Nat
  | 0, _ => 0
  | fuel + 1, i =>
    if i ≤ bound then (if hit i then 1 else inspections w bound hit fuel (wadd w i 1) + 1) else 0

section
variable {w bound n : Nat} {hit : Nat → Bool}

/-- A hit ends the loop. -/
theorem inspections_hit (hw : n < 2 ^ w) (hh : hit n = true) (fuel : Nat) {i : Nat} (hi : i ≤ n) :
    i + inspections w bound hit fuel i ≤ n + 1 := by
  induction fuel generalizing i with
  | zero => exact Nat.le_succ_of_le hi
  | succ fuel ih =>
    rw [inspections]
    split
    swap
    · omega
    split
    · omega
    · have hne : i ≠ n := by rintro rfl; exact absurd hh ‹_›
      have := ih (i := i + 1) (by omega)
      rw [wadd_of_lt (by omega)]
      omega

/-- So does the bound, unless it is the largest word. -/
theorem inspections_miss (hb : bound + 1 < 2 ^ w) (fuel : Nat) {i : Nat} (hi : i ≤ bound + 1) :
    i + inspections w bound hit fuel i ≤ bound + 1 := by
  induction fuel generalizing i with
  | zero => exact hi
  | succ fuel ih =>
    rw [inspections]
    split
    swap
    · omega
    split
    · omega
    · have := ih (i := i + 1) (by omega)
      rw [wadd_of_lt (by omega)]
      omega

/-- Nothing else does. -/
theorem inspections_all (hn : n ≤ bound) (hw : n < 2 ^ w) {i : Nat} (hi : i ≤ n)
    (hj : ∀ j, i ≤ j → j < n → hit j = false) :
    inspections w bound hit (n + 1 - i) i = n + 1 - i := by
  induction hd : n - i generalizing i with
  | zero =>
    obtain rfl : i = n := by omega
    rw [show i + 1 - i = 0 + 1 by omega, inspections, if_pos hn]
    split <;> rfl
  | succ d ih =>
    have hnext := ih (i := i + 1) (by omega) (fun j h1 h2 => hj j (by omega) h2) (by omega)
    rw [show n + 1 - i = (n + 1 - (i + 1)) + 1 by omega, inspections, if_pos (by omega),
      hj i (Nat.le_refl i) (by omega), wadd_of_lt (by omega), hnext]
    rfl

end

end NebulaToolkit.Lib
