import Mathlib.Data.List.Basic
import Mathlib.Data.List.GetD
import Mathlib.Data.List.Range
/-!
# Lists read and written cyclically

`cyc buf s n` reads `n` entries of `buf` from index `s` on, going round the
end. `put buf i xs` overwrites the entries from `i` on with `xs`, without
going round, and never changes the length. A block that does go round is read (`cyc_split`) and written
(`cyc_putCyc`) in two linear pieces.
-/

namespace NebulaToolkit.Lib

variable {α : Type} [Inhabited α]

/-- The `n` entries of `buf` from index `s` on, going round the end. -/
def cyc (buf : List α) (s n : Nat) : List α :=
  (List.range n).map fun i => buf.getD ((s + i) % buf.length) default

/-- `n` entries of `buf` from index `i` on, within its bounds. -/
def slice (buf : List α) (i n : Nat) : List α := (buf.drop i).take n

/-- `buf` with the entries from index `i` on overwritten by `xs`; what does not
fit is dropped. -/
def put : List α → Nat → List α → List α
  | [], _, _ => []
  | b :: bs, i + 1, xs => b :: put bs i xs
  | b :: bs, 0, [] => b :: bs
  | _ :: bs, 0, x :: xs => x :: put bs 0 xs

/-! ## Indices -/

/-- Going round at most once is one subtraction. -/
theorem mod_round {s i c : Nat} (hs : s < c) (hi : i ≤ c) :
    (s + i) % c = if s + i < c then s + i else s + i - c := by
  split
  · exact Nat.mod_eq_of_lt ‹_›
  · rw [Nat.mod_eq_sub_mod (by omega), Nat.mod_eq_of_lt (by omega)]

/-- Offsets below the length name different entries. -/
theorem mod_round_inj {s i j c : Nat} (hs : s < c) (hi : i < c) (hj : j < c)
    (h : (s + i) % c = (s + j) % c) : i = j := by
  rw [mod_round hs (by omega), mod_round hs (by omega)] at h
  split at h <;> split at h <;> omega

/-! ## Reading -/

@[simp] theorem cyc_length (buf : List α) (s n : Nat) : (cyc buf s n).length = n := by simp [cyc]

@[simp] theorem cyc_zero (buf : List α) (s : Nat) : cyc buf s 0 = [] := rfl

@[simp] theorem getElem_cyc (buf : List α) (s n i : Nat) (h : i < (cyc buf s n).length) :
    (cyc buf s n)[i] = buf.getD ((s + i) % buf.length) default := by simp [cyc]

theorem cyc_add (buf : List α) (s m n : Nat) : cyc buf s (m + n) = cyc buf s m ++ cyc buf (s + m) n := by
  simp [cyc, List.range_add, Nat.add_assoc]

theorem cyc_mod (buf : List α) (s n : Nat) : cyc buf (s % buf.length) n = cyc buf s n := by
  simp [cyc]

theorem take_cyc (buf : List α) (s : Nat) {m n : Nat} (h : m ≤ n) : (cyc buf s n).take m = cyc buf s m := by
  obtain ⟨k, rfl⟩ := Nat.exists_eq_add_of_le h
  rw [cyc_add, List.take_left' (cyc_length _ _ _)]

theorem drop_cyc (buf : List α) (s : Nat) {m n : Nat} (h : m ≤ n) :
    (cyc buf s n).drop m = cyc buf (s + m) (n - m) := by
  obtain ⟨k, rfl⟩ := Nat.exists_eq_add_of_le h
  rw [cyc_add, List.drop_left' (cyc_length _ _ _), Nat.add_sub_cancel_left]

/-- A block that does not go round is a slice. -/
theorem cyc_linear {buf : List α} {s n : Nat} (h : s + n ≤ buf.length) : cyc buf s n = slice buf s n := by
  apply List.ext_getElem
  · simp [slice]; omega
  · intro i h1 h2
    rw [cyc_length] at h1
    rw [getElem_cyc, Nat.mod_eq_of_lt (by omega), List.getD_eq_getElem _ _ (by omega)]
    simp [slice]

/-- A block is the slice up to the end and then a slice from the start. -/
theorem cyc_split {buf : List α} {s n : Nat} (hs : s < buf.length) (hn : n ≤ buf.length) :
    cyc buf s n = slice buf s (min n (buf.length - s)) ++ slice buf 0 (n - min n (buf.length - s)) := by
  rw [← cyc_linear (by omega), ← cyc_linear (by omega)]
  conv_lhs => rw [show n = min n (buf.length - s) + (n - min n (buf.length - s)) by omega, cyc_add]
  congr 1
  by_cases h : n ≤ buf.length - s
  · simp [Nat.min_eq_left h]
  · rw [Nat.min_eq_right (by omega), ← cyc_mod, show s + (buf.length - s) = buf.length by omega, Nat.mod_self]

/-! ## Writing -/

omit [Inhabited α] in
@[simp] theorem put_length (buf : List α) (i : Nat) (xs : List α) : (put buf i xs).length = buf.length := by
  fun_induction put buf i xs <;> simp_all

omit [Inhabited α] in
@[simp] theorem put_nil (buf : List α) (i : Nat) : put buf i [] = buf := by
  induction buf generalizing i with
  | nil => rfl
  | cons b bs ih => cases i <;> simp [put, ih]

omit [Inhabited α] in
/-- Two blocks behind one another are one block. -/
theorem put_append (buf : List α) (i : Nat) (xs ys : List α) :
    put (put buf i xs) (i + xs.length) ys = put buf i (xs ++ ys) := by
  fun_induction put buf i xs with
  | case1 i xs => rfl
  | case2 b bs i xs ih =>
    rw [Nat.succ_add, put, ih, put]
  | case3 b bs => simp
  | case4 b bs x xs ih =>
    rw [Nat.zero_add] at ih ⊢
    rw [List.length_cons, put, ih, List.cons_append, put]

omit [Inhabited α] in
theorem put_start {buf xs : List α} (h : xs.length ≤ buf.length) :
    put buf 0 xs = xs ++ buf.drop xs.length := by
  induction xs generalizing buf with
  | nil => simp
  | cons x xs ih =>
    cases buf with
    | nil => simp at h
    | cons b bs => rw [put, ih (by simpa using h), List.length_cons, List.drop_succ_cons, List.cons_append]

omit [Inhabited α] in
/-- What `put` leaves at index `j`. -/
theorem getElem?_put {buf : List α} {i : Nat} {xs : List α} (h : i + xs.length ≤ buf.length) (j : Nat) :
    (put buf i xs)[j]? = if i ≤ j ∧ j < i + xs.length then xs[j - i]? else buf[j]? := by
  fun_induction put buf i xs generalizing j with
  | case1 i xs => 
    have hx : i = 0 ∧ xs.length = 0 := by simpa using h
    rw [if_neg (by omega)]
  | case2 b bs i xs ih =>
    cases j with
    | zero => simp
    | succ j =>
      rw [List.getElem?_cons_succ, ih (by simpa [Nat.succ_add] using h) j, List.getElem?_cons_succ,
        Nat.add_sub_add_right]
      exact if_congr (by omega) rfl rfl
  | case3 b bs => rw [if_neg (by simp)]
  | case4 b bs x xs ih =>
    cases j with
    | zero => simp
    | succ j =>
      rw [List.getElem?_cons_succ, ih (by simpa using h) j, List.getElem?_cons_succ]
      refine if_congr (by simp) ?_ rfl
      simp

theorem getD_put {buf : List α} {i : Nat} {xs : List α} (h : i + xs.length ≤ buf.length) (j : Nat) :
    (put buf i xs).getD j default =
      if i ≤ j ∧ j < i + xs.length then xs.getD (j - i) default else buf.getD j default := by
  simp only [List.getD_eq_getElem?_getD, getElem?_put h]
  exact apply_ite (Option.getD · default) _ _ _

omit [Inhabited α] in
/-- Two blocks one behind the other, when the second is put down `r` places too early: it
comes out right only if entries `r` places apart are equal from there on, and the last `r`
entries were in place before. -/
theorem put_early_iff {v xs ys : List α} {r : Nat} (hr : r ≤ xs.length)
    (hv : xs.length + ys.length ≤ v.length) :
    put (put v 0 xs) (xs.length - r) ys = xs ++ ys ++ v.drop (xs.length + ys.length) ↔
      (∀ i, xs.length - r ≤ i → i + r < xs.length + ys.length → (xs ++ ys)[i]? = (xs ++ ys)[i + r]?) ∧
        ∀ i, xs.length + ys.length - r ≤ i → xs.length ≤ i → i < xs.length + ys.length →
        v[i]? = (xs ++ ys)[i]? := by
  have hput (i : Nat) : (put (put v 0 xs) (xs.length - r) ys)[i]? =
      if xs.length - r ≤ i ∧ i + r < xs.length + ys.length then (xs ++ ys)[i + r]?
      else if i < xs.length then (xs ++ ys)[i]? else v[i]? := by
    rw [getElem?_put (by rw [put_length]; omega), getElem?_put (by omega)]
    by_cases h : xs.length - r ≤ i ∧ i + r < xs.length + ys.length
    · rw [if_pos (by omega), if_pos h, List.getElem?_append_right (by omega)]
      congr 1; omega
    · rw [if_neg (by omega), if_neg h]
      by_cases h' : i < xs.length
      · rw [if_pos (by omega), if_pos h', List.getElem?_append_left h', Nat.sub_zero]
      · rw [if_neg (by omega), if_neg h']
  have hgoal (i : Nat) : (xs ++ ys ++ v.drop (xs.length + ys.length))[i]? =
      if i < xs.length + ys.length then (xs ++ ys)[i]? else v[i]? := by
    split
    · rw [List.getElem?_append_left (by rw [List.length_append]; assumption)]
    · rw [List.getElem?_append_right (by rw [List.length_append]; omega), List.getElem?_drop,
        List.length_append]
      congr 1; omega
  rw [List.ext_getElem?_iff]
  constructor
  · intro h
    refine ⟨fun i h1 h2 => ?_, fun i h1 h2 h3 => ?_⟩
    · have hi := h i
      rw [hput, hgoal, if_pos ⟨h1, h2⟩, if_pos (by omega)] at hi
      exact hi.symm
    · have hi := h i
      rw [hput, hgoal, if_neg (by omega), if_neg (by omega), if_pos h3] at hi
      exact hi
  · rintro ⟨h1, h2⟩ i
    rw [hput, hgoal]
    by_cases ha : xs.length - r ≤ i ∧ i + r < xs.length + ys.length
    · rw [if_pos ha, if_pos (by omega), h1 i ha.1 ha.2]
    rw [if_neg ha]
    by_cases hb : i < xs.length
    · rw [if_pos hb, if_pos (by omega)]
    rw [if_neg hb]
    by_cases hc : i < xs.length + ys.length
    · rw [if_pos hc, h2 i (by omega) (by omega) hc]
    · rw [if_neg hc]

/-- Entries that `put` does not reach read as before. -/
theorem cyc_put_other {buf xs : List α} {i r n : Nat} (h : i + xs.length ≤ buf.length)
    (hne : ∀ j < n, (r + j) % buf.length < i ∨ i + xs.length ≤ (r + j) % buf.length) :
    cyc (put buf i xs) r n = cyc buf r n := by
  apply List.ext_getElem (by simp)
  intro j h1 _
  rw [cyc_length] at h1
  have := hne j h1
  rw [getElem_cyc, getElem_cyc, put_length, getD_put h, if_neg (by omega)]

omit [Inhabited α] in
/-- What is written is read back. -/
theorem slice_put {buf xs : List α} {i : Nat} (h : i + xs.length ≤ buf.length) :
    slice (put buf i xs) i xs.length = xs := by
  apply List.ext_getElem?
  intro j
  rw [slice, List.getElem?_take, List.getElem?_drop, getElem?_put h]
  by_cases hj : j < xs.length
  · rw [if_pos hj, if_pos (by omega), Nat.add_sub_cancel_left]
  · rw [if_neg hj, List.getElem?_eq_none (by omega)]

/-- A slice grows by the entry that is put behind it. -/
theorem slice_put_succ {buf : List α} {i n : Nat} (h : i + n < buf.length) (x : α) :
    slice (put buf (i + n) [x]) i (n + 1) = slice buf i n ++ [x] := by
  rw [← cyc_linear (by simp; omega), cyc_add, cyc_put_other (by simp; omega), cyc_linear (by omega)]
  · congr 1
    apply List.ext_getElem (by simp)
    intro j h1 _
    have hj : j = 0 := by simpa using h1
    subst hj
    have hm : (i + n) % buf.length = i + n := Nat.mod_eq_of_lt h
    rw [getElem_cyc, put_length, Nat.add_zero, hm, getD_put (by simp; omega), if_pos (by simp)]
    simp
  · intro j hj
    rw [Nat.mod_eq_of_lt (by omega)]; omega

/-- A block written from index `s` on in two pieces, going round the end. -/
def putCyc (buf : List α) (s : Nat) (xs : List α) : List α :=
  put (put buf s (xs.take (buf.length - s))) 0 (xs.drop (buf.length - s))

section
variable {buf xs : List α} {s : Nat}

omit [Inhabited α] in
@[simp] theorem putCyc_length (buf : List α) (s : Nat) (xs : List α) :
    (putCyc buf s xs).length = buf.length := by
  simp [putCyc]

/-- The `i`th entry of the block, counted from `s`, is in its place. -/
theorem getD_putCyc (hs : s < buf.length) (hx : xs.length ≤ buf.length) {i : Nat} (hi : i < buf.length) :
    (putCyc buf s xs).getD ((s + i) % buf.length) default =
      if i < xs.length then xs.getD i default else buf.getD ((s + i) % buf.length) default := by
  rw [putCyc, getD_put (by simp; omega), getD_put (by simp; omega), mod_round hs (by omega)]
  simp only [List.length_take, List.length_drop, Nat.zero_le, true_and, Nat.zero_add, Nat.sub_zero]
  by_cases hr : s + i < buf.length
  · -- The entry lies before the end: the first piece holds it.
    rw [if_pos hr, if_neg (by omega)]
    by_cases hi' : i < xs.length
    · rw [if_pos (by omega), if_pos hi', Nat.add_sub_cancel_left]
      simp only [List.getD_eq_getElem?_getD]
      rw [List.getElem?_take_of_lt (by omega)]
    · rw [if_neg (by omega), if_neg hi']
  · -- The entry lies past the end: the second piece holds it.
    rw [if_neg hr]
    by_cases hi' : i < xs.length
    · rw [if_pos (by omega), if_pos hi']
      simp only [List.getD_eq_getElem?_getD]
      rw [List.getElem?_drop]
      congr 2; omega
    · rw [if_neg (by omega), if_neg (by omega), if_neg hi']

/-- The block reads back as it was written. -/
theorem cyc_putCyc (hs : s < buf.length) (hx : xs.length ≤ buf.length) :
    cyc (putCyc buf s xs) s xs.length = xs := by
  apply List.ext_getElem (cyc_length _ _ _)
  intro i h1 h2
  rw [getElem_cyc, putCyc_length, getD_putCyc hs hx (by omega), if_pos h2, List.getD_eq_getElem _ _ h2]

/-- The entries up to the block's start are untouched as long as the block does
not reach them. -/
theorem cyc_putCyc_other (hs : s < buf.length) {r n : Nat} (hrs : s = (r + n) % buf.length)
    (hx : n + xs.length ≤ buf.length) : cyc (putCyc buf s xs) r n = cyc buf r n := by
  apply List.ext_getElem (by simp)
  intro i h1 _
  rw [cyc_length] at h1
  rw [getElem_cyc, getElem_cyc, putCyc_length]
  -- Seen from `s`, the entry `i` places after `r` lies `buf.length - n + i` places on.
  have e : (r + i) % buf.length = (s + (buf.length - n + i)) % buf.length := by
    rw [hrs, Nat.mod_add_mod, show r + n + (buf.length - n + i) = r + i + buf.length by omega,
      Nat.add_mod_right]
  rw [e, getD_putCyc hs (by omega) (by omega), if_neg (by omega)]

end

end NebulaToolkit.Lib
