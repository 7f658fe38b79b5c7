import NebulaToolkit.RingBuffer
/-!
# Resizing

`Resize` resizes the vector and nothing else. The indices and the length keep
their values, and mean something else modulo the new capacity. So it is safe
only while the stored bytes and the cell behind them lie in one piece that
the new vector still has (`resize_iff`).
-/

namespace NebulaToolkit.RingBuffer

open Lib

/-- `Resize(buffer_size)`: the returned size, or `none` when the vector refuses the
size with a `std::length_error`. New cells are zero. -/
def resize (rb : RingBuffer) (bufferSize : Nat) : Option Nat × RingBuffer :=
  if h : bufferSize ≤ maxSize then
    let rb' : RingBuffer := { rb with
      buffer := rb.buffer.take bufferSize ++ List.replicate (bufferSize - rb.buffer.length) 0
      size_le := by simp; omega }
    (some rb'.capacity, rb')
  else (none, rb)

/-- The invariant holds for the new capacity, and the stored bytes are the same if
they fit. -/
def Survives (rb : RingBuffer) (bufferSize : Nat) : Prop :=
  (rb.resize bufferSize).2.Inv ∧ (rb.length ≤ bufferSize → (rb.resize bufferSize).2.content = rb.content)

section
variable {rb : RingBuffer} {n : Nat}

theorem resize_capacity (h : n ≤ maxSize) : (rb.resize n).2.capacity = n := by
  simp only [resize, dif_pos h, capacity, List.length_append, List.length_take, List.length_replicate]
  omega

theorem resize_fields (rb : RingBuffer) (n : Nat) :
    (rb.resize n).2.readIndex = rb.readIndex ∧ (rb.resize n).2.writeIndex = rb.writeIndex ∧
    (rb.resize n).2.length = rb.length := by
  unfold resize
  split <;> exact ⟨rfl, rfl, rfl⟩

/-- The cells of both vectors are the same. -/
theorem resize_getD (h : n ≤ maxSize) {i : Nat} (hn : i < n) (hc : i < rb.capacity) :
    (rb.resize n).2.buffer.getD i default = rb.buffer.getD i default := by
  unfold capacity at hc
  simp only [resize, dif_pos h, List.getD_eq_getElem?_getD]
  rw [List.getElem?_append_left (by rw [List.length_take]; omega), List.getElem?_take_of_lt hn]

theorem resize_refused (h : maxSize < n) : (rb.resize n).2 = rb := by
  rw [resize, dif_neg (by omega)]

/-- With the size it has, nothing changes. -/
theorem resize_same : (rb.resize rb.capacity).2 = rb := by
  have h : rb.capacity ≤ maxSize := rb.size_le
  rw [resize, dif_pos h]
  unfold capacity
  apply RingBuffer.ext <;> simp

variable (hi : rb.Inv)
include hi

/-- Stored bytes in one piece, with a cell behind them: they stay where they are. -/
theorem resize_linear (h : n ≤ maxSize) (hc : rb.readIndex + rb.length < rb.capacity)
    (hn : rb.readIndex + rb.length < n) :
    rb.Survives n := by
  have hw : rb.writeIndex = rb.readIndex + rb.length := by rw [hi.write_eq, Nat.mod_eq_of_lt hc]
  obtain ⟨hri, hwi, hle⟩ := rb.resize_fields n
  refine ⟨?_, fun _ => ?_⟩
  · constructor <;> rw [resize_capacity h]
    · rw [hri]; omega
    · rw [hwi, hw]; exact hn
    · rw [hle]; omega
    · rw [hri, hwi, hle, hw, Nat.mod_eq_of_lt hn]
  · have hlen : (rb.resize n).2.buffer.length = n := resize_capacity h
    unfold content
    rw [hri, hle]
    apply List.ext_getElem (by simp)
    intro i h1 _
    rw [cyc_length] at h1
    have hin : (rb.readIndex + i) % (rb.resize n).2.buffer.length = rb.readIndex + i := by
      rw [hlen]; exact Nat.mod_eq_of_lt (by omega)
    have hic : (rb.readIndex + i) % rb.buffer.length = rb.readIndex + i :=
      Nat.mod_eq_of_lt (by unfold capacity at hc; omega)
    rw [getElem_cyc, getElem_cyc, hin, hic]
    exact resize_getD h (by omega) (by omega)

/-- The write index of bytes that go round, or end where the array does, is not theirs
modulo another capacity. -/
theorem resize_round (h : n ≤ maxSize) (hne : n ≠ rb.capacity) (hc : rb.capacity ≤ rb.readIndex + rb.length) :
    ¬ (rb.resize n).2.Inv := by
  rintro ⟨hr, -, hl, hw⟩
  obtain ⟨hri, hwi, hle⟩ := rb.resize_fields n
  rw [resize_capacity h] at hr hl hw
  rw [hri] at hr
  rw [hle] at hl
  have hr' := hi.read_lt
  have hl' := hi.length_le
  rw [hwi, hri, hle, hi.write_eq, mod_round hr' hl', if_neg (by omega), mod_round hr hl] at hw
  split at hw <;> omega

/-- A `Resize` leaves a valid buffer with the same bytes just when the vector refuses
the size, has it already, or keeps all of the stored bytes and the cell behind them,
and these lie in one piece. -/
theorem resize_iff : rb.Survives n ↔
    maxSize < n ∨ n = rb.capacity ∨ rb.readIndex + rb.length < rb.capacity ∧
    rb.readIndex + rb.length < n := by
  by_cases h : maxSize < n
  · refine iff_of_true ?_ (.inl h)
    unfold Survives
    rw [resize_refused h]
    exact ⟨hi, fun _ => rfl⟩
  rw [or_iff_right h]
  by_cases hsame : n = rb.capacity
  · refine iff_of_true ?_ (.inl hsame)
    unfold Survives
    rw [hsame, resize_same]
    exact ⟨hi, fun _ => rfl⟩
  rw [or_iff_right hsame]
  replace h := Nat.not_lt.1 h
  constructor
  · rintro ⟨hinv, -⟩
    have hc : rb.readIndex + rb.length < rb.capacity := by
      by_contra hc
      exact resize_round hi h hsame (Nat.not_lt.1 hc) hinv
    -- The write index is behind the last byte, and below the new capacity.
    have hw := hinv.write_lt
    rw [(rb.resize_fields n).2.1, resize_capacity h, hi.write_eq, Nat.mod_eq_of_lt hc] at hw
    exact ⟨hc, hw⟩
  · rintro ⟨hc, hn⟩
    exact resize_linear hi h hc hn

omit hi in
/-- A full buffer grown: its write index stands on the first stored byte. -/
theorem resize_full_grown :
    let rb : RingBuffer := { length := 2, buffer := [7, 8], size_le := by decide }
    rb.Inv ∧ (rb.resize 4).1 = some 4 ∧ (rb.resize 4).2.content = [7, 8] ∧
      ((rb.resize 4).2.write [9]).2.content = [9, 8, 0] ∧ ¬ rb.Survives 4 := by
  intro rb
  refine ⟨⟨by decide, by decide, by decide, by decide⟩, by decide, by decide, by decide, ?_⟩
  rintro ⟨hinv, -⟩
  have hw := hinv.write_eq
  revert hw
  decide

omit hi in
/-- The theorem for a buffer of three cells, two of them in use. -/
theorem resize_iff_three :
    let rb : RingBuffer := { writeIndex := 2, length := 2, buffer := [7, 8, 0], size_le := by decide }
    rb.Inv ∧ rb.Survives 5 ∧ ¬ rb.Survives 2 := by
  intro rb
  have hi : rb.Inv := ⟨by decide, by decide, by decide, by decide⟩
  exact ⟨hi, (resize_iff hi).2 (by decide), mt (resize_iff hi).1 (by decide)⟩

end

end NebulaToolkit.RingBuffer
