import NebulaToolkit.RingBuffer
/-!
# Iterating over the ring buffer

`begin()` and `end()` are plain pointers into the array, at the read index and
at the write index. A traversal goes from one to the other cell by cell, and
knows nothing of the cyclic order.
-/

namespace NebulaToolkit.RingBuffer

open Lib

/-- `begin()`, and `data()`: a pointer is the number of the cell it points to. -/
def beginPtr (rb : RingBuffer) : Nat := rb.readIndex

/-- `end()` -/
def endPtr (rb : RingBuffer) : Nat := rb.writeIndex

/-- From the pointer `p`, with the cells `rest` of the array from there on, to `last`; `none` where the
pointer runs out of the array. -/
def walk (last : Nat) : Nat → List UInt8 → Option (List UInt8)
  | p, [] => if p = last then some [] else none
  | p, b :: rest => if p = last then some [] else (walk last (p + 1) rest).map (b :: ·)

/-- `for (p = begin(); p != end(); ++p)`: the bytes visited. -/
def iterate (rb : RingBuffer) : Option (List UInt8) := walk rb.endPtr rb.beginPtr (rb.buffer.drop rb.beginPtr)

theorem walk_reaches {last p : Nat} {rest : List UInt8} (h : p ≤ last) (hlast : last ≤ p + rest.length) :
    walk last p rest = some (rest.take (last - p)) := by
  induction rest generalizing p with
  | nil =>
    have hp : p = last := Nat.le_antisymm h hlast
    simp [walk, hp]
  | cons b rest ih =>
    by_cases hp : p = last
    · simp [walk, hp]
    · have hrest := ih (p := p + 1) (by omega) (by simp at hlast; omega)
      have hsucc : last - p = last - (p + 1) + 1 := by omega
      simp [walk, hp, hrest, hsucc]

/-- A pointer behind the last one never gets there. -/
theorem walk_misses {last p : Nat} (rest : List UInt8) (h : last < p) : walk last p rest = none := by
  induction rest generalizing p with
  | nil => simp [walk, Nat.ne_of_gt h]
  | cons b rest ih => simp [walk, Nat.ne_of_gt h, ih (Nat.lt_succ_of_lt h)]

/-- Stored bytes that end before the end of the array are visited in order. Otherwise the write index has
come round: to the read index where the ring is full, and nothing is visited, or to a place before it,
which the pointer never reaches. -/
theorem iterate_eq {rb : RingBuffer} (hi : rb.Inv) : rb.iterate =
    if rb.readIndex + rb.length < rb.capacity then some rb.content
    else if rb.length = rb.capacity then some [] else none := by
  have hl := hi.length_le
  have hr := hi.read_lt
  have hwrite := hi.write_eq
  unfold iterate endPtr beginPtr
  split
  · rename_i h
    have hw : rb.writeIndex = rb.readIndex + rb.length := by rw [hwrite, Nat.mod_eq_of_lt h]
    have hroom : rb.writeIndex ≤ rb.readIndex + (rb.buffer.drop rb.readIndex).length := by
      rw [List.length_drop]
      unfold capacity at h
      omega
    rw [walk_reaches (by omega) hroom, hw, Nat.add_sub_cancel_left, content, cyc_linear (Nat.le_of_lt h)]
    rfl
  · have hw : rb.writeIndex = rb.readIndex + rb.length - rb.capacity := by
      rw [hwrite, Nat.mod_eq_sub_mod (by omega), Nat.mod_eq_of_lt (by omega)]
    split
    · have heq : rb.writeIndex = rb.readIndex := by omega
      rw [heq, walk_reaches le_rfl (Nat.le_add_right _ _), Nat.sub_self, List.take_zero]
    · exact walk_misses _ (by omega)

/-- A traversal visits the stored bytes, one after the other, if and only if they end before the end of
the array. -/
theorem iterate_iff (rb : RingBuffer) (hi : rb.Inv) :
    rb.iterate = some rb.content ↔ rb.readIndex + rb.length < rb.capacity := by
  rw [iterate_eq hi]
  constructor
  · intro h
    by_contra hwrap
    rw [if_neg hwrap] at h
    split at h
    · have hlen := congrArg List.length (Option.some.inj h)
      have hpos := hi.capacity_pos
      rw [content_length, List.length_nil] at hlen
      omega
    · cases h
  · intro h
    rw [if_pos h]

/-- A ring of capacity 4 with the bytes 7 and 8 from cell `i` on. -/
def twoBytes (i : Nat) : RingBuffer where
  readIndex := i
  writeIndex := (i + 2) % 4
  length := 2
  buffer := put (put (List.replicate 4 0) i [7]) ((i + 1) % 4) [8]
  size_le := by simp [maxSize]

theorem twoBytes_inv (i : Nat) (hi : i < 4) : (twoBytes i).Inv := by
  have hc : (twoBytes i).capacity = 4 := by simp [twoBytes, capacity]
  constructor <;> rw [hc]
  exacts [hi, Nat.mod_lt _ (by decide), show 2 ≤ 4 by decide, rfl]

/-- The theorem in the middle of the array. -/
theorem iterate_middle : (twoBytes 1).iterate = some [7, 8] :=
  (iterate_iff _ (twoBytes_inv 1 (by decide))).2 (by decide)

/-- At the end of the array the traversal runs out of it. -/
theorem iterate_runs_out : (twoBytes 2).Inv ∧ (twoBytes 2).content = [7, 8] ∧
    (twoBytes 2).iterate = none :=
  ⟨twoBytes_inv 2 (by decide), rfl, rfl⟩

end NebulaToolkit.RingBuffer
