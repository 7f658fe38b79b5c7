import NebulaToolkit.ZeroCopy
/-!
# Two windows are enough

A window of the zero-copy interface ends at the end of the array, so one of
them need not span all the stored bytes, or all the free cells. A second one
starts at index 0 then, and spans the rest: two rounds of asking for a window
and committing the whole of it empty the ring (`drain`), or fill it (`fillUp`).
-/

namespace NebulaToolkit.RingBuffer

open Lib

/-- `GetLinearReadSpace`, then copy the window out and `CommitReadSize` the whole of it. -/
def linearRead (rb : RingBuffer) : (Result × List UInt8) × RingBuffer :=
  let window := rb.getLinearReadSpace
  let r := rb.commitReadSize window.2
  ((r.1, rb.load window.1 window.2), r.2)

/-- Up to `n` rounds of `linearRead`, until a window has size 0: what each commit
returned and what each window held. -/
def drain : Nat → RingBuffer → List (Result × List UInt8) × RingBuffer
  | 0, rb => ([], rb)
  | n + 1, rb =>
    if rb.getLinearReadSpace.2 = 0 then ([], rb)
    else
      let r := rb.linearRead
      let rest := drain n r.2
      (r.1 :: rest.1, rest.2)

/-- Up to `n` rounds of `linearWrite` with the next bytes of `bytes`, until a window
has size 0: what each commit returned and what was filled in. -/
def fillUp : Nat → RingBuffer → List UInt8 → List (Result × List UInt8) × RingBuffer
  | 0, rb, _ => ([], rb)
  | n + 1, rb, bytes =>
    if rb.getLinearWriteSpace.2 = 0 then ([], rb)
    else
      let r := rb.linearWrite bytes
      let rest := fillUp n r.2 (bytes.drop rb.getLinearWriteSpace.2)
      (r.1 :: rest.1, rest.2)

section
variable {rb : RingBuffer} (hi : rb.Inv)
include hi

/-! ## Reading -/

theorem getLinearReadSpace_eq :
    rb.getLinearReadSpace = (rb.readIndex, min rb.length (rb.capacity - rb.readIndex)) := by
  rw [getLinearReadSpace, hi.toEnd_read, availableToRead]

theorem readWindow_zero : rb.getLinearReadSpace.2 = 0 ↔ rb.length = 0 := by
  have hr := hi.read_lt
  rw [getLinearReadSpace_eq hi]
  dsimp only
  omega

theorem readWindow_le : rb.getLinearReadSpace.2 ≤ rb.length := by
  rw [getLinearReadSpace_eq hi]
  exact Nat.min_le_left _ _

/-- A window holds the first stored bytes, and committing the whole of it drops them. -/
theorem linearRead_eq : rb.linearRead =
    ((.kSuccess, rb.content.take rb.getLinearReadSpace.2), rb.dropFront rb.getLinearReadSpace.2) := by
  have hr := hi.read_lt
  simp only [linearRead, getLinearReadSpace_eq hi]
  generalize hw : min rb.length (rb.capacity - rb.readIndex) = w
  have hload : rb.load rb.readIndex w = rb.content.take w := by
    rw [content, take_cyc _ _ (by omega), cyc_linear (by unfold capacity at *; omega)]
    rfl
  rw [commitReadSize_eq hi, if_pos (by omega), hload]

/-- The window after a whole one was committed spans all that is left. -/
theorem readWindow_second (h : rb.getLinearReadSpace.2 ≠ rb.length) :
    (rb.dropFront rb.getLinearReadSpace.2).getLinearReadSpace.2 = rb.length - rb.getLinearReadSpace.2 := by
  have hr := hi.read_lt
  have hl := hi.length_le
  rw [getLinearReadSpace_eq (hi.dropFront (readWindow_le hi))]
  rw [getLinearReadSpace_eq hi] at h ⊢
  dsimp only at h ⊢
  -- The first window ended at the array's end.
  have hround : (rb.readIndex + min rb.length (rb.capacity - rb.readIndex)) % rb.capacity = 0 := by
    rw [show rb.readIndex + min rb.length (rb.capacity - rb.readIndex) = rb.capacity by omega, Nat.mod_self]
  have hindex : (rb.dropFront (min rb.length (rb.capacity - rb.readIndex))).readIndex = 0 := hround
  have hlength : (rb.dropFront (min rb.length (rb.capacity - rb.readIndex))).length =
      rb.length - min rb.length (rb.capacity - rb.readIndex) := rfl
  rw [hindex, hlength, capacity_dropFront]
  omega

theorem drain_succ (n : Nat) : drain (n + 1) rb =
    if rb.length = 0 then ([], rb)
    else
      ((.kSuccess, rb.content.take rb.getLinearReadSpace.2) ::
        (drain n (rb.dropFront rb.getLinearReadSpace.2)).1,
        (drain n (rb.dropFront rb.getLinearReadSpace.2)).2) := by
  rw [drain, linearRead_eq hi]
  exact if_congr (readWindow_zero hi) rfl rfl

/-- A window over everything is the last one. -/
theorem drain_whole (h : rb.getLinearReadSpace.2 = rb.length) (n : Nat) :
    (drain (n + 1) rb).2.length = 0 ∧ (drain (n + 1) rb).1.flatMap Prod.snd = rb.content ∧
      ∀ commit ∈ (drain (n + 1) rb).1, commit.1 = .kSuccess := by
  rw [drain_succ hi]
  by_cases h0 : rb.length = 0
  · have hnil : rb.content = [] := List.eq_nil_of_length_eq_zero (by rw [content_length, h0])
    simp [h0, hnil]
  · have hempty : (rb.dropFront rb.length).length = 0 := Nat.sub_self _
    have hrest : drain n (rb.dropFront rb.length) = ([], rb.dropFront rb.length) := by
      cases n with
      | zero => rfl
      | succ n => rw [drain_succ (hi.dropFront (Nat.le_refl _)), if_pos hempty]
    have hall : rb.content.take rb.length = rb.content := List.take_of_length_le (by rw [content_length])
    rw [if_neg h0, h, hrest]
    refine ⟨hempty, ?_, ?_⟩
    · rw [List.flatMap_singleton]
      exact hall
    · simp

/-- Two rounds read out everything. -/
theorem drain_two : (drain 2 rb).2.length = 0 ∧ (drain 2 rb).1.flatMap Prod.snd = rb.content ∧
    ∀ commit ∈ (drain 2 rb).1, commit.1 = .kSuccess := by
  have hle := readWindow_le hi
  by_cases h : rb.getLinearReadSpace.2 = rb.length
  · exact drain_whole hi h 1
  have h0 : rb.length ≠ 0 := by
    intro h0
    apply h
    rw [h0]
    exact (readWindow_zero hi).2 h0
  -- The second window holds what the first left over.
  obtain ⟨hempty, hrest, hcommits⟩ := drain_whole (hi.dropFront hle) (readWindow_second hi h) 0
  rw [drain_succ hi, if_neg h0]
  refine ⟨hempty, ?_, ?_⟩
  · rw [List.flatMap_cons, hrest, dropFront_content hle]
    exact List.take_append_drop _ _
  · rw [List.forall_mem_cons]
    exact ⟨rfl, hcommits⟩

/-! ## Writing -/

theorem writeWindow_zero : rb.getLinearWriteSpace.2 = 0 ↔ rb.length = rb.capacity := by
  have hl := hi.length_le
  constructor
  · intro h
    by_contra hne
    exact getLinearWriteSpace_ne hi (by omega) h
  · intro h
    rw [getLinearWriteSpace_eq hi]
    dsimp only
    omega

/-- A window lies in the array, and none of its cells holds a stored byte. -/
theorem writeWindow_free : rb.getLinearWriteSpace.1 + rb.getLinearWriteSpace.2 ≤ rb.capacity ∧
    ∀ i < rb.getLinearWriteSpace.2, ∀ j < rb.length,
      rb.getLinearWriteSpace.1 + i ≠ (rb.readIndex + j) % rb.capacity := by
  have hw := hi.write_lt
  rw [getLinearWriteSpace_eq hi]
  dsimp only
  refine ⟨by omega, fun i hiw j hj => ?_⟩
  exact ZeroCopy.free_ne_stored hi (by omega) (by omega) hj

/-- The window after a whole one was filled and committed spans all that is free. -/
theorem writeWindow_second {xs : List UInt8} (hx : xs.length = rb.getLinearWriteSpace.2)
    (h : rb.getLinearWriteSpace.2 ≠ rb.capacity - rb.length) :
    (rb.append xs).getLinearWriteSpace.2 = rb.capacity - rb.length - rb.getLinearWriteSpace.2 := by
  have hw := hi.write_lt
  have hle := getLinearWriteSpace_le hi
  rw [getLinearWriteSpace_eq (hi.append (by omega)), capacity_append]
  rw [getLinearWriteSpace_eq hi] at h hx hle ⊢
  dsimp only at h hx hle ⊢
  -- The first window ended at the array's end.
  have hround : (rb.writeIndex + xs.length) % rb.capacity = 0 := by
    rw [show rb.writeIndex + xs.length = rb.capacity by omega, Nat.mod_self]
  have hindex : (rb.append xs).writeIndex = 0 := by
    show (rb.writeIndex + xs.length) % (putCyc rb.buffer rb.writeIndex xs).length = 0
    rw [putCyc_length]
    exact hround
  have hlength : (rb.append xs).length = rb.length + xs.length := rfl
  rw [hindex, hlength]
  omega

theorem fillUp_succ (n : Nat) (bytes : List UInt8) : fillUp (n + 1) rb bytes =
    if rb.length = rb.capacity then ([], rb)
    else
      ((.kSuccess, bytes.take rb.getLinearWriteSpace.2) ::
          (fillUp n (rb.append (bytes.take rb.getLinearWriteSpace.2))
            (bytes.drop rb.getLinearWriteSpace.2)).1,
        (fillUp n (rb.append (bytes.take rb.getLinearWriteSpace.2))
          (bytes.drop rb.getLinearWriteSpace.2)).2) := by
  rw [fillUp, linearWrite_eq hi]
  exact if_congr (writeWindow_zero hi) rfl rfl

/-- The ring is full, with the first of `bytes` behind what it held, and every commit succeeded. -/
def Filled (rb : RingBuffer) (bytes : List UInt8) (r : List (Result × List UInt8) × RingBuffer) : Prop :=
  r.2.length = rb.capacity ∧ r.2.capacity = rb.capacity ∧
    r.1.flatMap Prod.snd = bytes.take (rb.capacity - rb.length) ∧
    r.2.content = rb.content ++ r.1.flatMap Prod.snd ∧ ∀ commit ∈ r.1, commit.1 = .kSuccess

/-- A window over all free cells is the last one. -/
theorem fillUp_whole {bytes : List UInt8} (hb : rb.capacity ≤ rb.length + bytes.length)
    (h : rb.getLinearWriteSpace.2 = rb.capacity - rb.length) (n : Nat) :
    rb.Filled bytes (fillUp (n + 1) rb bytes) := by
  have hl := hi.length_le
  rw [fillUp_succ hi]
  by_cases h0 : rb.length = rb.capacity
  · simp [Filled, h0]
  generalize hxs : bytes.take (rb.capacity - rb.length) = xs
  have hx : xs.length = rb.capacity - rb.length := by rw [← hxs, List.length_take]; omega
  have hfull : (rb.append xs).length = rb.capacity := by
    show rb.length + xs.length = _
    omega
  have hrest (more : List UInt8) : fillUp n (rb.append xs) more = ([], rb.append xs) := by
    cases n with
    | zero => rfl
    | succ n => rw [fillUp_succ (hi.append (by omega)), if_pos (by rw [hfull, capacity_append])]
  rw [if_neg h0, h, hxs, hrest]
  refine ⟨hfull, capacity_append _ _, ?_, ?_, ?_⟩
  · simp [hxs]
  · simpa using append_content hi (by omega)
  · simp

/-- Two rounds fill the ring, with the next bytes behind what is stored. -/
theorem fillUp_two {bytes : List UInt8} (hb : rb.capacity ≤ rb.length + bytes.length) :
    rb.Filled bytes (fillUp 2 rb bytes) := by
  have hle := getLinearWriteSpace_le hi
  by_cases h : rb.getLinearWriteSpace.2 = rb.capacity - rb.length
  · exact fillUp_whole hi hb h 1
  have h0 : rb.length ≠ rb.capacity := by
    intro h0
    apply h
    rw [(writeWindow_zero hi).2 h0]
    omega
  have hxs : (bytes.take rb.getLinearWriteSpace.2).length = rb.getLinearWriteSpace.2 := by
    rw [List.length_take]; omega
  have hsecond := writeWindow_second hi hxs h
  rw [fillUp_succ hi, if_neg h0]
  generalize rb.getLinearWriteSpace.2 = w at *
  have hfit : rb.length + (bytes.take w).length ≤ rb.capacity := by omega
  have hlen : (rb.append (bytes.take w)).length = rb.length + w := congrArg (rb.length + ·) hxs
  -- The second window takes up what the first left free.
  obtain ⟨hfull, hcap, hbytes, hcontent, hcommits⟩ : (rb.append (bytes.take w)).Filled (bytes.drop w) _ :=
    fillUp_whole (hi.append hfit) (by rw [hlen, capacity_append, List.length_drop]; omega)
      (by rw [hsecond, hlen, capacity_append]; omega) 0
  rw [capacity_append] at hfull hcap
  rw [hlen, capacity_append] at hbytes
  refine ⟨hfull, hcap, ?_, ?_, ?_⟩
  · rw [List.flatMap_cons, hbytes,
      show rb.capacity - rb.length = w + (rb.capacity - (rb.length + w)) by omega, List.take_add]
  · rw [hcontent, append_content hi hfit, List.flatMap_cons, List.append_assoc]
  · rw [List.forall_mem_cons]
    exact ⟨rfl, hcommits⟩

/-! ## Both sides -/

/-- A read window is empty just when the ring is, and two of them hold the stored
bytes. A write window is empty just when the ring is full, never covers a stored
byte, and two of them, filled with any bytes, fill the ring behind what it held. -/
theorem two_windows_suffice : (rb.getLinearReadSpace.2 = 0 ↔ rb.length = 0) ∧
    ((drain 2 rb).2.length = 0 ∧ (drain 2 rb).1.flatMap Prod.snd = rb.content ∧
      ∀ commit ∈ (drain 2 rb).1, commit.1 = .kSuccess) ∧
    (rb.getLinearWriteSpace.2 = 0 ↔ rb.length = rb.capacity) ∧
    (rb.getLinearWriteSpace.1 + rb.getLinearWriteSpace.2 ≤ rb.capacity ∧
      ∀ i < rb.getLinearWriteSpace.2, ∀ j < rb.length,
        rb.getLinearWriteSpace.1 + i ≠ (rb.readIndex + j) % rb.capacity) ∧
    ∀ bytes : List UInt8, rb.capacity ≤ rb.length + bytes.length → rb.Filled bytes (fillUp 2 rb bytes) :=
  ⟨readWindow_zero hi, drain_two hi, writeWindow_zero hi, writeWindow_free hi, fun _ => fillUp_two hi⟩

omit hi in
/-- The theorem where both the stored bytes and the free cells go round the end. -/
theorem two_windows_suffice_round :
    let stored : RingBuffer :=
  { readIndex := 2, writeIndex := 1, length := 2, buffer := [8, 0, 7], size_le := by decide }
    let free : RingBuffer :=
      { readIndex := 1, writeIndex := 2, length := 1, buffer := [0, 7, 0], size_le := by decide }
    (drain 2 stored).1 = [(.kSuccess, [7]), (.kSuccess, [8])] ∧ (drain 2 stored).2.length = 0 ∧
      (fillUp 2 free [8, 9]).1 = [(.kSuccess, [8]), (.kSuccess, [9])] ∧
      (fillUp 2 free [8, 9]).2.content = [7, 8, 9] ∧ free.Filled [8, 9] (fillUp 2 free [8, 9]) := by
  intro stored free
  have hs : stored.Inv := ⟨by decide, by decide, by decide, by decide⟩
  have hf : free.Inv := ⟨by decide, by decide, by decide, by decide⟩
  obtain ⟨-, ⟨hempty, -⟩, -⟩ := two_windows_suffice hs
  obtain ⟨-, -, -, -, hfill⟩ := two_windows_suffice hf
  exact ⟨by decide, hempty, by decide, by decide, hfill [8, 9] (by decide)⟩

end

end NebulaToolkit.RingBuffer
