import NebulaToolkit.RingBuffer
/-!
# Vectors of elements

`Write` and `Read` for a `std::vector<T>` copy in two parts as the overloads for
bytes do. Where the second part begins in the vector they count in elements: it
is written from `first_chunk` elements on, and read to the element the first
part ended in. Neither shows while no copy goes round the array's end.
-/

namespace NebulaToolkit

open Lib

/-- A `std::vector<T>` with `sizeof(T) = elementSize`. -/
structure ElementVector where
  elementSize : Nat
  size : Nat
  /-- The memory from `data()` on. Only its first `size * elementSize` bytes are the vector's. -/
  memory : Nat → UInt8
  elementSize_pos : 0 < elementSize
  size_le : size * elementSize ≤ maxSize

namespace ElementVector

/-- The bytes of the elements. -/
def bytes (v : ElementVector) : List UInt8 := (List.range (v.size * v.elementSize)).map v.memory

/-- The bytes `memcpy(dst, src, n)` copies when `src` is `i` bytes behind `data()`. -/
def load (v : ElementVector) (i n : Nat) : List UInt8 := (List.range n).map fun j => v.memory (i + j)

@[simp] theorem bytes_length (v : ElementVector) : v.bytes.length = v.size * v.elementSize := by simp [bytes]

theorem load_eq (v : ElementVector) {i n : Nat} (h : i + n ≤ v.size * v.elementSize) :
    v.load i n = slice v.bytes i n := by
  apply List.ext_getElem
  · simp [load, slice]; omega
  · intro j h1 h2
    simp [load, slice, bytes]

end ElementVector

namespace RingBuffer

/-! ## Writing -/

/-- The two `memcpy`s of `Write(write_data)`: where in the vector they copy from
and how many bytes, and the ring afterwards. -/
def copyInVector (rb : RingBuffer) (writeData : ElementVector) : List (Nat × Nat) × RingBuffer :=
  let writeDataSize := writeData.size * writeData.elementSize
  let firstChunk := min writeDataSize (subSz rb.capacity rb.writeIndex)
  let rb₁ := rb.store rb.writeIndex (writeData.load 0 firstChunk)
  if writeDataSize > firstChunk then
    -- `write_data.data() + first_chunk` is so many elements on.
    let src := firstChunk * writeData.elementSize
    ([(0, firstChunk), (src, writeDataSize - firstChunk)],
      rb₁.store 0 (writeData.load src (writeDataSize - firstChunk)))
  else ([(0, firstChunk)], rb₁)

/-- `Write(write_data)` for a vector: the returned size and where it copied from. -/
def writeVector (rb : RingBuffer) (writeData : ElementVector) : (Nat × List (Nat × Nat)) × RingBuffer :=
  if writeData.size = 0 then ((Result.kErrorEmpty.toSize, []), rb)
  else
    let available := rb.availableToWrite
    let writeDataSize := writeData.size * writeData.elementSize
    if writeDataSize > available then ((Result.kErrorFull.toSize, []), rb)
    else
      let r := rb.copyInVector writeData
      ((writeDataSize, r.1), { r.2 with
        writeIndex := addSz rb.writeIndex writeDataSize % rb.capacity
        length := addSz rb.length writeDataSize })

/-- The vector is written as its bytes are, and only they are copied. -/
def WritesBytes (rb : RingBuffer) (v : ElementVector) : Prop :=
  (rb.writeVector v).1.1 = (rb.write v.bytes).1 ∧
    (rb.writeVector v).2.readIndex = (rb.write v.bytes).2.readIndex ∧
    (rb.writeVector v).2.writeIndex = (rb.write v.bytes).2.writeIndex ∧
    (rb.writeVector v).2.length = (rb.write v.bytes).2.length ∧
    (rb.writeVector v).2.content = (rb.write v.bytes).2.content ∧
    ∀ src ∈ (rb.writeVector v).1.2, src.1 + src.2 ≤ v.size * v.elementSize

section
variable {rb : RingBuffer} (hi : rb.Inv) (v : ElementVector)
include hi

/-- With elements of one byte, or in one part, the copies are those of the bytes. -/
theorem copyInVector_eq (h : v.elementSize = 1 ∨ rb.writeIndex + v.size * v.elementSize ≤ rb.capacity) :
    (rb.copyInVector v).2 = rb.copyIn v.bytes ∧ ∀ src ∈ (rb.copyInVector v).1,
    src.1 + src.2 ≤ v.size * v.elementSize := by
  simp only [copyInVector, copyIn, hi.toEnd_write, v.bytes_length]
  rw [v.load_eq (by omega)]
  by_cases hlt : v.size * v.elementSize > min (v.size * v.elementSize) (rb.capacity - rb.writeIndex)
  · have h1 : v.elementSize = 1 := h.resolve_right (by omega)
    have hsrc : min (v.size * v.elementSize) (rb.capacity - rb.writeIndex) * v.elementSize =
        min (v.size * v.elementSize) (rb.capacity - rb.writeIndex) := by rw [h1, Nat.mul_one]
    rw [if_pos hlt, if_pos hlt, hsrc, v.load_eq (by omega)]
    refine ⟨rfl, ?_⟩
    simp only [List.mem_cons, List.not_mem_nil, or_false]
    rintro src (rfl | rfl) <;> dsimp only <;> omega
  · rw [if_neg hlt, if_neg hlt]
    refine ⟨rfl, ?_⟩
    simp only [List.mem_singleton]
    rintro src rfl
    dsimp only
    omega

/-- Elements of more than one byte in two parts: the second copy leaves the vector. -/
theorem copyInVector_outside (hs : v.elementSize ≠ 1)
    (h : rb.capacity < rb.writeIndex + v.size * v.elementSize) :
    ∃ src ∈ (rb.copyInVector v).1, v.size * v.elementSize < src.1 + src.2 := by
  have hw := hi.write_lt
  have hpos := v.elementSize_pos
  simp only [copyInVector, hi.toEnd_write]
  rw [if_pos (by omega), Nat.min_eq_right (by omega)]
  refine ⟨_, List.mem_cons_of_mem _ (List.mem_singleton_self _), ?_⟩
  have hmul : (rb.capacity - rb.writeIndex) * 2 ≤ (rb.capacity - rb.writeIndex) * v.elementSize :=
    Nat.mul_le_mul_left _ (by omega)
  dsimp only
  omega

theorem writeVector_refused (h : v.size = 0 ∨ rb.capacity < rb.length + v.size * v.elementSize) :
    (rb.writeVector v).1.1 = (rb.write v.bytes).1 ∧ (rb.writeVector v).1.2 = [] ∧
      (rb.writeVector v).2 = rb ∧ (rb.write v.bytes).2 = rb := by
  have hp := v.elementSize_pos
  rw [write_eq hi, v.bytes_length]
  unfold writeVector
  by_cases h0 : v.size = 0
  · rw [if_pos h0, if_pos (by rw [h0, Nat.zero_mul])]
    exact ⟨rfl, rfl, rfl, rfl⟩
  · have hne : v.size * v.elementSize ≠ 0 := Nat.mul_ne_zero h0 (by omega)
    simp only [hi.availableToWrite_eq]
    rw [if_neg h0, if_pos (by omega), if_neg hne, if_neg (by omega)]
    exact ⟨rfl, rfl, rfl, rfl⟩

theorem writeVector_accepted (h0 : v.size ≠ 0) (h : rb.length + v.size * v.elementSize ≤ rb.capacity) :
    rb.writeVector v = ((v.size * v.elementSize, (rb.copyInVector v).1), { (rb.copyInVector v).2 with
      writeIndex := addSz rb.writeIndex (v.size * v.elementSize) % rb.capacity
      length := addSz rb.length (v.size * v.elementSize) }) := by
  simp only [writeVector, hi.availableToWrite_eq]
  rw [if_neg h0, if_neg (by omega)]

omit hi v in
/-- An `int` written where two cells are left before the array's end: the second copy
takes its bytes from eight bytes on, and the vector has four. -/
theorem writeVector_int_at_six :
    let rb : RingBuffer :=
  { readIndex := 6, writeIndex := 6, length := 0, buffer := List.replicate 8 0, size_le := by decide }
    let v : ElementVector := {
      elementSize := 4, size := 1, memory := fun i => if i < 4 then UInt8.ofNat (i + 1) else 0
      elementSize_pos := by decide, size_le := by decide }
    rb.Inv ∧ v.bytes = [1, 2, 3, 4] ∧ (rb.writeVector v).1.2 = [(0, 2), (8, 2)] ∧
      (rb.writeVector v).2.content = [1, 2, 0, 0] ∧ ¬ rb.WritesBytes v := by
  intro rb v
  refine ⟨⟨by decide, by decide, by decide, by decide⟩, by decide, by decide, by decide, ?_⟩
  rintro ⟨-, -, -, -, hcontent, -⟩
  revert hcontent
  decide

/-- A vector is written as its bytes are just when its elements have one byte, the
write is refused, or it does not go round the array's end. -/
theorem writeVector_iff :
    rb.WritesBytes v ↔ v.elementSize = 1 ∨ rb.capacity < rb.length + v.size * v.elementSize ∨
    rb.writeIndex + v.size * v.elementSize ≤ rb.capacity := by
  have hw := hi.write_lt
  by_cases href : v.size = 0 ∨ rb.capacity < rb.length + v.size * v.elementSize
  · obtain ⟨hret, hsrc, hrb, hrb'⟩ := writeVector_refused hi v href
    refine iff_of_true ⟨hret, ?_⟩ ?_
    · rw [hsrc, hrb, hrb']
      exact ⟨rfl, rfl, rfl, rfl, by simp⟩
    · rcases href with h0 | h
      · exact .inr (.inr (by rw [h0]; omega))
      · exact .inr (.inl h)
  simp only [not_or, Nat.not_lt] at href
  obtain ⟨h0, hfit⟩ := href
  have hne : v.size * v.elementSize ≠ 0 := Nat.mul_ne_zero h0 (by have := v.elementSize_pos; omega)
  unfold WritesBytes
  rw [writeVector_accepted hi v h0 hfit]
  constructor
  · rintro ⟨-, -, -, -, -, hsrc⟩
    by_contra hno
    simp only [not_or, Nat.not_le] at hno
    obtain ⟨src, hmem, hlt⟩ := copyInVector_outside hi v hno.1 hno.2.2
    exact absurd (hsrc src hmem) (by omega)
  · intro h
    obtain ⟨hring, hsrc⟩ := copyInVector_eq hi v (by omega)
    have hwrite : rb.write v.bytes = (v.size * v.elementSize, { rb.copyIn v.bytes with
        writeIndex := addSz rb.writeIndex (v.size * v.elementSize) % rb.capacity
        length := addSz rb.length (v.size * v.elementSize) }) := by
      simp only [write, v.bytes_length, hi.availableToWrite_eq]
      rw [if_neg hne, if_neg (by omega)]
    rw [hwrite, hring]
    exact ⟨rfl, rfl, rfl, rfl, rfl, hsrc⟩

omit hi v in
/-- The theorem on both sides of the line: two bytes behind one another, and an `int`
that goes round. -/
theorem writeVector_iff_two :
    let rb : RingBuffer :=
  { readIndex := 3, writeIndex := 3, length := 0, buffer := [0, 0, 0, 0], size_le := by decide }
    let v (s : Nat) (hs : 0 < s) (h : 2 * s ≤ maxSize) : ElementVector :=
      { elementSize := s, size := 2, memory := fun i => UInt8.ofNat i, elementSize_pos := hs, size_le := h }
    rb.Inv ∧ rb.WritesBytes (v 1 (by decide) (by decide)) ∧
      ¬ rb.WritesBytes (v 2 (by decide) (by decide)) := by
  intro rb v
  have hi : rb.Inv := ⟨by decide, by decide, by decide, by decide⟩
  exact ⟨hi, (writeVector_iff hi _).2 (by decide), mt (writeVector_iff hi _).1 (by decide)⟩

end

/-! ## Reading -/

/-- The bytes are read into the vector as they are read into memory: the first `n`
of the vector are the first `n` stored ones and the others stay, and a refused read
changes nothing. -/
def ReadsBytes (rb : RingBuffer) (elementSize : Nat) (v : List UInt8) (n : Nat) : Prop :=
  (rb.readVector elementSize v n).1.1 = (rb.read n).1.1 ∧ (rb.readVector elementSize v n).2 = (rb.read n).2 ∧
    (n ≤ rb.length → (rb.readVector elementSize v n).1.2 = rb.content.take n ++ v.drop n) ∧
    (rb.length < n → (rb.readVector elementSize v n).1.2 = v ∧ (rb.readVector elementSize v n).2 = rb)

/-- The second copy is put down `lost` places too early, at the start of the element the
first ended in. It does not show where the bytes from there on repeat after so many
places and the last of them were in the vector before. -/
def SeamHidden (rb : RingBuffer) (elementSize : Nat) (v : List UInt8) (n : Nat) : Prop :=
  let toEnd := rb.capacity - rb.readIndex
  let lost := toEnd % elementSize
  (∀ i, toEnd - lost ≤ i → i + lost < n → rb.content[i]? = rb.content[i + lost]?) ∧
    ∀ i, n - lost ≤ i → toEnd ≤ i → i < n → v[i]? = rb.content[i]?

section
variable {rb : RingBuffer} (hi : rb.Inv) {s n : Nat} {v : List UInt8}
include hi

omit hi in
/-- Without a rest nothing is lost. -/
theorem SeamHidden.of_dvd (h : s ∣ rb.capacity - rb.readIndex) : rb.SeamHidden s v n := by
  have h0 : (rb.capacity - rb.readIndex) % s = 0 := Nat.mod_eq_zero_of_dvd h
  unfold SeamHidden
  dsimp only
  rw [h0]
  refine ⟨fun i _ _ => rfl, fun i h1 _ h2 => ?_⟩
  omega

omit hi in
/-- With a rest there is a vector that shows it. -/
theorem SeamHidden.exists_not (h : ¬ s ∣ rb.capacity - rb.readIndex)
    (hn : rb.capacity - rb.readIndex < n) (hl : n ≤ rb.length) (hv : n ≤ v.length) :
    ∃ w : List UInt8, w.length = v.length ∧ ¬ rb.SeamHidden s w n := by
  -- Let the last byte to be read differ from what the vector holds there.
  refine ⟨v.set (n - 1) (rb.content.getD (n - 1) 0 + 1), List.length_set, fun ⟨_, hlast⟩ => ?_⟩
  have hlt : n - 1 < rb.content.length := by rw [content_length]; omega
  have hne := hlast (n - 1) (by omega) (by omega) (by omega)
  rw [List.getElem?_set_self (by omega), List.getElem?_eq_getElem hlt, List.getD_eq_getElem _ _ hlt] at hne
  simp at hne

theorem copyOutVector_iff (hv : n ≤ v.length) (hl : n ≤ rb.length) :
    rb.copyOutVector s v n = rb.content.take n ++ v.drop n ↔
      n ≤ rb.capacity - rb.readIndex ∨ rb.SeamHidden s v n := by
  have hcap := hi.length_le
  have hcopy := copyOut_eq hi hl
  have hfirst : (rb.load rb.readIndex (min n (rb.capacity - rb.readIndex))).length =
      min n (rb.capacity - rb.readIndex) := by
    simp only [load, slice, List.length_take, List.length_drop, capacity] at *
    omega
  unfold copyOut at hcopy
  unfold copyOutVector
  simp only [hi.toEnd_read] at hcopy ⊢
  by_cases hw : n ≤ rb.capacity - rb.readIndex
  · rw [if_neg (by omega)] at hcopy ⊢
    rw [List.append_nil] at hcopy
    refine iff_of_true ?_ (.inl hw)
    rw [put_start (by omega), hcopy, List.length_take, content_length, Nat.min_eq_left hl]
  · rw [if_pos (by omega)] at hcopy ⊢
    rw [or_iff_right hw]
    rw [Nat.min_eq_right (by omega)] at hfirst hcopy ⊢
    have hsecond :
        (rb.load 0 (n - (rb.capacity - rb.readIndex))).length = n - (rb.capacity - rb.readIndex) := by
      simp only [load, slice, List.length_take, List.length_drop, capacity] at *
      omega
    have hdiv : (rb.capacity - rb.readIndex) / s * s =
        rb.capacity - rb.readIndex - (rb.capacity - rb.readIndex) % s := by
      have := Nat.div_add_mod (rb.capacity - rb.readIndex) s
      rw [Nat.mul_comm] at this
      omega
    have hrest :
        (rb.capacity - rb.readIndex) % s ≤ (rb.load rb.readIndex (rb.capacity - rb.readIndex)).length := by
      rw [hfirst]
      exact Nat.mod_le _ _
    have hroom : (rb.load rb.readIndex (rb.capacity - rb.readIndex)).length +
        (rb.load 0 (n - (rb.capacity - rb.readIndex))).length ≤ v.length := by omega
    have hput := put_early_iff hrest hroom
    have htotal : rb.capacity - rb.readIndex + (n - (rb.capacity - rb.readIndex)) = n := by omega
    rw [hfirst, hsecond, hcopy, htotal] at hput
    rw [hdiv, hput]
    -- Within the bytes that are read, they are the stored ones.
    have htake (i : Nat) (hin : i < n) : (rb.content.take n)[i]? = rb.content[i]? :=
      List.getElem?_take_of_lt hin
    unfold SeamHidden
    refine and_congr ?_ ?_
    · refine forall₃_congr fun i _ h2 => ?_
      rw [htake i (by omega), htake _ h2]
    · refine forall_congr' fun i => forall₃_congr fun _ _ h3 => ?_
      rw [htake i h3]

omit hi in
/-- Only the copies differ. -/
theorem readsBytes_iff (hn : 0 < n) (hsn : s ∣ n) (hv : n ≤ v.length) :
    rb.ReadsBytes s v n ↔ rb.length < n ∨ rb.copyOutVector s v n = rb.content.take n ++ v.drop n := by
  have hmod : ¬ n % s ≠ 0 := not_not.2 (Nat.mod_eq_zero_of_dvd hsn)
  have h0 : n ≠ 0 := by omega
  unfold ReadsBytes readVector read availableToRead
  simp only [if_neg h0, if_neg hmod, if_neg (Nat.not_lt.2 hv)]
  by_cases hl : rb.length < n
  · rw [if_pos hl, if_pos hl]
    exact iff_of_true ⟨rfl, rfl, fun h => absurd h (Nat.not_le.2 hl), fun _ => ⟨rfl, rfl⟩⟩ (.inl hl)
  · rw [if_neg hl, if_neg hl]
    constructor
    · rintro ⟨-, -, hcopy, -⟩
      exact .inr (hcopy (Nat.not_lt.1 hl))
    · intro h
      exact ⟨rfl, rfl, fun _ => h.resolve_left hl, fun h' => absurd h' hl⟩

omit hi in
/-- An `int` read where two of its bytes stand before the array's end: the other two are
written over them. -/
theorem readVector_int_at_five :
    let rb : RingBuffer :=
  { readIndex := 5, writeIndex := 2, length := 4, buffer := [3, 4, 0, 0, 0, 1, 2], size_le := by decide }
    rb.Inv ∧ rb.content = [1, 2, 3, 4] ∧ (rb.readVector 4 [0, 0, 0, 0] 4).1 = (4, [3, 4, 0, 0]) ∧
      ¬ rb.ReadsBytes 4 [0, 0, 0, 0] 4 := by
  intro rb
  refine ⟨⟨by decide, by decide, by decide, by decide⟩, by decide, by decide, ?_⟩
  rintro ⟨-, -, hbytes, -⟩
  revert hbytes
  decide

/-- A vector of elements is read into as bytes are just when the read is refused, does
not go round the array's end, or hides its seam. For every vector of this size that is
so just when an element never spans the array's end. -/
theorem readVector_iff (hn : 0 < n) (hsn : s ∣ n) (hv : n ≤ v.length) :
    (rb.ReadsBytes s v n ↔ rb.length < n ∨ n ≤ rb.capacity - rb.readIndex ∨ rb.SeamHidden s v n) ∧
      ((∀ w : List UInt8, w.length = v.length → rb.ReadsBytes s w n) ↔
        rb.length < n ∨ n ≤ rb.capacity - rb.readIndex ∨ s ∣ rb.capacity - rb.readIndex) := by
  have hread (w : List UInt8) (hw : n ≤ w.length) :
      rb.ReadsBytes s w n ↔ rb.length < n ∨ n ≤ rb.capacity - rb.readIndex ∨ rb.SeamHidden s w n := by
    rw [readsBytes_iff hn hsn hw]
    by_cases hl : rb.length < n
    · exact iff_of_true (.inl hl) (.inl hl)
    · rw [or_iff_right hl, or_iff_right hl]
      exact copyOutVector_iff hi hw (Nat.not_lt.1 hl)
  refine ⟨hread v hv, ?_⟩
  constructor
  · intro h
    by_contra hno
    simp only [not_or, Nat.not_lt, Nat.not_le] at hno
    obtain ⟨hl, hround, hd⟩ := hno
    obtain ⟨w, hw, hshow⟩ := SeamHidden.exists_not (v := v) hd hround hl hv
    rcases (hread w (by omega)).1 (h w hw) with h' | h' | h'
    · omega
    · omega
    · exact hshow h'
  · intro h w hw
    rw [hread w (by omega)]
    exact h.imp_right (Or.imp_right SeamHidden.of_dvd)

omit hi in
/-- The theorem on both sides of the line: elements of two bytes, two and then one
byte before the array's end. -/
theorem readVector_iff_two :
    let even : RingBuffer :=
  { readIndex := 2, writeIndex := 2, length := 4, buffer := [3, 4, 1, 2], size_le := by decide }
    let odd : RingBuffer :=
      { readIndex := 3, writeIndex := 3, length := 4, buffer := [2, 3, 4, 1], size_le := by decide }
    even.Inv ∧ odd.Inv ∧ (∀ w : List UInt8, w.length = 4 → even.ReadsBytes 2 w 4) ∧
      ¬ (∀ w : List UInt8, w.length = 4 → odd.ReadsBytes 2 w 4) := by
  intro even odd
  have he : even.Inv := ⟨by decide, by decide, by decide, by decide⟩
  have ho : odd.Inv := ⟨by decide, by decide, by decide, by decide⟩
  refine ⟨he, ho, ?_, ?_⟩
  · exact (readVector_iff (v := [0, 0, 0, 0]) he (by decide) (by decide) (by decide)).2.2 (by decide)
  · exact mt (readVector_iff (v := [0, 0, 0, 0]) ho (by decide) (by decide) (by decide)).2.1 (by decide)

end

end RingBuffer

end NebulaToolkit
