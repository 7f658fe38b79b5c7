import NebulaToolkit.Lib.Cyclic
import NebulaToolkit.Lib.Word
/-!
# The ring buffer

`containers::RingBuffer`: a byte vector with a read index, a write index and a
length. Every method holds the mutex from start to end, so each is one state
transformer here. Sizes are `size_t`, numbers below `2 ^ 64` with wrapping
arithmetic; a vector never holds more than `maxSize` bytes.
-/

namespace NebulaToolkit

open Lib

/-- `size_t` addition. -/
abbrev addSz (a b : Nat) : Nat := wadd 64 a b

/-- `size_t` subtraction. -/
abbrev subSz (a b : Nat) : Nat := wsub 64 a b

/-- `std::vector<uint8_t>::max_size()`; the vector's constructor throws above it. -/
def maxSize : Nat := 2 ^ 63 - 1

/-- `RingBuffer::Result`. -/
inductive Result where
  | kSuccess
  | kErrorFull
  | kErrorEmpty
  | kErrorInvalidSize
  deriving Repr, DecidableEq

/-- `(size_t)` of a result. -/
def Result.toSize : Result → Nat
  | kSuccess => 0
  | kErrorFull => 2 ^ 64 - 1
  | kErrorEmpty => 2 ^ 64 - 2
  | kErrorInvalidSize => 2 ^ 64 - 3

@[ext] structure RingBuffer where
  readIndex : Nat := 0
  writeIndex : Nat := 0
  length : Nat := 0
  buffer : List UInt8
  size_le : buffer.length ≤ maxSize

namespace RingBuffer

/-- `RingBuffer(buffer_size)`, for a size the vector's constructor accepts. -/
def ofSize (bufferSize : Nat) (h : bufferSize ≤ maxSize) : RingBuffer where
  buffer := List.replicate bufferSize 0
  size_le := by simpa using h

/-- `buffer_.size()` -/
def capacity (rb : RingBuffer) : Nat := rb.buffer.length

def availableToWrite (rb : RingBuffer) : Nat := subSz rb.capacity rb.length

def availableToRead (rb : RingBuffer) : Nat := rb.length

/-- `memcpy(buffer_.data() + i, xs, n)` with `n` the length of `xs`. -/
def store (rb : RingBuffer) (i : Nat) (xs : List UInt8) : RingBuffer :=
  { rb with buffer := put rb.buffer i xs, size_le := by simpa using rb.size_le }

/-- The bytes `memcpy(dst, buffer_.data() + i, n)` copies. -/
def load (rb : RingBuffer) (i n : Nat) : List UInt8 := slice rb.buffer i n

/-- The two `memcpy`s of `Write`: `xs` from the write index on. -/
def copyIn (rb : RingBuffer) (xs : List UInt8) : RingBuffer :=
  let firstChunk := min xs.length (subSz rb.capacity rb.writeIndex)
  let rb₁ := rb.store rb.writeIndex (slice xs 0 firstChunk)
  if xs.length > firstChunk then rb₁.store 0 (slice xs firstChunk (xs.length - firstChunk)) else rb₁

/-- `Write(write_ptr, bytes_to_write)` -/
def write (rb : RingBuffer) (writePtr : List UInt8) : Nat × RingBuffer :=
  let bytesToWrite := writePtr.length
  if bytesToWrite = 0 then (Result.kErrorEmpty.toSize, rb)
  else
    let available := rb.availableToWrite
    if bytesToWrite > available then (Result.kErrorFull.toSize, rb)
    else
      (bytesToWrite, { rb.copyIn writePtr with
        writeIndex := addSz rb.writeIndex bytesToWrite % rb.capacity
        length := addSz rb.length bytesToWrite })

/-- The two `memcpy`s of `Read` and `Peek`: `n` bytes from the read index on. -/
def copyOut (rb : RingBuffer) (n : Nat) : List UInt8 :=
  let firstChunk := min n (subSz rb.capacity rb.readIndex)
  rb.load rb.readIndex firstChunk ++ (if n > firstChunk then rb.load 0 (n - firstChunk) else [])

/-- `Read(read_ptr, bytes_to_read)`: the returned size and the bytes stored at
`read_ptr` (none when the call is refused). -/
def read (rb : RingBuffer) (bytesToRead : Nat) : (Nat × List UInt8) × RingBuffer :=
  if bytesToRead = 0 then ((Result.kErrorEmpty.toSize, []), rb)
  else
    let available := rb.availableToRead
    if bytesToRead > available then ((Result.kErrorFull.toSize, []), rb)
    else
      ((bytesToRead, rb.copyOut bytesToRead), { rb with
        readIndex := addSz rb.readIndex bytesToRead % rb.capacity
        length := subSz rb.length bytesToRead })

/-- The two `memcpy`s of `Read` into a vector of elements of `elementSize` bytes;
`readData` holds the vector's bytes. -/
def copyOutVector (rb : RingBuffer) (elementSize : Nat) (readData : List UInt8) (n : Nat) : List UInt8 :=
  let firstChunk := min n (subSz rb.capacity rb.readIndex)
  let readData₁ := put readData 0 (rb.load rb.readIndex firstChunk)
  if n > firstChunk then put readData₁ (firstChunk / elementSize * elementSize)
    (rb.load 0 (n - firstChunk)) else readData₁

/-- `Read(read_data, bytes_to_read)` for a vector of elements of `elementSize`
bytes: the returned size and the vector's bytes afterwards. -/
def readVector (rb : RingBuffer) (elementSize : Nat) (readData : List UInt8) (bytesToRead : Nat) :
    (Nat × List UInt8) × RingBuffer :=
  if bytesToRead = 0 then ((Result.kErrorEmpty.toSize, readData), rb)
  else if bytesToRead % elementSize ≠ 0 then ((Result.kErrorInvalidSize.toSize, readData), rb)
  else if readData.length < bytesToRead then ((Result.kErrorInvalidSize.toSize, readData), rb)
  else
    let available := rb.availableToRead
    if bytesToRead > available then ((Result.kErrorFull.toSize, readData), rb)
    else
      ((bytesToRead, rb.copyOutVector elementSize readData bytesToRead), { rb with
        readIndex := addSz rb.readIndex bytesToRead % rb.capacity
        length := subSz rb.length bytesToRead })

/-- `Peek(read_data, bytes_to_read)`: the returned size and the vector
afterwards. -/
def peek (rb : RingBuffer) (readData : List UInt8) (bytesToRead : Nat) : (Nat × List UInt8) × RingBuffer :=
  if bytesToRead = 0 then ((0, readData), rb)
  else
    let available := rb.availableToRead
    if bytesToRead > available then ((2 ^ 64 - 1, readData), rb)
    else ((bytesToRead, rb.copyOut bytesToRead), rb)

def clear (rb : RingBuffer) : Bool × RingBuffer :=
  (true, { rb with readIndex := 0, writeIndex := 0, length := 0 })

/-- `GetLinearWriteSpace()`: where the window starts in the vector, and its size. -/
def getLinearWriteSpace (rb : RingBuffer) : Nat × Nat :=
  (rb.writeIndex, min rb.availableToWrite (subSz rb.capacity rb.writeIndex))

def commitWriteSize (rb : RingBuffer) (writeSize : Nat) : Result × RingBuffer :=
  if writeSize > rb.availableToWrite then (.kErrorInvalidSize, rb)
  else
    (.kSuccess, { rb with
      writeIndex := addSz rb.writeIndex writeSize % rb.capacity
      length := addSz rb.length writeSize })

/-- `GetLinearReadSpace()`: where the window starts in the vector, and its size. -/
def getLinearReadSpace (rb : RingBuffer) : Nat × Nat :=
  (rb.readIndex, min rb.availableToRead (subSz rb.capacity rb.readIndex))

def commitReadSize (rb : RingBuffer) (readSize : Nat) : Result × RingBuffer :=
  if readSize > rb.availableToRead then (.kErrorInvalidSize, rb)
  else
    (.kSuccess, { rb with
      readIndex := addSz rb.readIndex readSize % rb.capacity
      length := subSz rb.length readSize })

/-! ## The invariant and the stored bytes -/

/-- The indices are in bounds and the three fields agree. -/
structure Inv (rb : RingBuffer) : Prop where
  read_lt : rb.readIndex < rb.capacity
  write_lt : rb.writeIndex < rb.capacity
  length_le : rb.length ≤ rb.capacity
  write_eq : rb.writeIndex = (rb.readIndex + rb.length) % rb.capacity

/-- The stored bytes, oldest first. -/
def content (rb : RingBuffer) : List UInt8 := cyc rb.buffer rb.readIndex rb.length

@[simp] theorem content_length (rb : RingBuffer) : rb.content.length = rb.length := cyc_length _ _ _

@[simp] theorem capacity_store (rb : RingBuffer) (i : Nat) (xs : List UInt8) :
    (rb.store i xs).capacity = rb.capacity := put_length _ _ _

theorem capacity_lt (rb : RingBuffer) : rb.capacity < 2 ^ 63 := by
  have := rb.size_le; simp only [maxSize] at this; unfold capacity; omega

theorem ofSize_inv {c : Nat} (h : c ≤ maxSize) (h0 : 0 < c) : (ofSize c h).Inv := by
  constructor <;> simp [ofSize, capacity, h0]

@[simp] theorem ofSize_content {c : Nat} (h : c ≤ maxSize) : (ofSize c h).content = [] := rfl

@[simp] theorem ofSize_capacity {c : Nat} (h : c ≤ maxSize) :
    (ofSize c h).capacity = c := by simp [ofSize, capacity]

section
variable {rb : RingBuffer} (hi : rb.Inv)


omit rb in
/-- The `size_t` sums of the methods do not wrap: both terms are at most the
capacity, and it is below `2 ^ 63`. -/
theorem addSz_eq (rb : RingBuffer) {a b : Nat} (ha : a ≤ rb.capacity) (hb : b ≤ rb.capacity) :
    addSz a b = a + b :=
  wadd_of_lt (by have := rb.capacity_lt; omega)

include hi

theorem Inv.capacity_pos : 0 < rb.capacity := Nat.lt_of_le_of_lt (Nat.zero_le _) hi.read_lt

theorem Inv.availableToWrite_eq : rb.availableToWrite = rb.capacity - rb.length :=
  wsub_of_le hi.length_le (by have := rb.capacity_lt; omega)

theorem Inv.toEnd_write : subSz rb.capacity rb.writeIndex = rb.capacity - rb.writeIndex :=
  wsub_of_le (Nat.le_of_lt hi.write_lt) (by have := rb.capacity_lt; omega)

theorem Inv.toEnd_read : subSz rb.capacity rb.readIndex = rb.capacity - rb.readIndex :=
  wsub_of_le (Nat.le_of_lt hi.read_lt) (by have := rb.capacity_lt; omega)

/-- The two `memcpy`s copy the first stored bytes. -/
theorem copyOut_eq {n : Nat} (hn : n ≤ rb.length) : rb.copyOut n = rb.content.take n := by
  have hl := hi.length_le
  simp only [copyOut, content, load, hi.toEnd_read]
  rw [take_cyc _ _ hn, cyc_split hi.read_lt (by unfold capacity at hl; omega)]
  unfold capacity
  split
  · rfl
  · rw [show n - min n (rb.buffer.length - rb.readIndex) = 0 by omega]; rfl

end

/-! ## Moving the indices -/

/-- The ring after `n` bytes were taken off its front. -/
def dropFront (rb : RingBuffer) (n : Nat) : RingBuffer :=
  { rb with readIndex := (rb.readIndex + n) % rb.capacity, length := rb.length - n }

/-- The ring after the `n` bytes behind its last were taken over. -/
def growBack (rb : RingBuffer) (n : Nat) : RingBuffer :=
  { rb with writeIndex := (rb.writeIndex + n) % rb.capacity, length := rb.length + n }

@[simp] theorem capacity_dropFront (rb : RingBuffer) (n : Nat) :
    (rb.dropFront n).capacity = rb.capacity := rfl

@[simp] theorem capacity_growBack (rb : RingBuffer) (n : Nat) : (rb.growBack n).capacity = rb.capacity := rfl

section
variable {rb : RingBuffer} (hi : rb.Inv)
include hi

theorem Inv.dropFront {n : Nat} (hn : n ≤ rb.length) : (rb.dropFront n).Inv where
  read_lt := Nat.mod_lt _ hi.capacity_pos
  write_lt := hi.write_lt
  length_le := Nat.le_trans (Nat.sub_le _ _) hi.length_le
  write_eq := by
    have h : rb.readIndex + n + (rb.length - n) = rb.readIndex + rb.length := by omega
    show rb.writeIndex = ((rb.readIndex + n) % rb.capacity + (rb.length - n)) % rb.capacity
    rw [Nat.mod_add_mod, h, hi.write_eq]

theorem Inv.growBack {n : Nat} (hn : rb.length + n ≤ rb.capacity) : (rb.growBack n).Inv where
  read_lt := hi.read_lt
  write_lt := Nat.mod_lt _ hi.capacity_pos
  length_le := hn
  write_eq := by
    show (rb.writeIndex + n) % rb.capacity = (rb.readIndex + (rb.length + n)) % rb.capacity
    rw [hi.write_eq, Nat.mod_add_mod, Nat.add_assoc]

omit hi in
theorem dropFront_content {n : Nat} (hn : n ≤ rb.length) : (rb.dropFront n).content = rb.content.drop n := by
  show cyc rb.buffer ((rb.readIndex + n) % rb.buffer.length) (rb.length - n) =
    (cyc rb.buffer rb.readIndex rb.length).drop n
  rw [cyc_mod, drop_cyc _ _ hn]

theorem commitReadSize_eq (n : Nat) : rb.commitReadSize n =
    if n ≤ rb.length then (.kSuccess, rb.dropFront n) else (.kErrorInvalidSize, rb) := by
  unfold commitReadSize availableToRead
  by_cases h : n ≤ rb.length
  · have hl := hi.length_le
    rw [if_neg (by omega), if_pos h, rb.addSz_eq (Nat.le_of_lt hi.read_lt) (by omega),
      show subSz rb.length n = rb.length - n from wsub_of_le h (by have := rb.capacity_lt; omega)]
    rfl
  · rw [if_pos (by omega), if_neg h]

theorem commitWriteSize_eq (n : Nat) : rb.commitWriteSize n =
    if rb.length + n ≤ rb.capacity then (.kSuccess, rb.growBack n) else (.kErrorInvalidSize, rb) := by
  have hl := hi.length_le
  unfold commitWriteSize
  rw [hi.availableToWrite_eq]
  by_cases h : rb.length + n ≤ rb.capacity
  · rw [if_neg (by omega), if_pos h, rb.addSz_eq (Nat.le_of_lt hi.write_lt) (by omega),
      rb.addSz_eq hl (by omega)]
    rfl
  · rw [if_pos (by omega), if_neg h]

theorem read_eq (n : Nat) : rb.read n =
    if n = 0 then ((Result.kErrorEmpty.toSize, []), rb)
    else if n ≤ rb.length then ((n, rb.content.take n), rb.dropFront n)
    else ((Result.kErrorFull.toSize, []), rb) := by
  unfold read availableToRead
  by_cases h0 : n = 0
  · rw [if_pos h0, if_pos h0]
  rw [if_neg h0, if_neg h0]
  by_cases h : n ≤ rb.length
  · have hl := hi.length_le
    rw [if_neg (by omega), if_pos h, copyOut_eq hi h, rb.addSz_eq (Nat.le_of_lt hi.read_lt) (by omega),
      show subSz rb.length n = rb.length - n from wsub_of_le h (by have := rb.capacity_lt; omega)]
    rfl
  · rw [if_pos (by omega), if_neg h]

/-- Into a vector of bytes: the first stored bytes, when the vector has room for them. -/
theorem readVector_eq (v : List UInt8) (n : Nat) : rb.readVector 1 v n =
    if n = 0 then ((Result.kErrorEmpty.toSize, v), rb)
    else if v.length < n then ((Result.kErrorInvalidSize.toSize, v), rb)
    else if n ≤ rb.length then ((n, put v 0 (rb.content.take n)), rb.dropFront n)
    else ((Result.kErrorFull.toSize, v), rb) := by
  unfold readVector availableToRead
  by_cases h0 : n = 0
  · rw [if_pos h0, if_pos h0]
  rw [if_neg h0, if_neg h0, if_neg (by omega)]
  by_cases hv : v.length < n
  · rw [if_pos hv, if_pos hv]
  rw [if_neg hv, if_neg hv]
  by_cases h : n ≤ rb.length
  · have hl := hi.length_le
    rw [if_neg (by omega), if_pos h, ← copyOut_eq hi h, rb.addSz_eq (Nat.le_of_lt hi.read_lt) (by omega),
      show subSz rb.length n = rb.length - n from wsub_of_le h (by have := rb.capacity_lt; omega)]
    have hfirst : (rb.load rb.readIndex (min n (rb.capacity - rb.readIndex))).length =
        min n (rb.capacity - rb.readIndex) := by
      have := hi.read_lt
      simp only [load, slice, List.length_take, List.length_drop, capacity] at *
      omega
    unfold copyOutVector copyOut
    simp only [hi.toEnd_read, Nat.div_one, Nat.mul_one]
    split
    · rw [← put_append, hfirst, Nat.zero_add]
      rfl
    · rw [List.append_nil]
      rfl
  · rw [if_pos (by omega), if_neg h]

theorem peek_eq (v : List UInt8) (n : Nat) : rb.peek v n =
    if n = 0 then ((0, v), rb)
    else if n ≤ rb.length then ((n, rb.content.take n), rb)
    else ((2 ^ 64 - 1, v), rb) := by
  unfold peek availableToRead
  by_cases h0 : n = 0
  · rw [if_pos h0, if_pos h0]
  rw [if_neg h0, if_neg h0]
  by_cases h : n ≤ rb.length
  · rw [if_neg (by omega), if_pos h, copyOut_eq hi h]
  · rw [if_pos (by omega), if_neg h]

end

/-! ## Adding bytes -/

/-- The ring after the block `xs` was written behind its last byte. -/
def append (rb : RingBuffer) (xs : List UInt8) : RingBuffer :=
  growBack { rb with buffer := putCyc rb.buffer rb.writeIndex xs, size_le := by simpa using rb.size_le }
    xs.length

@[simp] theorem capacity_append (rb : RingBuffer) (xs : List UInt8) :
    (rb.append xs).capacity = rb.capacity := by
  simp [append, growBack, capacity]

section
variable {rb : RingBuffer} (hi : rb.Inv)
include hi

theorem Inv.append {xs : List UInt8} (hx : rb.length + xs.length ≤ rb.capacity) : (rb.append xs).Inv := by
  have h : ({ rb with
      buffer := putCyc rb.buffer rb.writeIndex xs
      size_le := by simpa using rb.size_le } : RingBuffer).Inv := by
    constructor <;> simp only [capacity, putCyc_length]
    exacts [hi.read_lt, hi.write_lt, hi.length_le, hi.write_eq]
  exact h.growBack (by simpa [capacity] using hx)

theorem append_content {xs : List UInt8} (hx : rb.length + xs.length ≤ rb.capacity) :
    (rb.append xs).content = rb.content ++ xs := by
  have hw : rb.writeIndex = (rb.readIndex + rb.length) % rb.buffer.length := hi.write_eq
  show cyc (putCyc rb.buffer rb.writeIndex xs) rb.readIndex (rb.length + xs.length) = rb.content ++ xs
  rw [cyc_add]
  congr 1
  · exact cyc_putCyc_other hi.write_lt hw hx
  · conv_lhs => rw [← cyc_mod, putCyc_length, ← hw]
    exact cyc_putCyc hi.write_lt (by unfold capacity at hx; omega)

/-- The two `memcpy`s store the block behind the last byte; the second one is
skipped when the first takes it whole. -/
theorem copyIn_eq (xs : List UInt8) : rb.copyIn xs =
    { rb with buffer := putCyc rb.buffer rb.writeIndex xs, size_le := by simpa using rb.size_le } := by
  simp only [copyIn, hi.toEnd_write, putCyc]
  by_cases h : xs.length > min xs.length (rb.capacity - rb.writeIndex)
  · rw [if_pos h, Nat.min_eq_right (by omega)]
    unfold capacity
    simp [store, slice, List.take_of_length_le]
  · rw [if_neg h]
    unfold capacity at *
    replace h : xs.length ≤ rb.buffer.length - rb.writeIndex := by omega
    rw [Nat.min_eq_left h]
    simp [store, slice, List.drop_eq_nil_of_le h, List.take_of_length_le h]

theorem write_eq (xs : List UInt8) : rb.write xs =
    if xs.length = 0 then (Result.kErrorEmpty.toSize, rb)
    else if rb.length + xs.length ≤ rb.capacity then (xs.length, rb.append xs)
    else (Result.kErrorFull.toSize, rb) := by
  have hl := hi.length_le
  unfold write
  simp only [hi.availableToWrite_eq]
  by_cases h0 : xs.length = 0
  · rw [if_pos h0, if_pos h0]
  rw [if_neg h0, if_neg h0]
  by_cases h : rb.length + xs.length ≤ rb.capacity
  · rw [if_neg (by omega), if_pos h, rb.addSz_eq (Nat.le_of_lt hi.write_lt) (by omega),
      rb.addSz_eq hl (by omega)]
    simp only [append, growBack, copyIn_eq hi]
    simp only [capacity, putCyc_length]
  · rw [if_pos (by omega), if_neg h]

end

end RingBuffer

end NebulaToolkit
