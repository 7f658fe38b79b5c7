import NebulaToolkit.Lib.Search
import NebulaToolkit.RingBuffer
/-!
# The unpacker

`containers::UnPacker`: a ring buffer of received bytes, cut into packets by a
head key, a tail key and two callbacks. What the source computes on `size_t`
is computed with wrapping arithmetic here. A call can fail to come back: a
search that never ends, a copy out of the array, a vector that cannot be
allocated (`Fault`).
-/

namespace NebulaToolkit

open Lib

/-- What `DataSzCb` stores in its three references. -/
structure Sizes where
  headSize : UInt64
  dataSize : UInt64
  tailSize : UInt64
  deriving Repr, DecidableEq

/-- The three sizes added up as numbers. -/
def Sizes.sum (s : Sizes) : Nat := s.headSize.toNat + s.dataSize.toNat + s.tailSize.toNat

/-- `DataSzCb`: gets the bytes of the array from `head_ptr` to the array's end. -/
abbrev DataSzCb := List UInt8 → Sizes

/-- `CheckValidCb`: gets the bytes of the packet. -/
abbrev CheckValidCb := List UInt8 → Bool

inductive UnpackerModel where
  | kNone
  | kHead
  | kHeadTail
  | kHeadTailCb
  deriving Repr, DecidableEq

inductive UnPackerResult where
  | kSuccess
  | kError
  deriving Repr, DecidableEq

/-- `(size_t)` of a result. -/
def UnPackerResult.toSize : UnPackerResult → Nat
  | kSuccess => 0
  | kError => 2 ^ 64 - 1

/-- Why a call does not come back with a result. -/
inductive Fault where
  /-- A search loop that never ends. -/
  | diverges
  /-- The packet loop has not ended within the given number of iterations. -/
  | running
  /-- A `memcpy` from behind the array's end. -/
  | outOfBounds
  /-- `std::length_error` from the packet's constructor. -/
  | lengthError
  deriving Repr, DecidableEq

/-- `CheckModel()` -/
def checkModel (headKey tailKey : List UInt8) (dataSzCb : Option DataSzCb) (checkSzCb : Option CheckValidCb) :
    UnpackerModel :=
  if dataSzCb.isSome ∧ checkSzCb.isSome ∧ headKey ≠ [] ∧ tailKey ≠ [] then .kHeadTailCb
  else if headKey ≠ [] ∧ tailKey = [] then .kHead
  else if headKey ≠ [] ∧ tailKey ≠ [] then .kHeadTail
  else .kNone

/-- The mode is the one the constructor computed, and nothing sets it again. -/
structure UnPacker extends RingBuffer where
  headKey : List UInt8
  tailKey : List UInt8
  dataSzCb : Option DataSzCb := none
  checkSzCb : Option CheckValidCb := none
  unpackerModel : UnpackerModel
  model_eq : unpackerModel = checkModel headKey tailKey dataSzCb checkSzCb

namespace UnPacker

/-- `CreateWithCallbacks`; an empty callback is `none`. -/
def createWithCallbacks (h t : List UInt8) (dc : Option DataSzCb) (cc : Option CheckValidCb) (s : Nat)
    (hs : s ≤ maxSize) : UnPacker where
  toRingBuffer := RingBuffer.ofSize s hs
  headKey := h
  tailKey := t
  dataSzCb := dc
  checkSzCb := cc
  unpackerModel := checkModel h t dc cc
  model_eq := rfl

/-- `CreateBasic` -/
def createBasic (h t : List UInt8) (s : Nat) (hs : s ≤ maxSize) : UnPacker :=
  createWithCallbacks h t none none s hs

/-- `buffer_[i]` -/
def cell (u : UnPacker) (i : Nat) : UInt8 := u.buffer.getD i 0

/-! ## Searching -/

/-- The inner loop of `FindKey`: `cell j` against `key[j]`, up to the first difference. -/
def keyMatches (cell : Nat → UInt8) : List UInt8 → Nat → Bool
  | [], _ => true
  | b :: key, j => if cell j ≠ b then false else keyMatches cell key (j + 1)

/-- One of the two outer loops of `FindKey`. The counter has `2 ^ 64` values, so a
loop that runs longer never ends. -/
def scan (bound : Nat) (hit : Nat → Bool) : Except Fault (Option Nat) :=
  match forUpTo 64 bound hit (2 ^ 64 + 1) 0 with
  | none => .error .diverges
  | some r => .ok r

/-- `FindKey(find_key, start_offset)` -/
def findKey (u : UnPacker) (key : List UInt8) (startOffset : Nat) : Except Fault Nat :=
  if key = [] ∨ key.length > u.availableToRead ∨ startOffset ≥ u.availableToRead then .ok u.capacity
  else
    let keyLen := key.length
    let totalSize := u.availableToRead
    let absStart := addSz u.readIndex startOffset % u.capacity
    let part1Size := min (subSz u.capacity absStart) (subSz totalSize startOffset)
    let part2Size := subSz (subSz totalSize startOffset) part1Size
    do
      match ← scan (subSz part1Size keyLen)
          fun i => keyMatches (fun j => u.cell (addSz (addSz absStart i) j % u.capacity)) key 0 with
      | some i => return addSz startOffset i
      | none =>
        if part2Size ≥ keyLen then
          match ← scan (subSz part2Size keyLen) fun i => keyMatches (fun j => u.cell (addSz i j)) key 0 with
          | some i => return addSz (addSz startOffset part1Size) i
          | none => return u.capacity
        else return u.capacity

/-! ## Extracting -/

/-- `std::vector<uint8_t> packet(packet_size)` filled by the two `memcpy`s from
the packet's head on. -/
def copyPacket (u : UnPacker) (headOffset packetSize : Nat) : Except Fault (List UInt8) :=
  if packetSize > maxSize then .error .lengthError
  else
    let absHead := addSz u.readIndex headOffset % u.capacity
    let toEnd := subSz u.capacity absHead
    let part1Size := min packetSize toEnd
    if packetSize > part1Size then
      if subSz packetSize part1Size > u.capacity then .error .outOfBounds
      else .ok (u.load absHead part1Size ++ u.load 0 (subSz packetSize part1Size))
    else .ok (u.load absHead part1Size)

/-- `CommitReadSize(packet_size)`, its result ignored. -/
def commit (u : UnPacker) (packetSize : Nat) : UnPacker :=
  { u with toRingBuffer := (u.commitReadSize packetSize).2 }

/-- The loop of the two modes without callbacks. A packet goes from a head key to
the next `endKey`, of which `extra` bytes belong to it. `current_pos` becomes
the packet's end, which is where both modes put it. -/
def processKeys (endKey : List UInt8) (extra : Nat) :
    Nat → UnPacker → Nat → Nat → List (List UInt8) → Except Fault (List (List UInt8) × UnPacker)
  | 0, _, _, _, _ => .error .running
  | fuel + 1, u, currentPos, totalSize, readData =>
    if currentPos < totalSize then do
      let headOffset ← u.findKey u.headKey currentPos
      if headOffset = u.capacity then return (readData, u)
      let endOffset ← u.findKey endKey (addSz headOffset u.headKey.length)
      if endOffset = u.capacity then return (readData, u)
      let packetEnd := addSz endOffset extra
      let packetSize := subSz packetEnd headOffset
      let packet ← u.copyPacket headOffset packetSize
      processKeys endKey extra fuel (u.commit packetSize) packetEnd totalSize (readData ++ [packet])
    else return (readData, u)

/-- `ProcessHeadOnlyMode`: the next head key ends the packet and is not part of it. -/
def processHeadOnlyMode (fuel : Nat) (u : UnPacker) (readData : List (List UInt8)) :
    Except Fault (List (List UInt8) × UnPacker) :=
  processKeys u.headKey 0 fuel u 0 u.availableToRead readData

/-- `ProcessHeadTailMode`: the tail key ends the packet and is part of it. -/
def processHeadTailMode (fuel : Nat) (u : UnPacker) (readData : List (List UInt8)) :
    Except Fault (List (List UInt8) × UnPacker) :=
  processKeys u.tailKey u.tailKey.length fuel u 0 u.availableToRead readData

/-- The loop of `ProcessHeadTailAndCbMode`. -/
def processCb (dataSzCb : DataSzCb) (checkSzCb : Option CheckValidCb) :
    Nat → UnPacker → Nat → Nat → List (List UInt8) → Except Fault (List (List UInt8) × UnPacker)
  | 0, _, _, _, _ => .error .running
  | fuel + 1, u, currentPos, totalSize, readData =>
    if currentPos < totalSize then do
      let headOffset ← u.findKey u.headKey currentPos
      if headOffset = u.capacity then return (readData, u)
      let absHead := addSz u.readIndex headOffset % u.capacity
      let sizes := dataSzCb (u.buffer.drop absHead)
      let headSize := sizes.headSize.toNat
      let dataSize := sizes.dataSize.toNat
      let tailSize := sizes.tailSize.toNat
      let packetSize := addSz (addSz headSize dataSize) tailSize
      if headSize < u.headKey.length ∨ tailSize < u.tailKey.length ∨
        addSz headOffset packetSize > totalSize then
        processCb dataSzCb checkSzCb fuel u (addSz headOffset 1) totalSize readData
      else
        let expectedTailOffset := addSz (addSz headOffset headSize) dataSize
        let tailOffset ← u.findKey u.tailKey expectedTailOffset
        if tailOffset ≠ expectedTailOffset then
          processCb dataSzCb checkSzCb fuel u (addSz headOffset 1) totalSize readData
        else
          let packet ← u.copyPacket headOffset packetSize
          if checkSzCb.all (· packet) then
            processCb dataSzCb checkSzCb fuel (u.commit packetSize) (addSz headOffset packetSize) totalSize
              (readData ++ [packet])
          else processCb dataSzCb checkSzCb fuel u (addSz headOffset 1) totalSize readData
    else return (readData, u)

/-- `ProcessHeadTailAndCbMode`; in this mode the size callback is set. -/
def processHeadTailAndCbMode (fuel : Nat) (u : UnPacker) (readData : List (List UInt8)) :
    Except Fault (List (List UInt8) × UnPacker) :=
  match u.dataSzCb with
  | some dataSzCb => processCb dataSzCb u.checkSzCb fuel u 0 u.availableToRead readData
  | none => return (readData, u)

/-- `GetPack(read_data)` -/
def getPack (fuel : Nat) (u : UnPacker) (readData : List (List UInt8)) :
    Except Fault (UnPackerResult × List (List UInt8) × UnPacker) :=
  match u.unpackerModel with
  | .kHead => return (.kSuccess, ← processHeadOnlyMode fuel u readData)
  | .kHeadTail => return (.kSuccess, ← processHeadTailMode fuel u readData)
  | .kHeadTailCb => return (.kSuccess, ← processHeadTailAndCbMode fuel u readData)
  | .kNone => return (.kError, readData, u)

/-! ## The public calls -/

/-- `Write(write_ptr, bytes_to_write)` on the ring below. -/
def writeRing (u : UnPacker) (bytes : List UInt8) : UnPacker := { u with toRingBuffer := (u.write bytes).2 }

/-- `if (read_data.size() > 0) read_data.clear()` -/
def cleared (readData : List (List UInt8)) : List (List UInt8) := if readData.length > 0 then [] else readData

@[simp] theorem cleared_eq (readData : List (List UInt8)) : cleared readData = [] := by
  cases readData <;> rfl

/-- `PushAndGet(write_data, data_size, read_data)`; `none` is the null pointer. -/
def pushAndGet (fuel : Nat) (u : UnPacker) (writeData : Option (List UInt8)) (readData : List (List UInt8)) :
    Except Fault (Nat × List (List UInt8) × UnPacker) :=
  match writeData with
  | none => return (UnPackerResult.kError.toSize, readData, u)
  | some bytes => do
    let (_, packs) ← getPack fuel (u.writeRing bytes) (cleared readData)
    return ((u.write bytes).1, packs)

/-- `Get(read_data)` -/
def get (fuel : Nat) (u : UnPacker) (readData : List (List UInt8)) :
    Except Fault (Nat × List (List UInt8) × UnPacker) := do
  let (r, packs) ← getPack fuel u (cleared readData)
  return (r.toSize, packs)

/-- A `PushAndGet` of `bytes` comes back: the packets it hands out and the unpacker after it. -/
def Pushes (u : UnPacker) (bytes : List UInt8) (packs : List (List UInt8)) (u' : UnPacker) : Prop :=
  ∃ fuel ret, ∀ readData, pushAndGet fuel u (some bytes) readData = .ok (ret, packs, u')

/-- A `Get` comes back: the packets it hands out and the unpacker after it. -/
def Gets (u : UnPacker) (packs : List (List UInt8)) (u' : UnPacker) : Prop :=
  ∃ fuel ret, ∀ readData, get fuel u readData = .ok (ret, packs, u')

end UnPacker

end NebulaToolkit
