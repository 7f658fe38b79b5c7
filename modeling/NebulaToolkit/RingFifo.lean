import NebulaToolkit.Lib.Fifo
import NebulaToolkit.Lib.Machine
import NebulaToolkit.RingBuffer
/-!
# The ring buffer is a bounded FIFO queue

A caller's operations on a ring buffer, as one machine (`step`). From a new
buffer, every run of it is a run of the bounded queue of `Lib.Fifo`, with
`content` as the queue, and the index invariant holds after every step.
-/

namespace NebulaToolkit.RingBuffer

open Lib

/-- One call, or one use of the zero-copy write interface. -/
inductive Op where
  | write (writePtr : List UInt8)
  | read (bytesToRead : Nat)
  | peek (bytesToRead : Nat)
  | clear
  | commitReadSize (readSize : Nat)
  /-- `GetLinearWriteSpace`, then fill the window with the bytes (as many as fit)
  and `CommitWriteSize` what was filled. -/
  | linearWrite (bytes : List UInt8)

/-- What the caller gets to see: the return value and the bytes that were copied. -/
inductive Out where
  | size (ret : Nat) (bytes : List UInt8)
  | bool (ret : Bool)
  | result (ret : Result) (bytes : List UInt8)

def linearWrite (rb : RingBuffer) (bytes : List UInt8) : (Result × List UInt8) × RingBuffer :=
  let window := rb.getLinearWriteSpace
  let filled := bytes.take window.2
  let r := (rb.store window.1 filled).commitWriteSize filled.length
  ((r.1, filled), r.2)

def step (rb : RingBuffer) : Op → Out × RingBuffer
  | .write p => (.size (rb.write p).1 [], (rb.write p).2)
  | .read n => (.size (rb.read n).1.1 (rb.read n).1.2, (rb.read n).2)
  | .peek n => (.size (rb.peek [] n).1.1 (rb.peek [] n).1.2, (rb.peek [] n).2)
  | .clear => (.bool rb.clear.1, rb.clear.2)
  | .commitReadSize n => (.result (rb.commitReadSize n).1 [], (rb.commitReadSize n).2)
  | .linearWrite bs => (.result (rb.linearWrite bs).1.1 (rb.linearWrite bs).1.2, (rb.linearWrite bs).2)

/-! ## The zero-copy write -/

section
variable {rb : RingBuffer} (hi : rb.Inv)
include hi

theorem getLinearWriteSpace_eq : rb.getLinearWriteSpace =
    (rb.writeIndex, min (rb.capacity - rb.length) (rb.capacity - rb.writeIndex)) := by
  rw [getLinearWriteSpace, hi.availableToWrite_eq, hi.toEnd_write]

theorem getLinearWriteSpace_le : rb.getLinearWriteSpace.2 ≤ rb.capacity - rb.length := by
  rw [getLinearWriteSpace_eq hi]
  exact Nat.min_le_left _ _

/-- A ring that is not full has a window to write into. -/
theorem getLinearWriteSpace_ne (h : rb.length < rb.capacity) : rb.getLinearWriteSpace.2 ≠ 0 := by
  have hlt := hi.write_lt
  rw [getLinearWriteSpace_eq hi]
  dsimp only
  omega

/-- Filling the window and committing it appends the filled bytes. -/
theorem linearWrite_eq (bs : List UInt8) : rb.linearWrite bs =
    ((.kSuccess, bs.take rb.getLinearWriteSpace.2), rb.append (bs.take rb.getLinearWriteSpace.2)) := by
  have hl := hi.length_le
  simp only [linearWrite, getLinearWriteSpace_eq hi]
  generalize hx : bs.take (min (rb.capacity - rb.length) (rb.capacity - rb.writeIndex)) = xs
  have hlen : xs.length ≤ min (rb.capacity - rb.length) (rb.capacity - rb.writeIndex) := by
    rw [← hx, List.length_take]; omega
  -- The window ends at the end of the array, so one copy stores the block.
  have hs : rb.store rb.writeIndex xs =
      { rb with buffer := putCyc rb.buffer rb.writeIndex xs, size_le := by simpa using rb.size_le } := by
    have h : xs.length ≤ rb.buffer.length - rb.writeIndex := by unfold capacity at hlen; omega
    simp [store, putCyc, List.take_of_length_le h, List.drop_eq_nil_of_le h]
  have hi' : (rb.store rb.writeIndex xs).Inv := by
    constructor <;> rw [capacity_store]
    exacts [hi.read_lt, hi.write_lt, hi.length_le, hi.write_eq]
  rw [commitWriteSize_eq hi', capacity_store, if_pos (by show rb.length + _ ≤ _; omega), hs]
  rfl

end

/-! ## Refinement -/

/-- The queue operation a call stands for. -/
def Op.abs : Op → Fifo.Op UInt8
  | .write p => .push p
  | .read n => .pop n
  | .peek n => .peek n
  | .clear => .clear
  | .commitReadSize n => .drop n
  | .linearWrite bs => .pushSome bs

/-- The return value and the copied bytes report the queue's reply. -/
def Reports : Op → Out → Fifo.Reply UInt8 → Prop
  | .write p, o, .done _ => o = .size p.length []
  | .write p, o, .refused => o = .size (if p.length = 0 then Result.kErrorEmpty else .kErrorFull).toSize []
  | .read n, o, .done xs => o = .size n xs
  | .read n, o, .refused => o = .size (if n = 0 then Result.kErrorEmpty else .kErrorFull).toSize []
  | .peek n, o, .done xs => o = .size n xs
  | .peek n, o, .refused => o = .size (if n = 0 then 0 else 2 ^ 64 - 1) []
  | .clear, o, _ => o = .bool true
  | .commitReadSize _, o, .done _ => o = .result .kSuccess []
  | .commitReadSize _, o, .refused => o = .result .kErrorInvalidSize []
  | .linearWrite _, o, .done xs => o = .result .kSuccess xs
  | .linearWrite _, _, .refused => False

/-- A call on a ring of capacity `c` that holds `q` may answer `o` and leave `q'`. -/
def Spec (c : Nat) (q : List UInt8) (op : Op) (o : Out) (q' : List UInt8) : Prop :=
  ∃ r, Fifo.Step c q op.abs r q' ∧ Reports op o r

/-- One call matches the queue, keeps the invariant and the capacity, and
leaves the ring as it was when it is refused or only looks. -/
theorem step_spec {rb : RingBuffer} (hi : rb.Inv) (op : Op) :
    ∃ r, Fifo.Step rb.capacity rb.content op.abs r (rb.step op).2.content ∧ Reports op (rb.step op).1 r ∧
      (rb.step op).2.Inv ∧ (rb.step op).2.capacity = rb.capacity ∧
      (r = .refused ∨ (∃ n, op = .peek n) → (rb.step op).2 = rb) := by
  have hl := hi.length_le
  cases op with
  | write p =>
    simp only [step, write_eq hi, Op.abs, Fifo.Step, content_length]
    by_cases h0 : p.length = 0
    · exact ⟨.refused, by simp [h0], by simp [Reports, h0], by simpa [h0] using hi, by simp [h0],
        by simp [h0]⟩
    by_cases h : rb.length + p.length ≤ rb.capacity
    · have hpos : 0 < p.length ∧ p.length ≤ rb.capacity - rb.length := by omega
      simp only [if_neg h0, if_pos h, if_pos hpos]
      exact ⟨.done [], ⟨rfl, append_content hi h⟩, rfl, hi.append h, capacity_append _ _, by simp⟩
    · have hneg : ¬ (0 < p.length ∧ p.length ≤ rb.capacity - rb.length) := by omega
      simp only [if_neg h0, if_neg h, if_neg hneg]
      exact ⟨.refused, ⟨rfl, trivial⟩, by simp [Reports, h0], hi, trivial, fun _ => trivial⟩
  | read n =>
    simp only [step, read_eq hi, Op.abs, Fifo.Step, content_length]
    by_cases h0 : n = 0
    · exact ⟨.refused, by simp [h0], by simp [Reports, h0], by simpa [h0] using hi, by simp [h0],
        by simp [h0]⟩
    by_cases h : n ≤ rb.length
    · simp only [if_neg h0, if_pos h, if_pos (show 0 < n ∧ n ≤ rb.length by omega)]
      exact ⟨.done (rb.content.take n), ⟨rfl, dropFront_content h⟩, rfl, hi.dropFront h, rfl, by simp⟩
    · simp only [if_neg h0, if_neg h, if_neg (show ¬ (0 < n ∧ n ≤ rb.length) by omega)]
      exact ⟨.refused, ⟨rfl, trivial⟩, by simp [Reports, h0], hi, trivial, fun _ => trivial⟩
  | peek n =>
    simp only [step, peek_eq hi, Op.abs, Fifo.Step, content_length]
    by_cases h0 : n = 0
    · exact ⟨.refused, by simp [h0], by simp [Reports, h0], by simpa [h0] using hi, by simp [h0],
        by simp [h0]⟩
    by_cases h : n ≤ rb.length
    · simp only [if_neg h0, if_pos h, if_pos (show 0 < n ∧ n ≤ rb.length by omega)]
      exact ⟨.done (rb.content.take n), ⟨rfl, trivial⟩, rfl, hi, trivial, fun _ => trivial⟩
    · simp only [if_neg h0, if_neg h, if_neg (show ¬ (0 < n ∧ n ≤ rb.length) by omega)]
      exact ⟨.refused, ⟨rfl, trivial⟩, by simp [Reports, h0], hi, trivial, fun _ => trivial⟩
  | clear =>
    refine ⟨.done [], ⟨rfl, rfl⟩, rfl, ?_, rfl, by simp⟩
    constructor <;> simp only [step, RingBuffer.clear, capacity]
    exacts [hi.capacity_pos, hi.capacity_pos, Nat.zero_le _, (Nat.zero_mod _).symm]
  | commitReadSize n =>
    simp only [step, commitReadSize_eq hi, Op.abs, Fifo.Step, content_length]
    by_cases h : n ≤ rb.length
    · simp only [if_pos h]
      exact ⟨.done [], ⟨rfl, dropFront_content h⟩, rfl, hi.dropFront h, rfl, by simp⟩
    · simp only [if_neg h]
      exact ⟨.refused, ⟨rfl, trivial⟩, rfl, hi, trivial, fun _ => trivial⟩
  | linearWrite bs =>
    have hw := getLinearWriteSpace_le hi
    have hx : rb.length + (bs.take rb.getLinearWriteSpace.2).length ≤ rb.capacity := by simp; omega
    simp only [step, linearWrite_eq hi, Op.abs, Fifo.Step, content_length]
    exact ⟨.done _, ⟨_, hw, getLinearWriteSpace_ne hi, rfl, append_content hi hx⟩, rfl, hi.append hx,
      capacity_append _ _, by simp⟩

/-- A ring of capacity `c` that satisfies the invariant and holds `q`. -/
def Holds (c : Nat) (rb : RingBuffer) (q : List UInt8) : Prop := rb.Inv ∧ rb.capacity = c ∧ rb.content = q

theorem step_refines {c : Nat} (rb : RingBuffer) (q : List UInt8) (op : Op) (h : Holds c rb q) :
    ∃ q', Spec c q op (rb.step op).1 q' ∧ Holds c (rb.step op).2 q' := by
  obtain ⟨hi, rfl, rfl⟩ := h
  obtain ⟨r, hs, hr, hi', hc', -⟩ := step_spec hi op
  exact ⟨_, ⟨r, hs, hr⟩, hi', hc', rfl⟩

/-- What is written without a copy is all that fits the window. -/
theorem linearWrite_content {rb : RingBuffer} (hi : rb.Inv) (bs : List UInt8) :
    (rb.linearWrite bs).2.content = rb.content ++ bs.take rb.getLinearWriteSpace.2 := by
  have hl := hi.length_le
  have hw := getLinearWriteSpace_le hi
  rw [linearWrite_eq hi]
  exact append_content hi (by simp; omega)

/-- From a new ring buffer every run is a run of a bounded FIFO queue of bytes,
whose contents are the stored bytes. Every state on the way satisfies the
invariant, and there a refused call or a `Peek` changes nothing at all, and all
that fits the window is written without a copy. -/
theorem ring_refines_fifo (c : Nat) (h0 : 0 < c) (hc : c < 2 ^ 63) (ops : List Op) :
    let start := ofSize c (by unfold maxSize; omega)
    let run := runOut step start ops
    Trace (Spec c) [] ops run.1 run.2.content ∧ run.2.Inv ∧ run.2.capacity = c ∧ run.2.content.length ≤ c ∧
      ∀ op, ∃ r, Fifo.Step c run.2.content op.abs r (run.2.step op).2.content ∧
      Reports op (run.2.step op).1 r ∧
        (run.2.step op).2.Inv ∧ (r = .refused ∨ (∃ n, op = .peek n) → (run.2.step op).2 = run.2) ∧
        ∀ bs, op = .linearWrite bs →
        (run.2.step op).2.content = run.2.content ++ bs.take run.2.getLinearWriteSpace.2 := by
  intro start run
  obtain ⟨q, ht, hi, hcap, rfl⟩ := runOut_refines step_refines ops start []
    ⟨ofSize_inv _ h0, ofSize_capacity _, ofSize_content _⟩
  refine ⟨ht, hi, hcap, ?_, fun op => ?_⟩
  · exact ht.inv (I := fun q => q.length ≤ c) (fun _ _ _ _ hq ⟨_, hs, _⟩ => hs.bounded hq) (Nat.zero_le c)
  · obtain ⟨r, hs, hr, hi', -, hsame⟩ := step_spec hi op
    refine ⟨r, by rw [← hcap]; exact hs, hr, hi', hsame, ?_⟩
    rintro bs rfl
    exact linearWrite_content hi bs

/-- The theorem at capacity 3: a write, a read and a write that goes round the end. -/
theorem ring_refines_fifo_three :
    let run := runOut step (ofSize 3 (by decide)) [.write [7, 8], .read 1, .write [9, 10]]
    0 < 3 ∧ 3 < 2 ^ 63 ∧ run.2.content = [8, 9, 10] ∧ run.2.Inv ∧ run.2.content.length ≤ 3 :=
  have h := ring_refines_fifo 3 (by decide) (by decide) [.write [7, 8], .read 1, .write [9, 10]]
  ⟨by decide, by decide, by decide, h.2.1, h.2.2.2.1⟩

/-- `Peek` hands out what a `Read` of as many bytes would. -/
theorem peek_agrees_read {rb : RingBuffer} (hi : rb.Inv) {n : Nat} (h0 : 0 < n) (hn : n ≤ rb.length)
    (v : List UInt8) :
    (rb.peek v n).1 = (rb.read n).1 := by
  have h0' : n ≠ 0 := by omega
  rw [peek_eq hi, read_eq hi, if_neg h0', if_neg h0', if_pos hn, if_pos hn]

end NebulaToolkit.RingBuffer
