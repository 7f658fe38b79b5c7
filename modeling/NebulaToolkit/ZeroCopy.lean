import NebulaToolkit.Lib.Machine
import NebulaToolkit.RingFifo
/-!
# One producer and one consumer on the zero-copy interface

The producer asks for a write window, copies bytes into it and commits them;
the consumer asks for a read window, copies bytes out of it and commits them.
Each call of the ring buffer holds the mutex and is one step. The copies run
outside the mutex, one byte a step, in windows the other side may have made
stale by then. `Safe` is the invariant: a window can only be too small, never
wrong.
-/

namespace NebulaToolkit.ZeroCopy

open Lib RingBuffer

/-- Where a thread stands: outside, or holding the window of `size` bytes at
`start` after copying the bytes `copied`. -/
inductive Phase where
  | idle
  | window (start size : Nat) (copied : List UInt8)

structure State where
  ring : RingBuffer
  producer : Phase := .idle
  consumer : Phase := .idle
  /-- The bytes of the producer's commits. -/
  produced : List UInt8 := []
  /-- The bytes of the consumer's commits. -/
  consumed : List UInt8 := []
  /-- What the commits returned. -/
  commits : List Result := []

inductive Step : State → State → Prop
  | getLinearWriteSpace {s : State} : s.producer = .idle →
      Step s { s with producer := .window s.ring.getLinearWriteSpace.1 s.ring.getLinearWriteSpace.2 [] }
  | copyIn {s : State} {start size : Nat} {xs : List UInt8} (b : UInt8) :
      s.producer = .window start size xs → xs.length < size →
      Step s { s with
        ring := s.ring.store (start + xs.length) [b], producer := .window start size (xs ++ [b]) }
  | commitWriteSize {s : State} {start size : Nat} {xs : List UInt8} : s.producer = .window start size xs →
      Step s { s with
        ring := (s.ring.commitWriteSize xs.length).2
        producer := .idle
        produced := s.produced ++ xs
        commits := s.commits ++ [(s.ring.commitWriteSize xs.length).1] }
  | getLinearReadSpace {s : State} : s.consumer = .idle →
      Step s { s with consumer := .window s.ring.getLinearReadSpace.1 s.ring.getLinearReadSpace.2 [] }
  | copyOut {s : State} {start size : Nat} {ys : List UInt8} : s.consumer = .window start size ys →
      ys.length < size →
      Step s { s with consumer := .window start size (ys ++ s.ring.load (start + ys.length) 1) }
  | commitReadSize {s : State} {start size : Nat} {ys : List UInt8} : s.consumer = .window start size ys →
      Step s { s with
        ring := (s.ring.commitReadSize ys.length).2
        consumer := .idle
        consumed := s.consumed ++ ys
        commits := s.commits ++ [(s.ring.commitReadSize ys.length).1] }

/-- Both threads outside, on a new ring buffer. -/
def Start (c : Nat) (h : c ≤ maxSize) (s : State) : Prop := s = { ring := ofSize c h }

/-- A write window begins at the write index and spans free cells, up to the end
of the array at most. Its first cells hold what was copied. -/
def WriteOk (rb : RingBuffer) : Phase → Prop
  | .idle => True
  | .window start size xs => start = rb.writeIndex ∧ xs.length ≤ size ∧ size ≤ rb.capacity - rb.length ∧
      start + size ≤ rb.capacity ∧ slice rb.buffer start xs.length = xs

/-- A read window begins at the read index and spans stored bytes, up to the end
of the array at most. The first of them are what was copied. -/
def ReadOk (rb : RingBuffer) : Phase → Prop
  | .idle => True
  | .window start size ys => start = rb.readIndex ∧ ys.length ≤ size ∧ size ≤ rb.length ∧
      start + size ≤ rb.capacity ∧ rb.content.take ys.length = ys

structure Safe (s : State) : Prop where
  inv : s.ring.Inv
  write : WriteOk s.ring s.producer
  read : ReadOk s.ring s.consumer
  /-- What was produced and not consumed is in the ring. -/
  stream : s.produced = s.consumed ++ s.ring.content
  accepted : ∀ r ∈ s.commits, r = .kSuccess

/-! ## What a free cell and a stored cell are -/

/-- The cells of the write window are not those of the stored bytes. -/
theorem free_ne_stored {rb : RingBuffer} (hi : rb.Inv) {i j : Nat} (hi' : i < rb.capacity - rb.length)
    (hw : rb.writeIndex + i < rb.capacity) (hj : j < rb.length) :
    rb.writeIndex + i ≠ (rb.readIndex + j) % rb.capacity := by
  have hl := hi.length_le
  intro he
  -- Counted from the read index, the free cell is `length + i` places on.
  have e : rb.writeIndex + i = (rb.readIndex + (rb.length + i)) % rb.capacity := by
    rw [← Nat.add_assoc, ← Nat.mod_add_mod, ← hi.write_eq, Nat.mod_eq_of_lt hw]
  rw [e] at he
  have := mod_round_inj hi.read_lt (by omega) (by omega) he
  omega

theorem store_inv {rb : RingBuffer} (hi : rb.Inv) (i : Nat) (xs : List UInt8) : (rb.store i xs).Inv := by
  constructor <;> rw [capacity_store]
  exacts [hi.read_lt, hi.write_lt, hi.length_le, hi.write_eq]

/-- Bytes put into free cells of the write window leave the stored bytes. -/
theorem store_content {rb : RingBuffer} (hi : rb.Inv) {n : Nat} {xs : List UInt8}
    (hn : n + xs.length ≤ rb.capacity - rb.length) (hw : rb.writeIndex + n + xs.length ≤ rb.capacity) :
    (rb.store (rb.writeIndex + n) xs).content = rb.content := by
  have hround (j : Nat) : (rb.readIndex + j) % rb.capacity < rb.capacity := Nat.mod_lt _ hi.capacity_pos
  refine cyc_put_other hw fun j (hj : j < rb.length) => ?_
  show (rb.readIndex + j) % rb.capacity < _ ∨ _ ≤ (rb.readIndex + j) % rb.capacity
  by_contra hin
  have hj' := hround j
  exact free_ne_stored hi (i := (rb.readIndex + j) % rb.capacity - rb.writeIndex) (by omega) (by omega) hj
    (by omega)

theorem growBack_content {rb : RingBuffer} (hi : rb.Inv) {n : Nat} (hw : rb.writeIndex + n ≤ rb.capacity) :
    (rb.growBack n).content = rb.content ++ slice rb.buffer rb.writeIndex n := by
  have hwe : rb.writeIndex = (rb.readIndex + rb.length) % rb.buffer.length := hi.write_eq
  show cyc rb.buffer rb.readIndex (rb.length + n) = _
  rw [cyc_add, ← cyc_mod rb.buffer (rb.readIndex + rb.length), ← hwe, cyc_linear hw]
  rfl

theorem writeOk_new {rb : RingBuffer} (hi : rb.Inv) :
    WriteOk rb (.window rb.getLinearWriteSpace.1 rb.getLinearWriteSpace.2 []) := by
  have := hi.write_lt
  simp only [getLinearWriteSpace_eq hi, WriteOk]
  exact ⟨trivial, Nat.zero_le _, by omega, by omega, by simp [slice]⟩

theorem readOk_new {rb : RingBuffer} (hi : rb.Inv) :
    ReadOk rb (.window rb.getLinearReadSpace.1 rb.getLinearReadSpace.2 []) := by
  have := hi.read_lt
  simp only [getLinearReadSpace, hi.toEnd_read, availableToRead, ReadOk]
  exact ⟨trivial, Nat.zero_le _, by omega, by omega, by simp⟩

/-- More bytes behind the stored ones leave a read window as it is. -/
theorem ReadOk.mono {rb rb' : RingBuffer} {p : Phase} (h : ReadOk rb p) (hr : rb'.readIndex = rb.readIndex)
    (hc : rb'.capacity = rb.capacity) (hp : rb.content <+: rb'.content) : ReadOk rb' p := by
  cases p with
  | idle => exact trivial
  | window start size ys =>
    obtain ⟨h1, h2, h3, h4, h5⟩ := h
    have hl := hp.length_le
    rw [content_length, content_length] at hl
    obtain ⟨xs, hxs⟩ := hp
    refine ⟨h1.trans hr.symm, h2, Nat.le_trans h3 hl, hc ▸ h4, ?_⟩
    rw [← hxs, List.take_append_of_le_length (by rw [content_length]; omega), h5]

/-- Fewer stored bytes in front leave a write window as it is. -/
theorem WriteOk.mono {rb rb' : RingBuffer} {p : Phase} (h : WriteOk rb p)
    (hw : rb'.writeIndex = rb.writeIndex) (hb : rb'.buffer = rb.buffer) (hl : rb'.length ≤ rb.length) :
    WriteOk rb' p := by
  cases p with
  | idle => exact trivial
  | window start size xs =>
    obtain ⟨h1, h2, h3, h4, h5⟩ := h
    have hc : rb'.capacity = rb.capacity := congrArg List.length hb
    refine ⟨h1.trans hw.symm, h2, ?_, hc ▸ h4, hb ▸ h5⟩
    rw [hc]
    exact Nat.le_trans h3 (Nat.sub_le_sub_left hl _)

/-! ## Every step keeps the invariant -/

theorem start_safe {c : Nat} {h : c ≤ maxSize} (h0 : 0 < c) {s : State} (hs : Start c h s) : Safe s := by
  subst hs
  exact ⟨ofSize_inv h h0, trivial, trivial, rfl, by simp⟩

section
variable {s : State} (h : Safe s) {start size : Nat} {xs : List UInt8}
include h

theorem copyIn_safe (b : UInt8) (hp : s.producer = .window start size xs) (hlt : xs.length < size) :
    Safe { s with
      ring := s.ring.store (start + xs.length) [b], producer := .window start size (xs ++ [b]) } := by
  obtain ⟨hi, hw, hr, hst, hok⟩ := h
  rw [hp] at hw
  obtain ⟨rfl, -, hfree, hend, hxs⟩ := hw
  have hc := @store_content s.ring hi xs.length [b] (show xs.length + 1 ≤ _ by omega)
    (show _ + 1 ≤ s.ring.capacity by omega)
  have hcap := capacity_store s.ring (s.ring.writeIndex + xs.length) [b]
  refine ⟨store_inv hi _ _, ⟨rfl, by simp; omega, by rw [hcap]; exact hfree, by rw [hcap]; exact hend, ?_⟩,
    hr.mono rfl hcap (hc ▸ List.prefix_rfl), by rw [hst]; exact congrArg _ hc.symm, hok⟩
  rw [List.length_append, List.length_singleton]
  show slice (put s.ring.buffer _ _) _ _ = _
  rw [slice_put_succ (by unfold capacity at hend; omega), hxs]

theorem commitWriteSize_safe (hp : s.producer = .window start size xs) : Safe { s with
    ring := (s.ring.commitWriteSize xs.length).2
    producer := .idle
    produced := s.produced ++ xs
    commits := s.commits ++ [(s.ring.commitWriteSize xs.length).1] } := by
  obtain ⟨hi, hw, hr, hst, hok⟩ := h
  rw [hp] at hw
  obtain ⟨rfl, hle, hfree, hend, hxs⟩ := hw
  have hl := hi.length_le
  rw [commitWriteSize_eq hi, if_pos (by omega)]
  have hc := growBack_content hi (n := xs.length) (by omega)
  rw [hxs] at hc
  refine ⟨hi.growBack (by omega), trivial, hr.mono rfl (capacity_growBack _ _) ?_, ?_, ?_⟩
  · rw [hc]; exact List.prefix_append _ _
  · simp only [hst, hc, List.append_assoc]
  · simpa [or_imp, forall_and] using hok

theorem copyOut_safe (hp : s.consumer = .window start size xs) (hlt : xs.length < size) :
    Safe { s with consumer := .window start size (xs ++ s.ring.load (start + xs.length) 1) } := by
  obtain ⟨hi, hw, hr, hst, hok⟩ := h
  rw [hp] at hr
  obtain ⟨rfl, -, hstored, hend, hys⟩ := hr
  refine ⟨hi, hw, ⟨rfl, ?_, hstored, hend, ?_⟩, hst, hok⟩
  · simp [RingBuffer.load, slice]; omega
  · have h1 : s.ring.load (s.ring.readIndex + xs.length) 1 =
        cyc s.ring.buffer (s.ring.readIndex + xs.length) 1 :=
      (cyc_linear (by unfold capacity at hend; omega)).symm
    have h2 : s.ring.content.take xs.length = cyc s.ring.buffer s.ring.readIndex xs.length :=
      take_cyc _ _ (by omega)
    rw [h2] at hys
    conv_rhs => rw [h1, ← hys, cyc_length, ← cyc_add]
    rw [h1, List.length_append, cyc_length]
    exact take_cyc s.ring.buffer s.ring.readIndex (n := s.ring.length) (by omega)

theorem commitReadSize_safe (hp : s.consumer = .window start size xs) : Safe { s with
    ring := (s.ring.commitReadSize xs.length).2
    consumer := .idle
    consumed := s.consumed ++ xs
    commits := s.commits ++ [(s.ring.commitReadSize xs.length).1] } := by
  obtain ⟨hi, hw, hr, hst, hok⟩ := h
  rw [hp] at hr
  obtain ⟨rfl, hle, hstored, hend, hys⟩ := hr
  rw [commitReadSize_eq hi, if_pos (by omega)]
  have hc : (s.ring.dropFront xs.length).content = s.ring.content.drop xs.length :=
    dropFront_content (by omega)
  refine ⟨hi.dropFront (by omega), hw.mono rfl rfl (Nat.sub_le _ _), trivial, ?_, ?_⟩
  · rw [hst, hc, List.append_assoc]
    conv_lhs => rw [← List.take_append_drop xs.length s.ring.content, hys]
  · simpa [or_imp, forall_and] using hok

end

theorem step_safe {s s' : State} (h : Safe s) (hs : Step s s') : Safe s' := by
  cases hs with
  | getLinearWriteSpace => exact ⟨h.inv, writeOk_new h.inv, h.read, h.stream, h.accepted⟩
  | copyIn b hp hlt => exact copyIn_safe h b hp hlt
  | commitWriteSize hp => exact commitWriteSize_safe h hp
  | getLinearReadSpace => exact ⟨h.inv, h.write, readOk_new h.inv, h.stream, h.accepted⟩
  | copyOut hp hlt => exact copyOut_safe h hp hlt
  | commitReadSize hp => exact commitReadSize_safe h hp

/-! ## The guarantees -/

/-- The bytes a thread copied and has not committed. -/
def Phase.copied : Phase → List UInt8
  | .idle => []
  | .window _ _ xs => xs

/-- The cells of the window a thread holds. -/
def Phase.Owns (p : Phase) (i : Nat) : Prop :=
  match p with
  | .idle => False
  | .window start size _ => start ≤ i ∧ i < start + size

theorem Safe.disjoint {s : State} (h : Safe s) (i : Nat) : ¬ (s.producer.Owns i ∧ s.consumer.Owns i) := by
  rintro ⟨hp, hc⟩
  have hi := h.inv
  have hw := h.write
  have hr := h.read
  cases hprod : s.producer with
  | idle => rw [hprod] at hp; exact hp
  | window start size xs =>
    cases hcons : s.consumer with
    | idle => rw [hcons] at hc; exact hc
    | window start' size' ys =>
      rw [hprod] at hp hw
      rw [hcons] at hc hr
      obtain ⟨rfl, -, hfree, hend, -⟩ := hw
      obtain ⟨rfl, -, hstored, hend', -⟩ := hr
      simp only [Phase.Owns] at hp hc
      have hne := free_ne_stored hi (i := i - s.ring.writeIndex) (j := i - s.ring.readIndex) (by omega)
        (by omega) (by omega)
      rw [Nat.mod_eq_of_lt (by omega)] at hne
      omega

/-- Whatever the interleaving, the two windows share no cell, every commit is
accepted, and the bytes the consumer has copied so far are the first bytes of
those the producer has committed. -/
theorem zero_copy_safe (c : Nat) (h0 : 0 < c) (hc : c ≤ maxSize) (s : State)
    (h : Reachable (Start c hc) Step s) :
    (∀ i, ¬ (s.producer.Owns i ∧ s.consumer.Owns i)) ∧ (∀ r ∈ s.commits, r = .kSuccess) ∧
      s.consumed ++ s.consumer.copied <+: s.produced := by
  have hs : Safe s := h.inv (fun _ hs => start_safe h0 hs) (fun _ _ _ hs ht => step_safe hs ht)
  refine ⟨hs.disjoint, hs.accepted, ?_⟩
  rw [hs.stream, List.prefix_append_right_inj]
  have hr := hs.read
  cases hcons : s.consumer with
  | idle => exact List.nil_prefix
  | window start size ys =>
    rw [hcons] at hr
    rw [show (Phase.window start size ys).copied = ys from rfl, ← hr.2.2.2.2]
    exact List.take_prefix _ _

/-- The theorem at a state where the producer has committed one byte and holds a
second window, and the consumer has copied the byte. -/
theorem zero_copy_safe_two : ∃ s, Reachable (Start 2 (by decide)) Step s ∧ s.producer.Owns 1 ∧
    s.consumer.copied = [7] ∧ ¬ (s.producer.Owns 1 ∧ s.consumer.Owns 1) ∧
    s.consumed ++ s.consumer.copied <+: s.produced := by
  have h₀ : Reachable (Start 2 (by decide)) Step { ring := ofSize 2 (by decide) } := .start rfl
  have h₁ := h₀.next (.getLinearWriteSpace rfl)
  have h₂ := h₁.next (.copyIn 7 rfl (by decide))
  have h₃ := h₂.next (.commitWriteSize rfl)
  have h₄ := h₃.next (.getLinearReadSpace rfl)
  have h₅ := h₄.next (.getLinearWriteSpace rfl)
  have h₆ := h₅.next (.copyOut rfl (by decide))
  have safe := zero_copy_safe 2 (by decide) (by decide) _ h₆
  exact ⟨_, h₆, by simp only [Phase.Owns]; decide, by decide, safe.1 1, safe.2.2⟩

end NebulaToolkit.ZeroCopy
