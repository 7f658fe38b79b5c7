import NebulaToolkit.RingFifo
/-!
# The byte stream

`containers::ByteStream`: the ring buffer with `<<` and `>>` for values of a
fixed size and for strings. Neither puts a length into the stream and neither
reports a refusal. Read as a serializer it is a queue of items, whose bytes
stand in the ring one behind the other.
-/

namespace NebulaToolkit

open Lib

abbrev ByteStream : Type := RingBuffer

/-- What `<<` takes and what `>>` fills: a value of some type, or a string. -/
inductive Kind where
  | value
  | string
  deriving DecidableEq

/-- An operand, by the bytes it stands for. No type has size zero, a string may. -/
structure Item where
  kind : Kind
  bytes : List UInt8
  sizeof_pos : kind = .value → 0 < bytes.length

namespace ByteStream

/-- `Write(ptr, n)` with the operand's bytes, the result ignored. -/
def put (bs : ByteStream) (data : List UInt8) : ByteStream := (bs.write data).2

/-- `Read(ptr, n)` into the operand's bytes, the result ignored. -/
def fill (bs : ByteStream) (data : List UInt8) : List UInt8 × ByteStream :=
  let r := bs.read data.length
  (r.1.2 ++ data.drop r.1.2.length, r.2)

/-- `operator<<(const T &data)` -/
def insertValue (bs : ByteStream) (data : List UInt8) : ByteStream := bs.put data

/-- `operator>>(T &data)` -/
def extractValue (bs : ByteStream) (data : List UInt8) : List UInt8 × ByteStream := bs.fill data

/-- `operator<<(const std::string &data)` -/
def insertString (bs : ByteStream) (data : List UInt8) : ByteStream := bs.put data

/-- `operator>>(std::string &data)`, which reads as many bytes as the string has. -/
def extractString (bs : ByteStream) (data : List UInt8) : List UInt8 × ByteStream := bs.fill data

inductive Op where
  | insert (data : Item)
  | extract (data : Item)

/-- One operator: what stands in the operand afterwards, and the stream. -/
def step (bs : ByteStream) : Op → List UInt8 × ByteStream
  | .insert ⟨.value, data, _⟩ => (data, bs.insertValue data)
  | .insert ⟨.string, data, _⟩ => (data, bs.insertString data)
  | .extract ⟨.value, data, _⟩ => bs.extractValue data
  | .extract ⟨.string, data, _⟩ => bs.extractString data

/-! ## Reachable streams -/

/-- `ByteStream(buffer_size)` -/
def Start (bs : ByteStream) : Prop :=
  ∃ bufferSize, ∃ h : bufferSize ≤ maxSize, 0 < bufferSize ∧ bs = RingBuffer.ofSize bufferSize h

/-- An operator of the stream, or a call of the ring buffer it is. -/
def Call (bs bs' : ByteStream) : Prop := (∃ op, bs' = (bs.step op).2) ∨ ∃ op :
    RingBuffer.Op, bs' = (RingBuffer.step bs op).2

theorem step_insert (bs : ByteStream) (data : Item) :
    bs.step (.insert data) = (data.bytes, bs.put data.bytes) := by
  obtain ⟨_ | _, data, h⟩ := data <;> rfl

theorem step_extract (bs : ByteStream) (data : Item) : bs.step (.extract data) = bs.fill data.bytes := by
  obtain ⟨_ | _, data, h⟩ := data <;> rfl

/-- Every reachable stream satisfies the ring invariant: an operator is a `write` or
a `read` of the ring. -/
theorem reachable_inv {bs : ByteStream} (h : Reachable Start Call bs) : bs.Inv := by
  have ring (bs : ByteStream) (hi : bs.Inv) (op : RingBuffer.Op) : (RingBuffer.step bs op).2.Inv := by
    obtain ⟨r, -, -, hi', -⟩ := RingBuffer.step_spec hi op
    exact hi'
  refine h.inv (I := RingBuffer.Inv) ?_ fun bs bs' _ hi hc => ?_
  · rintro bs ⟨c, hc, hpos, rfl⟩
    exact RingBuffer.ofSize_inv hc hpos
  · rcases hc with ⟨op, rfl⟩ | ⟨op, rfl⟩
    · cases op with
      | insert data => rw [step_insert]; exact ring bs hi (.write data.bytes)
      | extract data => rw [step_extract]; exact ring bs hi (.read data.bytes.length)
    · exact ring bs hi op

/-! ## The queue of items -/

/-- The bytes of the items one behind the other. -/
def bytesOf (q : List Item) : List UInt8 := q.flatMap Item.bytes

def Op.data : Op → Item
  | .insert data => data
  | .extract data => data

/-- An operator the stream refuses: an insertion that does not fit, or an
extraction of more bytes than there are. -/
def Op.Refused (capacity : Nat) (q : List Item) : Op → Prop
  | .insert data => capacity < (bytesOf q).length + data.bytes.length
  | .extract data => (bytesOf q).length < data.bytes.length

instance (capacity : Nat) (q : List Item) : (op : Op) → Decidable (op.Refused capacity q)
  | .insert data => inferInstanceAs (Decidable (capacity < (bytesOf q).length + data.bytes.length))
  | .extract data => inferInstanceAs (Decidable ((bytesOf q).length < data.bytes.length))

/-- The operand of an extraction has the kind and size of the oldest item. -/
def Op.Matches (q : List Item) : Op → Prop
  | .insert _ => True
  | .extract data => ∃ i rest, q = i :: rest ∧ i.kind = data.kind ∧ i.bytes.length = data.bytes.length

/-- A queue of items of at most `capacity` bytes: the last item goes behind the
others, the first comes out. -/
def queueStep (capacity : Nat) (q : List Item) (op : Op) : List UInt8 × List Item :=
  if op.Refused capacity q then (op.data.bytes, q)
  else
    match op, q with
    | .insert data, q => (data.bytes, q ++ [data])
    | .extract _, i :: q => (i.bytes, q)
    | .extract data, [] => (data.bytes, [])

theorem queueStep_refused {capacity : Nat} {q : List Item} {op : Op} (h : op.Refused capacity q) :
    queueStep capacity q op = (op.data.bytes, q) := by
  unfold queueStep
  rw [if_pos h]

/-- A program on the queue whose extractions match the oldest item, or are refused. -/
def Matched (capacity : Nat) : List Item → List Op → Prop
  | _, [] => True
  | q, op :: ops => (op.Refused capacity q ∨ op.Matches q) ∧ Matched capacity (queueStep capacity q op).2 ops

/-- A program no operator of which is refused. -/
def Accepted (capacity : Nat) : List Item → List Op → Prop
  | _, [] => True
  | q, op :: ops => ¬ op.Refused capacity q ∧ Accepted capacity (queueStep capacity q op).2 ops

def inserted : List Op → List Item
  | [] => []
  | .insert data :: ops => data :: inserted ops
  | .extract _ :: ops => inserted ops

/-- What stands in the operands of the extractions, in order. -/
def extracted : List Op → List (List UInt8) → List (List UInt8)
  | .extract _ :: ops, out :: outs => out :: extracted ops outs
  | .insert _ :: ops, _ :: outs => extracted ops outs
  | _, _ => []

/-- What comes out of the queue is what was in it and what goes in, in this order. -/
theorem queue_fifo {capacity : Nat} (ops : List Op) : ∀ q, Matched capacity q ops → Accepted capacity q ops →
    extracted ops (runOut (queueStep capacity) q ops).1 ++
    (runOut (queueStep capacity) q ops).2.map Item.bytes =
      (q ++ inserted ops).map Item.bytes := by
  induction ops with
  | nil => intro q _ _; simp [extracted, inserted, runOut]
  | cons op ops ih =>
    rintro q ⟨hm, hms⟩ ⟨ha, has⟩
    have ih' := ih _ hms has
    cases op with
    | insert data =>
      have hq : (queueStep capacity q (.insert data)).2 = q ++ [data] := by unfold queueStep; rw [if_neg ha]
      rw [hq] at ih'
      simp only [runOut, extracted, inserted, hq, ih', List.append_assoc, List.singleton_append]
    | extract data =>
      obtain ⟨i, rest, rfl, -, -⟩ := hm.resolve_left ha
      have hq : queueStep capacity (i :: rest) (.extract data) = (i.bytes, rest) := by
        unfold queueStep; rw [if_neg ha]
      rw [hq] at ih'
      simp only [runOut, extracted, inserted, hq, List.cons_append, ih', List.map_cons]

/-! ## The stream is that queue -/

variable {bs : ByteStream} {q : List Item}

/-- The stream satisfies the ring invariant and holds the bytes of the items. -/
structure Holds (bs : ByteStream) (q : List Item) : Prop where
  inv : bs.Inv
  content : bs.content = bytesOf q

theorem Holds.length (h : Holds bs q) : bs.length = (bytesOf q).length := by
  rw [← h.content, RingBuffer.content_length]

/-- A refused operator changes neither the stream nor its operand. -/
theorem step_refused (h : Holds bs q) {op : Op} (hr : op.Refused bs.capacity q) :
    bs.step op = (op.data.bytes, bs) := by
  cases op with
  | insert data =>
    have hlen : ¬ bs.length + data.bytes.length ≤ bs.capacity := by
      rw [h.length]; exact Nat.not_le.2 hr
    rw [step_insert, put, RingBuffer.write_eq h.inv, if_neg hlen]
    split <;> rfl
  | extract data =>
    have hlen : ¬ data.bytes.length ≤ bs.length := by
      rw [h.length]; exact Nat.not_le.2 hr
    rw [step_extract, fill, RingBuffer.read_eq h.inv, if_neg hlen]
    split <;> rfl

/-- An insertion that fits, also of the empty string. -/
theorem put_spec (h : Holds bs q) {data : Item} (hfit : bs.length + data.bytes.length ≤ bs.capacity) :
    Holds (bs.put data.bytes) (q ++ [data]) ∧ (bs.put data.bytes).capacity = bs.capacity := by
  rw [put, RingBuffer.write_eq h.inv, if_pos hfit]
  have hbytes : bytesOf (q ++ [data]) = bytesOf q ++ data.bytes := by simp [bytesOf]
  split
  · have hnil : data.bytes = [] := List.length_eq_zero_iff.1 ‹_›
    refine ⟨⟨h.inv, ?_⟩, rfl⟩
    rw [hbytes, hnil, List.append_nil]; exact h.content
  · refine ⟨⟨h.inv.append hfit, ?_⟩, RingBuffer.capacity_append _ _⟩
    rw [hbytes, RingBuffer.append_content h.inv hfit, h.content]

/-- An extraction into an operand of the oldest item's size. -/
theorem fill_spec {i : Item} (h : Holds bs (i :: q)) {data : List UInt8}
    (hsize : i.bytes.length = data.length) :
    (bs.fill data).1 = i.bytes ∧ Holds (bs.fill data).2 q ∧ (bs.fill data).2.capacity = bs.capacity := by
  have hbytes : bytesOf (i :: q) = i.bytes ++ bytesOf q := by simp [bytesOf]
  have hle : data.length ≤ bs.length := by rw [h.length, hbytes, List.length_append]; omega
  unfold fill
  simp only [RingBuffer.read_eq h.inv, if_pos hle]
  split
  · have hnil : data = [] := List.length_eq_zero_iff.1 ‹_›
    subst hnil
    have hi : i.bytes = [] := List.length_eq_zero_iff.1 hsize
    refine ⟨hi.symm, ⟨h.inv, ?_⟩, rfl⟩
    rw [h.content, hbytes, hi, List.nil_append]
  · have htake : bs.content.take data.length = i.bytes := by
      rw [h.content, hbytes, ← hsize, List.take_left]
    refine ⟨?_, ⟨h.inv.dropFront hle, ?_⟩, rfl⟩
    · rw [htake, hsize, List.drop_length, List.append_nil]
    · rw [RingBuffer.dropFront_content hle, h.content, hbytes, ← hsize, List.drop_left]

/-- One operator does to the stream what it does to the queue. -/
theorem step_spec (h : Holds bs q) {op : Op} (hop : op.Refused bs.capacity q ∨ op.Matches q) :
    (bs.step op).1 = (queueStep bs.capacity q op).1 ∧ Holds (bs.step op).2 (queueStep bs.capacity q op).2 ∧
      (bs.step op).2.capacity = bs.capacity := by
  by_cases hr : op.Refused bs.capacity q
  · rw [queueStep_refused hr, step_refused h hr]
    exact ⟨rfl, h, rfl⟩
  unfold queueStep
  rw [if_neg hr]
  cases op with
  | insert data =>
    rw [step_insert]
    have hfit : bs.length + data.bytes.length ≤ bs.capacity := by rw [h.length]; exact Nat.not_lt.1 hr
    exact ⟨rfl, put_spec h hfit⟩
  | extract data =>
    obtain ⟨i, rest, rfl, -, hsize⟩ := hop.resolve_left hr
    rw [step_extract]
    exact fill_spec h hsize

theorem run_spec {c : Nat} (ops : List Op) :
    ∀ (bs : ByteStream) (q : List Item), Holds bs q → bs.capacity = c → Matched c q ops →
      (runOut step bs ops).1 = (runOut (queueStep c) q ops).1 ∧
        Holds (runOut step bs ops).2 (runOut (queueStep c) q ops).2 ∧
        (runOut step bs ops).2.capacity = c := by
  induction ops with
  | nil => exact fun bs q h hc _ => ⟨rfl, h, hc⟩
  | cons op ops ih =>
    rintro bs q h rfl ⟨hop, hops⟩
    obtain ⟨hout, h', hc'⟩ := step_spec h hop
    obtain ⟨houts, hrest⟩ := ih _ _ h' hc' hops
    exact ⟨congrArg₂ List.cons hout houts, hrest⟩

/-- A program of matching operators, run on any stream whose bytes are those of the
items `pending`: it behaves as the queue does; where nothing is refused, what comes
out is what went in; and a refused operator leaves its operand and all that follows
as they would be without it. -/
theorem stream_faithful (bs : ByteStream) (hi : bs.Inv) (pending : List Item)
    (hp : bs.content = bytesOf pending) (ops : List Op) (hm : Matched bs.capacity pending ops) :
    let run := runOut step bs ops
    let queue := runOut (queueStep bs.capacity) pending ops
    run.1 = queue.1 ∧ run.2.content = bytesOf queue.2 ∧ run.2.Inv ∧
      (Accepted bs.capacity pending ops →
        extracted ops run.1 ++ queue.2.map Item.bytes = (pending ++ inserted ops).map Item.bytes) ∧
      ∀ op, op.Refused bs.capacity queue.2 → run.2.step op = (op.data.bytes, run.2) ∧
        ∀ later, runOut step run.2 (op :: later) =
          (op.data.bytes :: (runOut step run.2 later).1, (runOut step run.2 later).2) := by
  intro run queue
  obtain ⟨hout, hholds, hcap⟩ := run_spec ops bs pending ⟨hi, hp⟩ rfl hm
  refine ⟨hout, hholds.content, hholds.inv, fun ha => ?_, fun op hr => ?_⟩
  · rw [show run.1 = queue.1 from hout]
    exact queue_fifo ops pending hm ha
  · have hsame : run.2.step op = (op.data.bytes, run.2) := by
      apply step_refused hholds
      rw [hcap]
      exact hr
    refine ⟨hsame, fun later => ?_⟩
    rw [runOut, hsame]

/-- The theorem for a string and a two-byte value that goes round the end of four
bytes, with an insertion too many behind them. -/
theorem stream_faithful_wrapped :
    let bs : ByteStream := (((RingBuffer.ofSize 4 (by decide)).write [0, 0, 0]).2.read 3).2
    let text : Item := ⟨.string, [104, 105], by decide⟩
    let age : Item := ⟨.value, [18, 1], by decide⟩
    let ops : List Op := [.insert text, .insert age, .insert text, .extract ⟨.string, [0, 0], by decide⟩,
      .extract ⟨.value, [7, 7], by decide⟩]
    (runOut step bs ops).1 = [[104, 105], [18, 1], [104, 105], [104, 105], [18, 1]] ∧
      (runOut step bs ops).2.content = [] := by
  intro bs text age ops
  have hi : bs.Inv := by constructor <;> decide
  have hcap : bs.capacity = 4 := by decide
  have hm : Matched bs.capacity [] ops := by
    rw [hcap]
    exact ⟨.inr trivial, .inr trivial, .inl (by decide), .inr ⟨text, [age], rfl, rfl, rfl⟩,
      .inr ⟨age, [], rfl, rfl, rfl⟩, trivial⟩
  obtain ⟨hout, hcontent, -⟩ := stream_faithful bs hi [] rfl ops hm
  rw [hcap] at hout hcontent
  refine ⟨hout.trans ?_, hcontent.trans ?_⟩
  · decide
  · decide

end ByteStream

end NebulaToolkit
