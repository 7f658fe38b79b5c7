import NebulaToolkit.ByteStream
import NebulaToolkit.ElementVectors
/-!
# Vectors in the byte stream

`operator<<` and `operator>>` for a `std::vector<T>` are the vector overloads of
the ring buffer, whose second copy goes astray at the array's end. Whether a
program that mixes values, strings and vectors gets back what it put in is
therefore a matter of where its items lie, which can be told beforehand from
their sizes (`Laid`): where they lie well a vector is a string of its bytes, and
the stream is the queue of items (`vectors_faithful`).
-/

namespace NebulaToolkit.ByteStream

open Lib RingBuffer

/-- `operator<<(const std::vector<T> &data)` -/
def insertVector (bs : ByteStream) (data : ElementVector) : ByteStream := (bs.writeVector data).2

/-- `operator>>(std::vector<T> &data)`, which reads `data.size() * sizeof(T)` bytes; `data` are the
vector's bytes. -/
def extractVector (bs : ByteStream) (elementSize : Nat) (data : List UInt8) : List UInt8 × ByteStream :=
  let r := bs.readVector elementSize data data.length
  (r.1.2, r.2)

inductive VectorOp where
  | plain (op : Op)
  | insert (data : ElementVector)
  | extract (elementSize : Nat) (data : List UInt8) (whole : elementSize ∣ data.length)

/-- One operator: what stands in the operand afterwards, and the stream. -/
def vectorStep (bs : ByteStream) : VectorOp → List UInt8 × ByteStream
  | .plain op => bs.step op
  | .insert data => (data.bytes, bs.insertVector data)
  | .extract elementSize data _ => bs.extractVector elementSize data

/-! ## Where the items lie -/

/-- A string of these bytes. -/
def text (bytes : List UInt8) : Item := ⟨.string, bytes, fun h => by cases h⟩

/-- The operator with a string in place of a vector. -/
def VectorOp.asText : VectorOp → Op
  | .plain op => op
  | .insert data => .insert (text data.bytes)
  | .extract _ data _ => .extract (text data)

/-- A vector that does not go round the array's end, or has elements that can. -/
def VectorOp.Straight (capacity writeIndex readIndex : Nat) : VectorOp → Prop
  | .plain _ => True
  | .insert data => data.elementSize = 1 ∨ writeIndex + data.size * data.elementSize ≤ capacity
  | .extract elementSize data _ => readIndex + data.length ≤ capacity ∨ elementSize ∣ capacity - readIndex

/-- Where the next item will be written and where the oldest begins, after an operator that is not refused. -/
def Op.past (capacity : Nat) (ends : Nat × Nat) : Op → Nat × Nat
  | .insert data => ((ends.1 + data.bytes.length) % capacity, ends.2)
  | .extract data => (ends.1, (ends.2 + data.bytes.length) % capacity)

/-- A program whose vectors, as far as they are not refused, are straight. -/
def Laid (capacity : Nat) : Nat × Nat → List Item → List VectorOp → Prop
  | _, _, [] => True
  | ends, q, op :: ops => (op.asText.Refused capacity q ∨ op.Straight capacity ends.1 ends.2) ∧
      Laid capacity (if op.asText.Refused capacity q then ends else op.asText.past capacity ends)
        (queueStep capacity q op.asText).2 ops

/-- The operator copies no byte from outside its vector, and puts none in a wrong place of it. -/
def VectorOp.Sound (bs : ByteStream) : VectorOp → Prop
  | .plain _ => True
  | .insert data => ∀ src ∈ (bs.writeVector data).1.2, src.1 + src.2 ≤ data.size * data.elementSize
  | .extract elementSize data _ => ∀ w : List UInt8, w.length = data.length →
      (bs.extractVector elementSize w).1 = (bs.fill w).1

/-- A program all operators of which are. -/
def Safe : ByteStream → List VectorOp → Prop
  | _, [] => True
  | bs, op :: ops => op.Sound bs ∧ Safe (bs.vectorStep op).2 ops

/-! ## One operator -/

variable {bs : ByteStream} {q : List Item}

/-- Where the ring has its indices. -/
def ends (bs : ByteStream) : Nat × Nat := (bs.writeIndex, bs.readIndex)

theorem step_ends (h : Holds bs q) (op : Op) :
    (bs.step op).2.ends = if op.Refused bs.capacity q then bs.ends else op.past bs.capacity bs.ends := by
  by_cases hr : op.Refused bs.capacity q
  · rw [step_refused h hr, if_pos hr]
  rw [if_neg hr]
  have hw := Nat.mod_eq_of_lt h.inv.write_lt
  have hread := Nat.mod_eq_of_lt h.inv.read_lt
  cases op with
  | insert data =>
    have hfit : bs.length + data.bytes.length ≤ bs.capacity := by rw [h.length]; exact Nat.not_lt.1 hr
    rw [step_insert, put, write_eq h.inv, if_pos hfit]
    by_cases h0 : data.bytes.length = 0
    · rw [if_pos h0]
      simp only [ends, Op.past, h0, Nat.add_zero, hw]
    · rw [if_neg h0]
      simp [ends, Op.past, append, growBack, capacity]
  | extract data =>
    have hfit : data.bytes.length ≤ bs.length := by rw [h.length]; exact Nat.not_lt.1 hr
    rw [step_extract]
    unfold fill
    simp only [read_eq h.inv, if_pos hfit]
    by_cases h0 : data.bytes.length = 0
    · rw [if_pos h0]
      simp only [ends, Op.past, h0, Nat.add_zero, hread]
    · rw [if_neg h0]
      rfl

theorem refused_insert (h : Holds bs q) (data : ElementVector) :
    (VectorOp.insert data).asText.Refused bs.capacity q ↔
    bs.capacity < bs.length + data.size * data.elementSize := by
  rw [h.length, ← data.bytes_length]
  rfl

theorem refused_extract (h : Holds bs q) {s : Nat} {data : List UInt8} (hs : s ∣ data.length) :
    (VectorOp.extract s data hs).asText.Refused bs.capacity q ↔ bs.length < data.length := by
  rw [h.length]
  rfl

/-- A vector that is written in one part, or byte by byte, is a string. -/
theorem insertVector_eq (hi : bs.Inv) {data : ElementVector}
    (h : bs.capacity < bs.length + data.size * data.elementSize ∨
    data.elementSize = 1 ∨ bs.writeIndex + data.size * data.elementSize ≤ bs.capacity) :
    bs.insertVector data = bs.put data.bytes ∧ (VectorOp.insert data).Sound bs := by
  unfold insertVector put
  by_cases href : data.size = 0 ∨ bs.capacity < bs.length + data.size * data.elementSize
  · obtain ⟨-, hsrc, hrb, hrb'⟩ := writeVector_refused hi data href
    refine ⟨hrb.trans hrb'.symm, fun src hs => ?_⟩
    rw [hsrc] at hs
    cases hs
  · obtain ⟨h0, hfit⟩ := not_or.1 href
    rw [Nat.not_lt] at hfit
    have hne : data.size * data.elementSize ≠ 0 := Nat.mul_ne_zero h0 (Nat.ne_of_gt data.elementSize_pos)
    obtain ⟨hring, hsrc⟩ := copyInVector_eq hi data (h.resolve_left (Nat.not_lt.2 hfit))
    have haccepted := writeVector_accepted hi data h0 hfit
    refine ⟨?_, fun src hs => hsrc src (by rwa [haccepted] at hs)⟩
    rw [haccepted]
    simp only [write, data.bytes_length, hi.availableToWrite_eq]
    rw [if_neg hne, if_neg (by omega), hring]

theorem insert_sound_iff (hi : bs.Inv) (data : ElementVector) : (VectorOp.insert data).Sound bs ↔
    bs.capacity < bs.length + data.size * data.elementSize ∨
      data.elementSize = 1 ∨ bs.writeIndex + data.size * data.elementSize ≤ bs.capacity := by
  refine ⟨fun hs => ?_, fun h => (insertVector_eq hi h).2⟩
  by_contra hno
  obtain ⟨hfit, h1, hround⟩ := not_or.1 hno |>.imp_right not_or.1
  have hw := hi.write_lt
  have h0 : data.size ≠ 0 := fun h0 => hround (by rw [h0]; omega)
  obtain ⟨src, hsrc, hlt⟩ := copyInVector_outside hi data h1 (Nat.not_le.1 hround)
  refine absurd (hs src ?_) (Nat.not_le.2 hlt)
  rwa [writeVector_accepted hi data h0 (Nat.not_lt.1 hfit)]

/-- The ring after a vector was read is the one after its bytes were. -/
theorem extractVector_eq (hi : bs.Inv) {s : Nat} {data : List UInt8} (hs : s ∣ data.length) :
    (bs.extractVector s data).2 = (bs.fill data).2 ∧
    (bs.length < data.length → (bs.extractVector s data).1 = (bs.fill data).1) ∧
      (data.length ≤ bs.length → (bs.extractVector s data).1 = bs.copyOutVector s data data.length ∧
        (bs.fill data).1 = bs.content.take data.length) := by
  have hmod : ¬ data.length % s ≠ 0 := not_not.2 (Nat.mod_eq_zero_of_dvd hs)
  unfold extractVector fill readVector RingBuffer.read availableToRead
  by_cases h0 : data.length = 0
  · have hnil := List.length_eq_zero_iff.1 h0
    subst hnil
    have hcopy : bs.copyOutVector s [] 0 = [] := List.eq_nil_of_length_eq_zero (by simp [copyOutVector])
    refine ⟨by simp, fun _ => by simp, fun _ => ?_⟩
    simp [hcopy]
  by_cases hl : data.length > bs.length
  · simp only [if_neg h0, if_neg hmod, lt_irrefl, if_false, if_pos hl]
    exact ⟨trivial, fun _ => by simp, fun h => absurd h (Nat.not_le.2 hl)⟩
  · have hle := Nat.not_lt.1 hl
    have hlen : (bs.copyOut data.length).length = data.length := by
      rw [copyOut_eq hi hle, List.length_take, content_length, Nat.min_eq_left hle]
    simp only [if_neg h0, if_neg hmod, lt_irrefl, if_false, if_neg hl]
    refine ⟨trivial, fun h => absurd h hl, fun _ => ⟨trivial, ?_⟩⟩
    rw [hlen, List.drop_length, List.append_nil, copyOut_eq hi hle]

theorem extract_sound_iff (hi : bs.Inv) {s : Nat} {data : List UInt8} (hs : s ∣ data.length) :
    (VectorOp.extract s data hs).Sound bs ↔
    bs.length < data.length ∨ bs.readIndex + data.length ≤ bs.capacity ∨ s ∣ bs.capacity - bs.readIndex := by
  have hr := hi.read_lt
  by_cases hl : bs.length < data.length
  · refine iff_of_true (fun w hw => ?_) (.inl hl)
    exact (extractVector_eq hi (hw ▸ hs)).2.1 (hw ▸ hl)
  rw [or_iff_right hl]
  have hle := Nat.not_lt.1 hl
  -- For a vector of this size, by its bytes before.
  have hcopies (w : List UInt8) (hw : w.length = data.length) : (bs.extractVector s w).1 = (bs.fill w).1 ↔
      data.length ≤ bs.capacity - bs.readIndex ∨ bs.SeamHidden s w data.length := by
    obtain ⟨hextract, hfill⟩ := (extractVector_eq hi (hw ▸ hs : s ∣ w.length)).2.2 (hw ▸ hle)
    have hcopy := copyOutVector_iff (s := s) hi (Nat.le_of_eq hw.symm) hle
    rw [← hw, List.drop_length, List.append_nil] at hcopy
    rw [hextract, hfill, hcopy, hw]
  constructor
  · intro hsound
    by_contra hno
    obtain ⟨hround, hd⟩ := not_or.1 hno
    obtain ⟨w, hw, hshow⟩ := SeamHidden.exists_not (v := data) hd (by omega) hle (Nat.le_refl _)
    rcases (hcopies w hw).1 (hsound w hw) with h | h
    · omega
    · exact hshow h
  · intro h w hw
    refine (hcopies w hw).2 ?_
    rcases h with h | h
    · exact .inl (by omega)
    · exact .inr (.of_dvd h)

/-- An operator is sound just when it is refused or straight, ... -/
theorem sound_iff (h : Holds bs q) (op : VectorOp) :
    op.Sound bs ↔ op.asText.Refused bs.capacity q ∨ op.Straight bs.capacity bs.ends.1 bs.ends.2 := by
  cases op with
  | plain op => exact iff_of_true trivial (.inr trivial)
  | insert data => rw [refused_insert h]; exact insert_sound_iff h.inv data
  | extract s data hs => rw [refused_extract h]; exact extract_sound_iff h.inv hs

/-- ... and then its vector is a string. -/
theorem vectorStep_eq (h : Holds bs q) {op : VectorOp}
    (hop : op.asText.Refused bs.capacity q ∨ op.Straight bs.capacity bs.ends.1 bs.ends.2) :
    bs.vectorStep op = bs.step op.asText := by
  cases op with
  | plain op => rfl
  | insert data =>
    rw [refused_insert h] at hop
    exact congrArg (Prod.mk data.bytes) (insertVector_eq h.inv hop).1
  | extract s data hs =>
    have hsound := (sound_iff h (.extract s data hs)).2 hop
    exact Prod.ext (hsound data rfl) (extractVector_eq h.inv hs).1

/-! ## Programs -/

theorem laid_run {c : Nat} (ops : List VectorOp) :
    ∀ (bs : ByteStream) (q : List Item), Holds bs q → bs.capacity = c →
      Matched c q (ops.map VectorOp.asText) → (Safe bs ops ↔ Laid c bs.ends q ops) ∧
      (Laid c bs.ends q ops → runOut vectorStep bs ops = runOut step bs (ops.map VectorOp.asText)) := by
  induction ops with
  | nil => exact fun _ _ _ _ _ => ⟨Iff.rfl, fun _ => rfl⟩
  | cons op ops ih =>
    rintro bs q h rfl ⟨hop, hops⟩
    obtain ⟨-, h', hc'⟩ := step_spec h hop
    obtain ⟨hsafe, hsame⟩ := ih _ _ h' hc' hops
    rw [step_ends h op.asText] at hsafe hsame
    have hhead := sound_iff h op
    refine ⟨⟨fun hs => ?_, fun hl => ?_⟩, fun hl => ?_⟩
    · have hlaid := hhead.1 hs.1
      have hrest := hs.2
      rw [vectorStep_eq h hlaid] at hrest
      exact ⟨hlaid, hsafe.1 hrest⟩
    · refine ⟨hhead.2 hl.1, ?_⟩
      rw [vectorStep_eq h hl.1]
      exact hsafe.2 hl.2
    · rw [List.map_cons, runOut, runOut, vectorStep_eq h hl.1, hsame hl.2]

/-- Items of one size that divides the capacity never go round the array's end. -/
theorem uniform_laid {c n : Nat} (hc : n ∣ c) {ops : List VectorOp} :
    ∀ (w r : Nat) (q : List Item), n ∣ w → w < c → n ∣ r → r < c →
    (∀ op ∈ ops, op.asText.data.bytes.length = n) → Laid c (w, r) q ops := by
  induction ops with
  | nil => exact fun _ _ _ _ _ _ _ _ => trivial
  | cons op ops ih =>
    intro w r q hw hwc hr hrc hsize
    have hop := hsize op (by simp)
    have hrest : ∀ op ∈ ops, op.asText.data.bytes.length = n := fun op hm => hsize op (by simp [hm])
    have hround {x : Nat} (hx : n ∣ x) : n ∣ (x + n) % c :=
      (Nat.dvd_mod_iff hc).2 (Nat.dvd_add hx (Nat.dvd_refl n))
    have hroom {x : Nat} (hx : n ∣ x) (hlt : x < c) : x + n ≤ c :=
      Nat.le_of_lt_add_of_dvd (Nat.add_lt_add_right hlt n) (Nat.dvd_add hx (Nat.dvd_refl n)) hc
    refine ⟨.inr ?_, ?_⟩
    · cases op with
      | plain op => trivial
      | insert data => exact .inr (by rw [← data.bytes_length]; exact hop ▸ hroom hw hwc)
      | extract s data hs => exact .inl (hop ▸ hroom hr hrc)
    · have hpos := Nat.zero_lt_of_lt hwc
      split
      · exact ih w r _ hw hwc hr hrc hrest
      · cases h : op.asText with
        | insert data =>
          rw [h] at hop
          exact ih _ r _ (hop ▸ hround hw) (Nat.mod_lt _ hpos) hr hrc hrest
        | extract data =>
          rw [h] at hop
          exact ih w _ _ hw hwc (hop ▸ hround hr) (Nat.mod_lt _ hpos) hrest

/-- A program of values, strings and vectors whose extractions match, run on any stream whose
bytes are those of the items `pending`. No operator copies from outside its vector or into a
wrong place of it if and only if they are laid well, which the sizes alone decide; and then it
behaves as the queue of items does, and what comes out is what went in. Items of one
size that divides the capacity and both indices always are. -/
theorem vectors_faithful (bs : ByteStream) (hi : bs.Inv) (pending : List Item)
    (hp : bs.content = bytesOf pending) (ops : List VectorOp)
    (hm : Matched bs.capacity pending (ops.map VectorOp.asText)) :
    let run := runOut vectorStep bs ops
    let queue := runOut (queueStep bs.capacity) pending (ops.map VectorOp.asText)
    (Safe bs ops ↔ Laid bs.capacity (bs.writeIndex, bs.readIndex) pending ops) ∧
      (Laid bs.capacity (bs.writeIndex, bs.readIndex) pending ops →
        run.1 = queue.1 ∧ run.2.content = bytesOf queue.2 ∧ run.2.Inv ∧
        (Accepted bs.capacity pending (ops.map VectorOp.asText) →
          extracted (ops.map VectorOp.asText) run.1 ++ queue.2.map Item.bytes =
            (pending ++ inserted (ops.map VectorOp.asText)).map Item.bytes)) ∧
      ∀ n, n ∣ bs.capacity → n ∣ bs.writeIndex → n ∣ bs.readIndex →
      (∀ op ∈ ops, op.asText.data.bytes.length = n) →
        Laid bs.capacity (bs.writeIndex, bs.readIndex) pending ops := by
  intro run queue
  obtain ⟨hsafe, hsame⟩ := laid_run ops bs pending ⟨hi, hp⟩ rfl hm
  refine ⟨hsafe, fun hl => ?_, fun n hc hw hr => uniform_laid hc _ _ _ hw hi.write_lt hr hi.read_lt⟩
  obtain ⟨hout, hholds, -⟩ := run_spec (ops.map VectorOp.asText) bs pending ⟨hi, hp⟩ rfl hm
  have hrun : run = runOut step bs (ops.map VectorOp.asText) := hsame hl
  rw [hrun]
  refine ⟨hout, hholds.content, hholds.inv, fun ha => ?_⟩
  rw [hout]
  exact queue_fifo _ pending hm ha

/-- The theorem for two vectors of two-byte elements and a string between them, in a stream of six bytes. -/
theorem vectors_faithful_two :
    let bs : ByteStream := RingBuffer.ofSize 6 (by decide)
    let pair (a b : UInt8) : ElementVector :=
      { elementSize := 2, size := 1, memory := fun i => if i = 0 then a else b,
        elementSize_pos := by decide, size_le := by decide }
    let ops : List VectorOp := [.insert (pair 1 2), .plain (.insert (text [9, 9])), .insert (pair 3 4),
      .extract 2 [0, 0] (by decide), .plain (.extract (text [7, 7])), .extract 2 [0, 0] (by decide)]
    (runOut vectorStep bs ops).1 = [[1, 2], [9, 9], [3, 4], [1, 2], [9, 9], [3, 4]] ∧
      (runOut vectorStep bs ops).2.content = [] ∧
      Safe bs ops := by
  intro bs pair ops
  have hi : bs.Inv := RingBuffer.ofSize_inv _ (by decide)
  have hcap : bs.capacity = 6 := by decide
  have hbytes (a b : UInt8) : (pair a b).bytes = [a, b] := rfl
  have hops : ops.map VectorOp.asText = [.insert (text [1, 2]), .insert (text [9, 9]), .insert (text [3, 4]),
      .extract (text [0, 0]), .extract (text [7, 7]), .extract (text [0, 0])] := by
    simp only [ops, List.map_cons, List.map_nil, VectorOp.asText, hbytes]
  have hm : Matched bs.capacity [] (ops.map VectorOp.asText) := by
    rw [hcap, hops]
    exact ⟨.inr trivial, .inr trivial, .inr trivial,
      .inr ⟨text [1, 2], [text [9, 9], text [3, 4]], rfl, rfl, rfl⟩,
      .inr ⟨text [9, 9], [text [3, 4]], rfl, rfl, rfl⟩, .inr ⟨text [3, 4], [], rfl, rfl, rfl⟩, trivial⟩
  obtain ⟨hsafe, hrun, huniform⟩ := vectors_faithful bs hi [] rfl ops hm
  have hl := huniform 2 (by decide) (by decide) (by decide) (by decide)
  obtain ⟨hout, hcontent, -⟩ := hrun hl
  rw [hcap, hops] at hout hcontent
  refine ⟨hout.trans ?_, hcontent.trans ?_, hsafe.2 hl⟩
  · decide
  · decide

end NebulaToolkit.ByteStream
