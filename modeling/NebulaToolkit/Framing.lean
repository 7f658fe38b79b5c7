import NebulaToolkit.FindKey
/-!
# The packet loops

Rules for the loops of `GetPack`, with the fuel hidden: `KeysRun` and `CbRun`
say that a loop comes back, and with what. A loop comes back with one result
only (`KeysRun.unique`, `CbRun.unique`), so a call does too (`Pushes.unique`,
`Gets.unique`).
-/

namespace NebulaToolkit.UnPacker

open Lib

variable {u v u' : UnPacker}

theorem bind_ok {α β : Type} {x : Except Fault α} {f : α → Except Fault β} {b : β} :
    x >>= f = .ok b ↔ ∃ a, x = .ok a ∧ f a = .ok b := by
  cases x <;> simp [bind, Except.bind]

theorem bind_error {α β : Type} {x : Except Fault α} {f : α → Except Fault β} {e : Fault} :
    x >>= f = .error e ↔ x = .error e ∨ ∃ a, x = .ok a ∧ f a = .error e := by
  cases x <;> simp [bind, Except.bind]

/-! ## Copying and committing -/

@[simp] theorem commit_headKey (n : Nat) : (u.commit n).headKey = u.headKey := rfl
@[simp] theorem commit_tailKey (n : Nat) : (u.commit n).tailKey = u.tailKey := rfl
@[simp] theorem writeRing_headKey (bs : List UInt8) : (u.writeRing bs).headKey = u.headKey := rfl

section
variable (hi : u.Inv)
include hi

theorem commit_ring {n : Nat} (hn : n ≤ u.length) :
    (u.commit n).toRingBuffer = u.toRingBuffer.dropFront n := by
  show (u.commitReadSize n).2 = _
  rw [RingBuffer.commitReadSize_eq hi, if_pos hn]

theorem commit_inv (n : Nat) : (u.commit n).Inv := by
  by_cases hn : n ≤ u.length
  · rw [commit_ring hi hn]; exact hi.dropFront hn
  · show (u.commitReadSize n).2.Inv
    rw [RingBuffer.commitReadSize_eq hi, if_neg hn]; exact hi

theorem commit_content {n : Nat} (hn : n ≤ u.length) : (u.commit n).content = u.content.drop n := by
  rw [commit_ring hi hn, RingBuffer.dropFront_content hn]

theorem commit_length {n : Nat} (hn : n ≤ u.length) : (u.commit n).length = u.length - n := by
  rw [commit_ring hi hn]; rfl

omit hi in
@[simp] theorem commit_capacity (n : Nat) : (u.commit n).capacity = u.capacity := by
  show (u.commitReadSize n).2.capacity = _
  unfold RingBuffer.commitReadSize
  split <;> rfl

omit hi in
@[simp] theorem commit_buffer (n : Nat) : (u.commit n).buffer = u.buffer := by
  show (u.commitReadSize n).2.buffer = _
  unfold RingBuffer.commitReadSize
  split <;> rfl

/-- After a commit the cells are counted from further on. -/
theorem commit_cellAt {n : Nat} (hn : n ≤ u.length) (o : Nat) : (u.commit n).cellAt o = u.cellAt (n + o) := by
  have h : (u.commit n).readIndex = (u.readIndex + n) % u.capacity := by rw [commit_ring hi hn]; rfl
  unfold cellAt cell
  rw [commit_capacity, commit_buffer, h, Nat.mod_add_mod, Nat.add_assoc]

theorem commit_readIndex_add {n : Nat} (hn : n ≤ u.length) (o : Nat) :
    ((u.commit n).readIndex + o) % (u.commit n).capacity = (u.readIndex + (n + o)) % u.capacity := by
  have h : (u.commit n).readIndex = (u.readIndex + n) % u.capacity := by rw [commit_ring hi hn]; rfl
  rw [commit_capacity, h, Nat.mod_add_mod, Nat.add_assoc]

theorem commit_zero : u.commit 0 = u := by
  have hr : u.toRingBuffer.dropFront 0 = u.toRingBuffer := by
    apply RingBuffer.ext <;> try rfl
    exact Nat.mod_eq_of_lt hi.read_lt
  show ({ u with toRingBuffer := (u.commitReadSize 0).2 } : UnPacker) = u
  rw [RingBuffer.commitReadSize_eq hi, if_pos (Nat.zero_le _), hr]

theorem commit_commit {a b : Nat} (h : a + b ≤ u.length) : (u.commit a).commit b = u.commit (a + b) := by
  have hr : ((u.commit a).commit b).toRingBuffer = (u.commit (a + b)).toRingBuffer := by
    rw [commit_ring (commit_inv hi a) (by rw [commit_length hi (by omega)]; omega), commit_ring hi (by omega),
      commit_ring hi h]
    apply RingBuffer.ext
    · show ((u.readIndex + a) % u.capacity + b) % u.capacity = (u.readIndex + (a + b)) % u.capacity
      rw [Nat.mod_add_mod, Nat.add_assoc]
    · rfl
    · exact Nat.sub_sub _ _ _
    · rfl
  show ({ u with toRingBuffer := ((u.commit a).commit b).toRingBuffer } : UnPacker) =
    { u with toRingBuffer := (u.commit (a + b)).toRingBuffer }
  rw [hr]

theorem commit_readsAt_add {n : Nat} (hn : n ≤ u.length) (key : List UInt8) (o : Nat) :
    (u.commit n).ReadsAt key o ↔ u.ReadsAt key (n + o) := by
  refine forall₂_congr fun j _ => ?_
  rw [commit_cellAt hi hn, Nat.add_assoc]

/-- What was dropped off the front can be read behind the stored bytes. -/
theorem commit_readsAt {n : Nat} (hn : n ≤ u.length) (key : List UInt8) (o : Nat) :
    (u.commit n).ReadsAt key (u.capacity - n + o) ↔ u.ReadsAt key o := by
  have hl := hi.length_le
  rw [commit_readsAt_add hi hn, show n + (u.capacity - n + o) = u.capacity + o by omega]
  refine forall₂_congr fun j _ => ?_
  rw [cellAt, cellAt, show u.readIndex + (u.capacity + o + j) = u.capacity + (u.readIndex + (o + j)) by omega,
    Nat.add_mod_left]

theorem readsAt_dropped {key : List UInt8} (h0 : key ≠ []) (hocc : OccursAt key u.content 0) {n cur : Nat}
    (hn : n ≤ u.length) (hlt : cur < (u.commit n).length) :
    (u.commit n).ReadsAt key (cur + (u.capacity - n - cur)) := by
  have hl := hi.length_le
  have hb := hocc.bound h0
  rw [RingBuffer.content_length] at hb
  rw [commit_length hi hn] at hlt
  rw [show cur + (u.capacity - n - cur) = u.capacity - n + 0 by omega, commit_readsAt hi hn, readsAt_iff hb]
  exact hocc

theorem writeRing_ring {bs : List UInt8} (hb : u.length + bs.length ≤ u.capacity) (h0 : bs ≠ []) :
    (u.writeRing bs).toRingBuffer = u.toRingBuffer.append bs := by
  show (u.write bs).2 = _
  rw [RingBuffer.write_eq hi, if_neg (by simpa using h0), if_pos hb]

theorem writeRing_inv (bs : List UInt8) : (u.writeRing bs).Inv := by
  show (u.write bs).2.Inv
  rw [RingBuffer.write_eq hi]
  split
  · exact hi
  · split
    · exact hi.append ‹_›
    · exact hi

@[simp] theorem writeRing_capacity (bs : List UInt8) : (u.writeRing bs).capacity = u.capacity := by
  show (u.write bs).2.capacity = _
  rw [RingBuffer.write_eq hi]
  split
  · rfl
  · split
    · exact RingBuffer.capacity_append _ _
    · rfl

theorem writeRing_content {bs : List UInt8} (hb : u.length + bs.length ≤ u.capacity) (h0 : bs ≠ []) :
    (u.writeRing bs).content = u.content ++ bs := by
  rw [writeRing_ring hi hb h0, RingBuffer.append_content hi hb]

/-- A packet is copied cell by cell, stored or dead. -/
theorem copyPacket_cells {o n : Nat} (ho : u.readIndex + o < 2 ^ 64) (hn : n ≤ u.capacity) :
    u.copyPacket o n = .ok (cyc u.buffer (u.readIndex + o) n) := by
  have hc := u.capacity_lt
  have hm : (u.readIndex + o) % u.capacity < u.capacity := Nat.mod_lt _ hi.capacity_pos
  rw [copyPacket, if_neg (by unfold maxSize; omega)]
  simp only [show addSz u.readIndex o = u.readIndex + o from wadd_of_lt ho]
  rw [show subSz u.capacity ((u.readIndex + o) % u.capacity) = _ from
    wsub_of_le (Nat.le_of_lt hm) (by omega), ← cyc_mod]
  show _ = Except.ok (cyc u.buffer ((u.readIndex + o) % u.capacity) n)
  rw [cyc_split (by unfold RingBuffer.capacity at hm; exact hm) (by unfold RingBuffer.capacity at hn; omega)]
  split
  · rw [show subSz n (min n (u.capacity - (u.readIndex + o) % u.capacity)) = _ from
      wsub_of_le (by omega) (by omega), if_neg (by omega)]
    rfl
  · rw [show n - min n (u.buffer.length - (u.readIndex + o) % u.capacity) = 0 by
      unfold RingBuffer.capacity at *; omega]
    simp only [RingBuffer.load, slice, List.take_zero, List.append_nil]
    rfl

/-- One that begins with a stored byte is. -/
theorem copyPacket_cyc {o n : Nat} (ho : o < u.length) (hn : n ≤ u.capacity) :
    u.copyPacket o n = .ok (cyc u.buffer (u.readIndex + o) n) := by
  have hc := u.capacity_lt
  have hl := hi.length_le
  have hr := hi.read_lt
  exact copyPacket_cells hi (by omega) hn

omit hi in
/-- Within the stored bytes these are the bytes that stand there. -/
theorem cyc_stored {o n : Nat} (hn : o + n ≤ u.length) :
    cyc u.buffer (u.readIndex + o) n = (u.content.drop o).take n := by
  rw [RingBuffer.content, drop_cyc _ _ (by omega), take_cyc _ _ (by omega)]

/-- A packet within the stored bytes is copied as it stands there. -/
theorem copyPacket_eq {o n : Nat} (ho : o < u.length) (hn : o + n ≤ u.length) :
    u.copyPacket o n = .ok ((u.content.drop o).take n) := by
  have hl := hi.length_le
  rw [copyPacket_cyc hi ho (by omega), cyc_stored hn]

/-- A packet has the size that was computed for it. -/
theorem copyPacket_length {o n : Nat} {p : List UInt8} (h : u.copyPacket o n = .ok p) : p.length = n := by
  have hC := u.capacity_lt
  have hm : addSz u.readIndex o % u.capacity < u.capacity := Nat.mod_lt _ hi.capacity_pos
  have hend : subSz u.capacity (addSz u.readIndex o % u.capacity) =
      u.capacity - addSz u.readIndex o % u.capacity :=
    wsub_of_le (Nat.le_of_lt hm) (by omega)
  unfold copyPacket at h
  split at h
  · cases h
  rename_i hmax
  simp only [hend] at h
  generalize addSz u.readIndex o % u.capacity = a at *
  unfold maxSize at hmax
  split at h
  · have hrest : subSz n (min n (u.capacity - a)) = n - min n (u.capacity - a) :=
      wsub_of_le (by omega) (by omega)
    rw [hrest] at h
    split at h
    · cases h
    cases h
    unfold RingBuffer.capacity at *
    simp only [RingBuffer.load, slice, List.length_append, List.length_take, List.length_drop]
    omega
  · cases h
    unfold RingBuffer.capacity at *
    simp only [RingBuffer.load, slice, List.length_take, List.length_drop]
    omega

omit hi in
theorem copyPacket_le {o n : Nat} {p : List UInt8} (h : u.copyPacket o n = .ok p) : n ≤ maxSize := by
  by_contra hn
  rw [copyPacket, if_pos (Nat.not_le.1 hn)] at h
  cases h

/-- More than there is is not committed. -/
theorem commit_too_much {n : Nat} (hn : ¬ n ≤ u.length) : u.commit n = u := by
  show ({ u with toRingBuffer := (u.commitReadSize n).2 } : UnPacker) = u
  rw [RingBuffer.commitReadSize_eq hi, if_neg hn]

theorem commit_length_le (n : Nat) : (u.commit n).length ≤ u.length := by
  by_cases hn : n ≤ u.length
  · rw [commit_length hi hn]
    exact Nat.sub_le _ _
  · rw [commit_too_much hi hn]

/-- What is committed is dropped off the front, if there is as much. -/
theorem commit_length_ge (n : Nat) : u.length ≤ (u.commit n).length + n := by
  by_cases hn : n ≤ u.length
  · rw [commit_length hi hn]
    omega
  · rw [commit_too_much hi hn]
    exact Nat.le_add_right _ _

end

/-! ## The loop without callbacks -/

/-- The loop comes back with `r`. -/
def KeysRun (endKey : List UInt8) (extra : Nat) (u : UnPacker) (currentPos totalSize : Nat)
    (readData : List (List UInt8)) (r : List (List UInt8) × UnPacker) : Prop :=
  ∃ fuel, processKeys endKey extra fuel u currentPos totalSize readData = .ok r

section
variable {endKey : List UInt8} {extra cur total o e : Nat} {rd : List (List UInt8)}
    {r r' : List (List UInt8) × UnPacker}

theorem KeysRun.done (h : total ≤ cur) : KeysRun endKey extra u cur total rd (rd, u) :=
  ⟨1, by rw [processKeys, if_neg (by omega)]; rfl⟩

theorem KeysRun.noHead (hh : u.findKey u.headKey cur = .ok u.capacity) :
    KeysRun endKey extra u cur total rd (rd, u) := by
  refine ⟨1, ?_⟩
  rw [processKeys]
  split
  · rw [hh]; simp only [bind, Except.bind, if_true]; rfl
  · rfl

theorem KeysRun.noEnd (hh : u.findKey u.headKey cur = .ok o)
    (he : u.findKey endKey (addSz o u.headKey.length) = .ok u.capacity) :
    KeysRun endKey extra u cur total rd (rd, u) := by
  refine ⟨1, ?_⟩
  rw [processKeys]
  split
  · rw [hh]
    simp only [bind, Except.bind]
    split
    · rfl
    · rw [he]; simp only [if_true]; rfl
  · rfl

theorem KeysRun.packet {p : List UInt8} (hlt : cur < total) (hh : u.findKey u.headKey cur = .ok o)
    (ho : o ≠ u.capacity) (he : u.findKey endKey (addSz o u.headKey.length) = .ok e) (hne : e ≠ u.capacity)
    (hp : u.copyPacket o (subSz (addSz e extra) o) = .ok p)
    (h : KeysRun endKey extra (u.commit (subSz (addSz e extra) o)) (addSz e extra) total (rd ++ [p]) r) :
    KeysRun endKey extra u cur total rd r := by
  obtain ⟨fuel, h⟩ := h
  refine ⟨fuel + 1, ?_⟩
  rw [processKeys, if_pos hlt, hh]
  simp only [bind, Except.bind, if_neg ho, he, if_neg hne, hp, h]

/-- Without an end key behind a stored head the loop stops. -/
theorem KeysRun.stop (hh : u.findKey u.headKey cur = .ok o) (ho : o + u.headKey.length < 2 ^ 64)
    (he : u.findKey endKey (o + u.headKey.length) = .ok u.capacity) :
    KeysRun endKey extra u cur total rd (rd, u) :=
  KeysRun.noEnd hh (by rw [show addSz o u.headKey.length = _ from wadd_of_lt ho]; exact he)

/-- With a head and an end key among the stored bytes, the bytes from one to the
other are handed out, and as many are dropped off the front. -/
theorem KeysRun.take (hi : u.Inv) (hlt : cur < total) (hh : u.findKey u.headKey cur = .ok o)
    (he : u.findKey endKey (o + u.headKey.length) = .ok e) (hoe : o + u.headKey.length ≤ e)
    (hel : e < u.length) (hn : e + extra ≤ u.length)
    (h : KeysRun endKey extra (u.commit (e + extra - o)) (e + extra) total
      (rd ++ [(u.content.drop o).take (e + extra - o)]) r) : KeysRun endKey extra u cur total rd r := by
  have hl := hi.length_le
  have hC := u.capacity_lt
  have hend : addSz e extra = e + extra := wadd_of_lt (by omega)
  have hsize : subSz (addSz e extra) o = e + extra - o := by rw [hend]; exact wsub_of_le (by omega) (by omega)
  have hcopy := copyPacket_eq hi (o := o) (n := e + extra - o) (by omega) (by omega)
  have he' : u.findKey endKey (addSz o u.headKey.length) = .ok e := by
    rw [show addSz o u.headKey.length = _ from wadd_of_lt (by omega)]; exact he
  exact KeysRun.packet hlt hh (by omega) he' (by omega) (by rw [hsize]; exact hcopy)
    (by rw [hsize, hend]; exact h)

/-- All that an iteration of a loop that comes back can have done. -/
theorem processKeys_cases {fuel : Nat} (h : processKeys endKey extra (fuel + 1) u cur total rd = .ok r) :
    r = (rd, u) ∧
    (total ≤ cur ∨ u.findKey u.headKey cur = .ok u.capacity ∨ ∃ o, u.findKey u.headKey cur = .ok o ∧
      o ≠ u.capacity ∧ u.findKey endKey (addSz o u.headKey.length) = .ok u.capacity) ∨
    ∃ o e p, cur < total ∧ u.findKey u.headKey cur = .ok o ∧ o ≠ u.capacity ∧
      u.findKey endKey (addSz o u.headKey.length) = .ok e ∧ e ≠ u.capacity ∧
      u.copyPacket o (subSz (addSz e extra) o) = .ok p ∧
      processKeys endKey extra fuel (u.commit (subSz (addSz e extra) o)) (addSz e extra) total
      (rd ++ [p]) = .ok r := by
  rw [processKeys] at h
  split at h
  · obtain ⟨o, hh, h⟩ := bind_ok.1 h
    by_cases ho : o = u.capacity
    · rw [if_pos ho] at h
      cases h
      exact .inl ⟨rfl, .inr (.inl (ho ▸ hh))⟩
    rw [if_neg ho] at h
    obtain ⟨e, he, h⟩ := bind_ok.1 h
    by_cases hne : e = u.capacity
    · rw [if_pos hne] at h
      cases h
      exact .inl ⟨rfl, .inr (.inr ⟨o, hh, ho, hne ▸ he⟩)⟩
    rw [if_neg hne] at h
    obtain ⟨p, hp, h⟩ := bind_ok.1 h
    exact .inr ⟨o, e, p, ‹_›, hh, ho, he, hne, hp, h⟩
  · cases h
    exact .inl ⟨rfl, .inl (Nat.not_lt.1 ‹_›)⟩

theorem KeysRun.cases (h : KeysRun endKey extra u cur total rd r) :
    r = (rd, u) ∧
    (total ≤ cur ∨ u.findKey u.headKey cur = .ok u.capacity ∨ ∃ o, u.findKey u.headKey cur = .ok o ∧
      o ≠ u.capacity ∧ u.findKey endKey (addSz o u.headKey.length) = .ok u.capacity) ∨
    ∃ o e p, cur < total ∧ u.findKey u.headKey cur = .ok o ∧ o ≠ u.capacity ∧
      u.findKey endKey (addSz o u.headKey.length) = .ok e ∧ e ≠ u.capacity ∧
      u.copyPacket o (subSz (addSz e extra) o) = .ok p ∧
      KeysRun endKey extra (u.commit (subSz (addSz e extra) o)) (addSz e extra) total (rd ++ [p]) r := by
  obtain ⟨_ | fuel, h⟩ := h
  · cases h
  · refine (processKeys_cases h).imp_right ?_
    rintro ⟨o, e, p, hlt, hh, ho, he, hne, hp, h⟩
    exact ⟨o, e, p, hlt, hh, ho, he, hne, hp, fuel, h⟩

/-- Packets are only added. -/
theorem KeysRun.adds (h : KeysRun endKey extra u cur total rd r) : rd <+: r.1 := by
  obtain ⟨fuel, h⟩ := h
  induction fuel generalizing u cur rd with
  | zero => cases h
  | succ fuel ih =>
    rcases processKeys_cases h with ⟨rfl, -⟩ | ⟨o, e, p, -, -, -, -, -, -, h⟩
    · exact List.prefix_rfl
    · exact (List.prefix_append _ _).trans (ih h)

theorem processKeys_mono {fuel m : Nat} (h : processKeys endKey extra fuel u cur total rd = .ok r) :
    processKeys endKey extra (fuel + m) u cur total rd = .ok r := by
  induction fuel generalizing u cur rd with
  | zero => cases h
  | succ fuel ih =>
    rw [show fuel + 1 + m = fuel + m + 1 by omega]
    rw [processKeys] at h ⊢
    split at h
    · rename_i hlt
      rw [if_pos hlt]
      obtain ⟨o, hh, h⟩ := bind_ok.1 h
      refine bind_ok.2 ⟨o, hh, ?_⟩
      split at h
      · rwa [if_pos ‹_›]
      rw [if_neg ‹_›]
      obtain ⟨e, he, h⟩ := bind_ok.1 h
      refine bind_ok.2 ⟨e, he, ?_⟩
      split at h
      · rwa [if_pos ‹_›]
      rw [if_neg ‹_›]
      obtain ⟨p, hp, h⟩ := bind_ok.1 h
      exact bind_ok.2 ⟨p, hp, ih h⟩
    · rwa [if_neg ‹_›]

theorem KeysRun.unique (h : KeysRun endKey extra u cur total rd r)
    (h' : KeysRun endKey extra u cur total rd r') :
    r = r' := by
  obtain ⟨f, h⟩ := h
  obtain ⟨f', h'⟩ := h'
  have h₁ := processKeys_mono (m := f') h
  have h₂ := processKeys_mono (m := f) h'
  rw [Nat.add_comm] at h₂
  rw [h₁] at h₂
  exact Except.ok.inj h₂

end

/-! ## The loop with callbacks -/

/-- `head_size + data_size + tail_size` -/
def packetSize (s : Sizes) : Nat := addSz (addSz s.headSize.toNat s.dataSize.toNat) s.tailSize.toNat

/-- What the size callback reports for a head at offset `o`. -/
def sizesAt (u : UnPacker) (dc : DataSzCb) (o : Nat) : Sizes :=
  dc (u.buffer.drop (addSz u.readIndex o % u.capacity))

theorem commit_sizesAt (hi : u.Inv) (dc : DataSzCb) {n o : Nat} (h : n + o ≤ u.length) :
    (u.commit n).sizesAt dc o = u.sizesAt dc (n + o) := by
  have hl := hi.length_le
  have hr' := (commit_inv hi n).read_lt
  rw [commit_capacity] at hr'
  have h1 : addSz (u.commit n).readIndex o = (u.commit n).readIndex + o :=
    u.addSz_eq (Nat.le_of_lt hr') (by omega)
  rw [sizesAt, sizesAt, h1, u.addSz_eq (Nat.le_of_lt hi.read_lt) (by omega),
    commit_readIndex_add hi (by omega), commit_buffer]

/-- `expected_tail_offset` -/
def tailAt (s : Sizes) (o : Nat) : Nat := addSz (addSz o s.headSize.toNat) s.dataSize.toNat

theorem packetSize_eq {s : Sizes} (h : s.headSize.toNat + s.dataSize.toNat + s.tailSize.toNat < 2 ^ 64) :
    packetSize s = s.headSize.toNat + s.dataSize.toNat + s.tailSize.toNat := by
  rw [packetSize, show addSz s.headSize.toNat s.dataSize.toNat = _ from wadd_of_lt (by omega)]
  exact wadd_of_lt h

theorem tailAt_eq {s : Sizes} {o : Nat} (h : o + s.headSize.toNat + s.dataSize.toNat < 2 ^ 64) :
    tailAt s o = o + s.headSize.toNat + s.dataSize.toNat := by
  rw [tailAt, show addSz o s.headSize.toNat = _ from wadd_of_lt (by omega)]
  exact wadd_of_lt h

/-- The check of the reported sizes. -/
def SizesFit (u : UnPacker) (s : Sizes) (o total : Nat) : Prop :=
  u.headKey.length ≤ s.headSize.toNat ∧ u.tailKey.length ≤ s.tailSize.toNat ∧ addSz o (packetSize s) ≤ total

instance (u : UnPacker) (s : Sizes) (o total : Nat) : Decidable (SizesFit u s o total) :=
  inferInstanceAs (Decidable (_ ∧ _ ∧ _))

/-- Sizes that fit without wrapping end within the bytes the loop counts up to. -/
theorem SizesFit.le_total {s : Sizes} {o total : Nat} (hs : SizesFit u s o total) (hw : o + s.sum < 2 ^ 64) :
    o + s.sum ≤ total := by
  unfold Sizes.sum at *
  have hfit := hs.2.2
  rw [packetSize_eq (by omega), show addSz o _ = o + _ from wadd_of_lt (by omega)] at hfit
  omega

/-- The loop comes back with `r`. -/
def CbRun (dc : DataSzCb) (cc : Option CheckValidCb) (u : UnPacker) (currentPos totalSize : Nat)
    (readData : List (List UInt8)) (r : List (List UInt8) × UnPacker) : Prop :=
  ∃ fuel, processCb dc cc fuel u currentPos totalSize readData = .ok r

section
variable {dc : DataSzCb} {cc : Option CheckValidCb} {cur total o : Nat} {rd : List (List UInt8)}
  {r r' : List (List UInt8) × UnPacker}

theorem CbRun.done (h : total ≤ cur) : CbRun dc cc u cur total rd (rd, u) :=
  ⟨1, by rw [processCb, if_neg (by omega)]; rfl⟩

theorem CbRun.noHead (hh : u.findKey u.headKey cur = .ok u.capacity) :
    CbRun dc cc u cur total rd (rd, u) := by
  refine ⟨1, ?_⟩
  rw [processCb]
  split
  · rw [hh]; simp only [bind, Except.bind, if_true]; rfl
  · rfl

/-- One iteration of the loop, once a head was found. -/
theorem processCb_head {fuel : Nat} (hlt : cur < total) (hh : u.findKey u.headKey cur = .ok o)
    (ho : o ≠ u.capacity) :
    processCb dc cc (fuel + 1) u cur total rd =
      if ¬ SizesFit u (u.sizesAt dc o) o total then processCb dc cc fuel u (addSz o 1) total rd
      else u.findKey u.tailKey (tailAt (u.sizesAt dc o) o) >>= fun t =>
        if t ≠ tailAt (u.sizesAt dc o) o then processCb dc cc fuel u (addSz o 1) total rd
        else u.copyPacket o (packetSize (u.sizesAt dc o)) >>= fun p =>
          if cc.all (· p) then
            processCb dc cc fuel (u.commit (packetSize (u.sizesAt dc o)))
            (addSz o (packetSize (u.sizesAt dc o))) total
              (rd ++ [p])
          else processCb dc cc fuel u (addSz o 1) total rd := by
  rw [processCb, if_pos hlt, hh]
  show (if o = u.capacity then _ else _) = _
  rw [if_neg ho]
  refine if_congr ?_ rfl rfl
  unfold SizesFit
  show (_ < _ ∨ _ < _ ∨ _ > _) ↔ _
  rw [not_and_or, not_and_or]
  exact or_congr Nat.not_le.symm (or_congr Nat.not_le.symm Nat.not_le.symm)

section
variable (hlt : cur < total) (hh : u.findKey u.headKey cur = .ok o) (ho : o ≠ u.capacity)
include hlt hh ho

theorem CbRun.badSizes (hs : ¬ SizesFit u (u.sizesAt dc o) o total)
    (h : CbRun dc cc u (addSz o 1) total rd r) : CbRun dc cc u cur total rd r := by
  obtain ⟨fuel, h⟩ := h
  exact ⟨fuel + 1, by rw [processCb_head hlt hh ho, if_pos hs, h]⟩

theorem CbRun.badTail {t : Nat} (hs : SizesFit u (u.sizesAt dc o) o total)
    (ht : u.findKey u.tailKey (tailAt (u.sizesAt dc o) o) = .ok t) (hne : t ≠ tailAt (u.sizesAt dc o) o)
    (h : CbRun dc cc u (addSz o 1) total rd r) : CbRun dc cc u cur total rd r := by
  obtain ⟨fuel, h⟩ := h
  refine ⟨fuel + 1, ?_⟩
  rw [processCb_head hlt hh ho, if_neg (by simpa using hs), ht]
  simp only [bind, Except.bind, if_pos hne, h]

/-- A tail that would lie behind the stored bytes is not searched for. -/
theorem CbRun.unstoredTail (h0 : u.tailKey ≠ []) (hs : SizesFit u (u.sizesAt dc o) o total)
    (hw : o + (u.sizesAt dc o).sum < 2 ^ 64) (htot : total ≤ u.capacity)
    (hbehind : u.length ≤ tailAt (u.sizesAt dc o) o) (h : CbRun dc cc u (addSz o 1) total rd r) :
    CbRun dc cc u cur total rd r := by
  have htp := List.length_pos_iff.2 h0
  have hin := hs.le_total hw
  have hts := hs.2.1
  refine CbRun.badTail hlt hh ho hs (findKey_refused (.inr (.inr hbehind))) ?_ h
  unfold Sizes.sum at *
  rw [tailAt_eq (by omega)]
  omega

theorem CbRun.badCheck {p : List UInt8} (hs : SizesFit u (u.sizesAt dc o) o total)
    (ht : u.findKey u.tailKey (tailAt (u.sizesAt dc o) o) = .ok (tailAt (u.sizesAt dc o) o))
    (hp : u.copyPacket o (packetSize (u.sizesAt dc o)) = .ok p) (hc : cc.all (· p) = false)
    (h : CbRun dc cc u (addSz o 1) total rd r) : CbRun dc cc u cur total rd r := by
  obtain ⟨fuel, h⟩ := h
  refine ⟨fuel + 1, ?_⟩
  rw [processCb_head hlt hh ho, if_neg (by simpa using hs), ht]
  simp only [bind, Except.bind, ne_eq, not_true, if_false, hp, hc, h]
  rfl

theorem CbRun.packet {p : List UInt8} (hs : SizesFit u (u.sizesAt dc o) o total)
    (ht : u.findKey u.tailKey (tailAt (u.sizesAt dc o) o) = .ok (tailAt (u.sizesAt dc o) o))
    (hp : u.copyPacket o (packetSize (u.sizesAt dc o)) = .ok p) (hc : cc.all (· p) = true)
    (h : CbRun dc cc (u.commit (packetSize (u.sizesAt dc o))) (addSz o (packetSize (u.sizesAt dc o)))
      total (rd ++ [p]) r) :
    CbRun dc cc u cur total rd r := by
  obtain ⟨fuel, h⟩ := h
  refine ⟨fuel + 1, ?_⟩
  rw [processCb_head hlt hh ho, if_neg (by simpa using hs), ht]
  simp only [bind, Except.bind, ne_eq, not_true, if_false, hp, hc, h, if_true]

end

/-- All that an iteration of a loop that comes back can have done. -/
theorem processCb_cases {fuel : Nat} (h : processCb dc cc (fuel + 1) u cur total rd = .ok r) : r = (rd, u) ∨
    ∃ o, cur < total ∧ u.findKey u.headKey cur = .ok o ∧ o ≠ u.capacity ∧
      (processCb dc cc fuel u (addSz o 1) total rd = .ok r ∨
        ∃ p, SizesFit u (u.sizesAt dc o) o total ∧
          u.findKey u.tailKey (tailAt (u.sizesAt dc o) o) = .ok (tailAt (u.sizesAt dc o) o) ∧
          u.copyPacket o (packetSize (u.sizesAt dc o)) = .ok p ∧ cc.all (· p) = true ∧
          processCb dc cc fuel (u.commit (packetSize (u.sizesAt dc o)))
          (addSz o (packetSize (u.sizesAt dc o))) total
            (rd ++ [p]) = .ok r) := by
  by_cases hlt : cur < total
  · cases hh : u.findKey u.headKey cur with
    | error f => rw [processCb, if_pos hlt, hh] at h; cases h
    | ok o =>
      by_cases ho : o = u.capacity
      · rw [processCb, if_pos hlt, hh] at h
        simp only [bind, Except.bind, if_pos ho] at h
        cases h; exact .inl rfl
      · refine .inr ⟨o, hlt, rfl, ho, ?_⟩
        rw [processCb_head hlt hh ho] at h
        by_cases hs : SizesFit u (u.sizesAt dc o) o total
        swap
        · rw [if_pos hs] at h; exact .inl h
        rw [if_neg (not_not.2 hs)] at h
        obtain ⟨t, ht, h⟩ := bind_ok.1 h
        by_cases hte : t = tailAt (u.sizesAt dc o) o
        swap
        · rw [if_pos hte] at h; exact .inl h
        rw [if_neg (not_not.2 hte)] at h
        obtain ⟨p, hp, h⟩ := bind_ok.1 h
        split at h
        · exact .inr ⟨p, hs, by rw [ht, hte], hp, ‹_›, h⟩
        · exact .inl h
  · rw [processCb, if_neg hlt] at h
    cases h; exact .inl rfl

theorem processCb_mono {fuel m : Nat} (h : processCb dc cc fuel u cur total rd = .ok r) :
    processCb dc cc (fuel + m) u cur total rd = .ok r := by
  induction fuel generalizing u cur rd with
  | zero => cases h
  | succ fuel ih =>
    rw [show fuel + 1 + m = fuel + m + 1 by omega]
    by_cases hlt : cur < total
    · cases hh : u.findKey u.headKey cur with
      | error f => rw [processCb, if_pos hlt, hh] at h; cases h
      | ok o =>
        by_cases ho : o = u.capacity
        · rw [processCb, if_pos hlt, hh] at h ⊢
          simpa only [bind, Except.bind, if_pos ho] using h
        · rw [processCb_head hlt hh ho] at h ⊢
          split at h
          · rw [if_pos ‹_›]; exact ih h
          rw [if_neg ‹_›]
          obtain ⟨t, ht, h⟩ := bind_ok.1 h
          refine bind_ok.2 ⟨t, ht, ?_⟩
          split at h
          · rw [if_pos ‹_›]; exact ih h
          rw [if_neg ‹_›]
          obtain ⟨p, hp, h⟩ := bind_ok.1 h
          refine bind_ok.2 ⟨p, hp, ?_⟩
          split at h
          · rw [if_pos ‹_›]; exact ih h
          · rw [if_neg ‹_›]; exact ih h
    · rw [processCb, if_neg hlt] at h ⊢; exact h

theorem CbRun.unique (h : CbRun dc cc u cur total rd r) (h' : CbRun dc cc u cur total rd r') : r = r' := by
  obtain ⟨f, h⟩ := h
  obtain ⟨f', h'⟩ := h'
  have h₁ := processCb_mono (m := f') h
  have h₂ := processCb_mono (m := f) h'
  rw [Nat.add_comm] at h₂
  rw [h₁] at h₂
  exact Except.ok.inj h₂

end

/-! ## The calls -/

/-- `GetPack` comes back with `r` when it starts on an empty vector. -/
def Packs (u : UnPacker) (r : List (List UInt8) × UnPacker) : Prop :=
  match u.unpackerModel with
  | .kHead => KeysRun u.headKey 0 u 0 u.length [] r
  | .kHeadTail => KeysRun u.tailKey u.tailKey.length u 0 u.length [] r
  | .kHeadTailCb => ∃ dc, u.dataSzCb = some dc ∧ CbRun dc u.checkSzCb u 0 u.length [] r
  | .kNone => r = ([], u)

theorem dataSzCb_of_model (h : u.unpackerModel = .kHeadTailCb) : ∃ dc, u.dataSzCb = some dc := by
  rw [u.model_eq, checkModel] at h
  split at h
  · exact Option.isSome_iff_exists.1 (by rename_i hc; exact hc.1)
  · split at h
    · cases h
    · split at h <;> cases h

theorem packs_iff {r : List (List UInt8) × UnPacker} :
    u.Packs r ↔ ∃ fuel res, getPack fuel u [] = .ok (res, r) := by
  unfold Packs getPack
  cases hm : u.unpackerModel with
  | kNone =>
    constructor
    · rintro rfl; exact ⟨0, _, rfl⟩
    · rintro ⟨_, _, h⟩; cases h; rfl
  | kHead =>
    constructor
    · rintro ⟨fuel, h⟩; exact ⟨fuel, .kSuccess, bind_ok.2 ⟨r, h, rfl⟩⟩
    · rintro ⟨fuel, _, h⟩
      obtain ⟨r', hr, h⟩ := bind_ok.1 h
      cases h; exact ⟨fuel, hr⟩
  | kHeadTail =>
    constructor
    · rintro ⟨fuel, h⟩; exact ⟨fuel, .kSuccess, bind_ok.2 ⟨r, h, rfl⟩⟩
    · rintro ⟨fuel, _, h⟩
      obtain ⟨r', hr, h⟩ := bind_ok.1 h
      cases h; exact ⟨fuel, hr⟩
  | kHeadTailCb =>
    obtain ⟨dc, hdc⟩ := dataSzCb_of_model hm
    simp only [processHeadTailAndCbMode, hdc]
    constructor
    · rintro ⟨dc', hdc', fuel, h⟩
      cases hdc'
      exact ⟨fuel, .kSuccess, bind_ok.2 ⟨r, h, rfl⟩⟩
    · rintro ⟨fuel, _, h⟩
      obtain ⟨r', hr, h⟩ := bind_ok.1 h
      cases h; exact ⟨dc, rfl, fuel, hr⟩

theorem Packs.unique {r r' : List (List UInt8) × UnPacker} (h : u.Packs r) (h' : u.Packs r') : r = r' := by
  unfold Packs at h h'
  cases hm : u.unpackerModel with rw [hm] at h h'
  | kNone => exact h.trans h'.symm
  | kHead | kHeadTail => exact KeysRun.unique h h'
  | kHeadTailCb =>
    obtain ⟨dc, hdc, h⟩ := h
    obtain ⟨dc', hdc', h'⟩ := h'
    rw [hdc] at hdc'
    cases hdc'
    exact CbRun.unique h h'

theorem pushes_iff {bs : List UInt8} {packs : List (List UInt8)} :
    u.Pushes bs packs u' ↔ (u.writeRing bs).Packs (packs, u') := by
  rw [packs_iff]
  unfold Pushes pushAndGet
  simp only [cleared_eq]
  constructor
  · rintro ⟨fuel, ret, h⟩
    obtain ⟨⟨res, r⟩, hr, h⟩ := bind_ok.1 (h [])
    cases h; exact ⟨fuel, res, hr⟩
  · rintro ⟨fuel, res, h⟩
    exact ⟨fuel, (u.write bs).1, fun _ => bind_ok.2 ⟨_, h, rfl⟩⟩

theorem gets_iff {packs : List (List UInt8)} : u.Gets packs u' ↔ u.Packs (packs, u') := by
  rw [packs_iff]
  unfold Gets get
  simp only [cleared_eq]
  constructor
  · rintro ⟨fuel, ret, h⟩
    obtain ⟨⟨res, r⟩, hr, h⟩ := bind_ok.1 (h [])
    cases h; exact ⟨fuel, res, hr⟩
  · rintro ⟨fuel, res, h⟩
    exact ⟨fuel, res.toSize, fun _ => bind_ok.2 ⟨_, h, rfl⟩⟩

/-- What a call was seen to do, a `Get` does. -/
theorem gets_of_getPack {α : Type} {f : UnPackerResult × List (List UInt8) × UnPacker → α}
    {fuel : Nat} {y : α} (h : (getPack fuel u []).map f = .ok y) :
    ∃ res packs v, u.Gets packs v ∧ f (res, packs, v) = y := by
  cases hget : getPack fuel u [] with
  | error e =>
    rw [hget] at h
    cases h
  | ok r =>
    rw [hget] at h
    exact ⟨r.1, r.2.1, r.2.2, gets_iff.2 (packs_iff.2 ⟨fuel, r.1, hget⟩), Except.ok.inj h⟩

theorem Pushes.unique {bs : List UInt8} {p p' : List (List UInt8)} {v : UnPacker} (h : u.Pushes bs p u')
    (h' : u.Pushes bs p' v) : p = p' ∧ u' = v :=
  Prod.ext_iff.1 ((pushes_iff.1 h).unique (pushes_iff.1 h'))

theorem Gets.unique {p p' : List (List UInt8)} {v : UnPacker} (h : u.Gets p u') (h' : u.Gets p' v) :
    p = p' ∧ u' = v :=
  Prod.ext_iff.1 ((gets_iff.1 h).unique (gets_iff.1 h'))

end NebulaToolkit.UnPacker
