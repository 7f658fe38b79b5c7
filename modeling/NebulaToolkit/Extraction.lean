import NebulaToolkit.Passes
import NebulaToolkit.Placement
import Mathlib.Algebra.Group.Nat.Defs
/-!
# What a packet is cut from

A pass cuts a packet out of the ring by a head offset and a size. The size
comes from a search that may have left the stored bytes (without callbacks),
or from three reported sizes whose sum wraps and is compared with a length
that is not the ring's any more (with callbacks). Pass by pass, this module
says when the packet is one of stored bytes (`cuts_live_iff`), when its size
is what was reported (`sizes_sound_iff`), and when the size callback sees the
frame's header (`header_seen_iff`).
-/

namespace NebulaToolkit.UnPacker

open Lib

variable {u : UnPacker} {key : List UInt8} {start : Nat}

/-! ## Searches that settle -/

/-- The search is refused, or its first part is as long as the key, or the key can be
read, over stored bytes and dead cells alike, before the offsets come to `2 ^ 63`. -/
def Settles (u : UnPacker) (key : List UInt8) (start : Nat) : Prop :=
  (key = [] ∨ u.length < key.length ∨ u.length ≤ start) ∨ key.length ≤ u.part1 start ∨
    ∃ o, start ≤ o ∧ o + key.length ≤ 2 ^ 63 ∧ u.ReadsAt key o

/-- Such a search finds a stored occurrence, or, from a short part, the first place the
key can be read from. -/
theorem Settles.findKey (hi : u.Inv) (h : u.Settles key start) : ∃ o, u.findKey key start = .ok o ∧
    (o = u.capacity ∨ start < u.length ∧ key.length ≤ u.length ∧ start ≤ o ∧
      o + key.length ≤ 2 ^ 63 ∧ u.ReadsAt key o ∧
      if key.length ≤ u.part1 start then o + key.length ≤ u.length
      else ∀ j, start ≤ j → u.ReadsAt key j → o ≤ j) := by
  have hl := hi.length_le
  have hC := u.capacity_lt
  by_cases hg : key = [] ∨ u.length < key.length ∨ u.length ≤ start
  · exact ⟨_, findKey_refused hg, .inl rfl⟩
  have h := h.resolve_left hg
  simp only [not_or, Nat.not_lt, Nat.not_le] at hg
  obtain ⟨h0, hk, hst⟩ := hg
  by_cases hp : key.length ≤ u.part1 start
  · simp only [if_pos hp]
    obtain ⟨o, hf, ho⟩ := findKey_stored hi h0 hst hk hp
    refine ⟨o, hf, ho.imp_right fun hstored => ?_⟩
    obtain ⟨hge, hle, hocc⟩ := hstored
    exact ⟨hst, hk, hge, by omega, (readsAt_iff hle).2 hocc, hle⟩
  · obtain ⟨o, hso, hlt, hr⟩ := h.resolve_left hp
    simp only [if_neg hp]
    have hm := absStart_lt hi start
    have hex : ∃ i, u.ReadsAt key (start + i) := ⟨o - start, by rwa [Nat.add_sub_cancel' hso]⟩
    have hfirst : Nat.find hex ≤ o - start := Nat.find_min' hex (by rwa [Nat.add_sub_cancel' hso])
    refine ⟨_, findKey_short_hit hi hst hk (by omega) (by omega) (by omega) (Nat.find_spec hex)
      fun j hj => Nat.find_min hex hj,
      .inr ⟨hst, hk, by omega, by omega, Nat.find_spec hex, fun j hsj hrj => ?_⟩⟩
    have := Nat.find_min' hex (m := j - start) (by rwa [Nat.add_sub_cancel' hsj])
    omega

/-- A key of one byte is never longer than a part it is looked for in. -/
theorem settles_byte (hi : u.Inv) (hk : key.length = 1) (start : Nat) : u.Settles key start := by
  by_cases hst : start < u.length
  · have hpos := part1_pos hi hst
    exact .inr (.inl (by omega))
  · exact .inl (.inr (.inr (Nat.not_lt.1 hst)))

/-- The searches behind every cut of a call settle. -/
def Settled (u : UnPacker) : Prop :=
  ∀ s, Reached u s → (∀ o, HeadAt s o → s.unpacker.Settles s.unpacker.headKey s.currentPos) ∧
    ∀ o e, s.unpacker.Keyed → KeysAt s o e →
      s.unpacker.Settles s.unpacker.endKey (o + s.unpacker.headKey.length)

/-- They do when the keys are single bytes. -/
theorem settled_bytes (hi : u.Inv) (hh : u.headKey.length = 1) (ht : u.tailKey.length = 1) : u.Settled := by
  intro s hs
  have hd := hs.during hi
  rw [← hd.headKey] at hh
  rw [← hd.tailKey] at ht
  refine ⟨fun _ _ => settles_byte hd.inv hh _, fun _ _ hk _ => settles_byte hd.inv ?_ _⟩
  rcases hk with hm | hm
  · rwa [endKey_head hm]
  · rwa [endKey_tail hm]

theorem HeadAt.place {s : Loop} {o : Nat} (hi : s.unpacker.Inv) (h : HeadAt s o)
    (hs : s.unpacker.Settles s.unpacker.headKey s.currentPos) :
    s.currentPos ≤ o ∧ o + s.unpacker.headKey.length ≤ 2 ^ 63 ∧ s.unpacker.ReadsAt s.unpacker.headKey o := by
  obtain ⟨-, hf, hne⟩ := h
  obtain ⟨o', ho', hwhere⟩ := hs.findKey hi
  rw [hf] at ho'
  cases ho'
  obtain ⟨-, -, h1, h2, h3, -⟩ := hwhere.resolve_left hne
  exact ⟨h1, h2, h3⟩

/-! ## Cuts of stored bytes -/

/-- The packet ends within the stored bytes. So both copies stay within the array, the
packet is stored bytes, and its commit succeeds. -/
structure CutsLive (u : UnPacker) (o n : Nat) : Prop where
  inside : o + n ≤ u.length
  first : (u.readIndex + o) % u.capacity + min n (u.capacity - (u.readIndex + o) % u.capacity) ≤ u.capacity
  second : n - min n (u.capacity - (u.readIndex + o) % u.capacity) ≤ u.capacity
  packet : u.copyPacket o n = .ok ((u.content.drop o).take n)
  commits : (u.commitReadSize n).1 = .kSuccess

/-- The frame at `a`, as it is reported, is cut off by the end of the stored bytes: its
tail key can be read where the sizes say, but the tail they announce goes on
behind the last stored byte. -/
structure CutOff (u : UnPacker) (dc : DataSzCb) (a : Nat) : Prop where
  head_le : u.headKey.length ≤ (u.sizesAt dc a).headSize.toNat
  tail_le : u.tailKey.length ≤ (u.sizesAt dc a).tailSize.toNat
  tail_lt : a + (u.sizesAt dc a).headSize.toNat + (u.sizesAt dc a).dataSize.toNat < u.length
  tail_reads : u.ReadsAt u.tailKey (a + (u.sizesAt dc a).headSize.toNat + (u.sizesAt dc a).dataSize.toNat)
  length_lt : u.length < a + (u.sizesAt dc a).sum

/-- The frame at `b`, as it is reported, is stored as a whole and accepted. -/
structure WholeAt (u : UnPacker) (dc : DataSzCb) (b : Nat) : Prop where
  head : OccursAt u.headKey u.content b
  head_le : u.headKey.length ≤ (u.sizesAt dc b).headSize.toNat
  tail_le : u.tailKey.length ≤ (u.sizesAt dc b).tailSize.toNat
  tail : OccursAt u.tailKey u.content (b + (u.sizesAt dc b).headSize.toNat + (u.sizesAt dc b).dataSize.toNat)
  le_length : b + (u.sizesAt dc b).sum ≤ u.length
  check : u.checkSzCb.all (· ((u.content.drop b).take (u.sizesAt dc b).sum)) = true

/-- The call comes to a head whose frame was cut off in the ring `u` before the call, and
which passes the test of its sizes because bytes were dropped since. -/
structure Outruns (u : UnPacker) (dc : DataSzCb) (s : Loop) (o : Nat) : Prop where
  head : HeadAt s o
  cutOff : u.CutOff dc (u.length - s.unpacker.length + o)
  fits : o + (u.sizesAt dc (u.length - s.unpacker.length + o)).sum ≤ s.totalSize
  tail_le : u.tailKey.length ≤ s.unpacker.length

/-- Where a frame stands that passes its tests, when its sizes do not sum past `2 ^ 63`. -/
theorem FrameAt.place {s : Loop} {o : Nat} {dc : DataSzCb} (hi : s.unpacker.Inv)
    (hm : s.unpacker.unpackerModel = .kHeadTailCb) (htotal : s.totalSize ≤ s.unpacker.capacity)
    (h : FrameAt dc s o) (hh : s.unpacker.Settles s.unpacker.headKey s.currentPos)
    (hsum : (s.unpacker.sizesAt dc o).sum ≤ 2 ^ 63) :
    packetSize (s.unpacker.sizesAt dc o) = (s.unpacker.sizesAt dc o).sum ∧
      o + (s.unpacker.sizesAt dc o).sum ≤ s.totalSize ∧
      o + (s.unpacker.sizesAt dc o).headSize.toNat + (s.unpacker.sizesAt dc o).dataSize.toNat <
        s.unpacker.length ∧ s.unpacker.tailKey.length ≤ s.unpacker.length ∧
      s.unpacker.ReadsAt s.unpacker.tailKey
        (o + (s.unpacker.sizesAt dc o).headSize.toNat + (s.unpacker.sizesAt dc o).dataSize.toNat) := by
  have hkp := List.length_pos_iff.2 (headKey_ne (u := s.unpacker) (by rw [hm]; decide))
  have ht0 := tailKey_ne hm
  have htp := List.length_pos_iff.2 ht0
  obtain ⟨hhead, hfit, htail⟩ := h
  obtain ⟨-, hplace, -⟩ := hhead.place hi hh
  have hle := hfit.le_total (by omega)
  obtain ⟨hhs, hts, -⟩ := hfit
  have hsize : packetSize (s.unpacker.sizesAt dc o) = (s.unpacker.sizesAt dc o).sum :=
    packetSize_eq (Nat.lt_of_le_of_lt hsum (by omega))
  refine ⟨hsize, hle, ?_⟩
  unfold Sizes.sum at hle hsum
  rw [tailAt_eq (by omega)] at htail
  by_cases href : s.unpacker.tailKey = [] ∨ s.unpacker.length < s.unpacker.tailKey.length ∨
      s.unpacker.length ≤
        o + (s.unpacker.sizesAt dc o).headSize.toNat + (s.unpacker.sizesAt dc o).dataSize.toNat
  · -- A search that is refused gives the capacity, which is too far behind.
    rw [findKey_refused href] at htail
    have := Except.ok.inj htail
    omega
  · simp only [not_or, Nat.not_lt, Nat.not_le] at href
    exact ⟨href.2.2, href.2.1, (findKey_start_iff hi ht0 href.2.2 href.2.1).1 htail⟩

section
variable {s : Loop} {o : Nat} {dc : DataSzCb} (hi : u.Inv) (hs : Reached u s)
include hi hs

/-- So many bytes were dropped since the call began. -/
theorem Reached.dropped :
    s.unpacker.length ≤ u.length ∧ s.unpacker = u.commit (u.length - s.unpacker.length) := by
  obtain ⟨d, hd, heq⟩ := hs.commit hi
  have hlen : s.unpacker.length = u.length - d := by rw [heq, commit_length hi hd]
  refine ⟨by omega, ?_⟩
  rw [show u.length - s.unpacker.length = d by omega]
  exact heq

/-- The loop counts up to no more than the ring holds. -/
theorem Reached.total_le : s.totalSize ≤ s.unpacker.capacity := by
  have hd := hs.during hi
  have hl := hi.length_le
  have htotal := hd.totalSize
  rw [show s.unpacker.capacity = u.capacity from congrArg List.length hd.buffer]
  omega

/-- What is reported for a stored head, and which key can be read where, was so before the call. -/
theorem Reached.sizesAt (ho : o < s.unpacker.length) :
    s.unpacker.sizesAt dc o = u.sizesAt dc (u.length - s.unpacker.length + o) := by
  obtain ⟨hle, heq⟩ := hs.dropped hi
  rw [← commit_sizesAt hi dc (by omega), ← heq]

theorem Reached.readsAt (key : List UInt8) (o : Nat) :
    s.unpacker.ReadsAt key o ↔ u.ReadsAt key (u.length - s.unpacker.length + o) := by
  obtain ⟨hle, heq⟩ := hs.dropped hi
  rw [← commit_readsAt_add hi (by omega), ← heq]

variable (hm : u.unpackerModel = .kHeadTailCb)
  (hh : s.unpacker.Settles s.unpacker.headKey s.currentPos) (hsum : ∀ bytes, (dc bytes).sum ≤ 2 ^ 63)
include hm hh hsum

/-- Where the call outruns them, a frame passes its tests that is not stored as a whole. -/
theorem Outruns.frame (h : Outruns u dc s o) :
    FrameAt dc s o ∧ ¬ s.unpacker.CutsLive o (packetSize (s.unpacker.sizesAt dc o)) := by
  have hd := hs.during hi
  have hmode : s.unpacker.unpackerModel = .kHeadTailCb := hd.model.trans hm
  have ht0 := tailKey_ne hmode
  obtain ⟨hle, -⟩ := hs.dropped hi
  obtain ⟨hhead, ⟨hhs, hts, htail, hreads, hcut⟩, hfits, htl⟩ := h
  obtain ⟨-, hplace, -⟩ := hhead.place hd.inv hh
  have hsizes : s.unpacker.sizesAt dc o = u.sizesAt dc (u.length - s.unpacker.length + o) :=
    hs.sizesAt hi (by omega)
  have hsum' : (s.unpacker.sizesAt dc o).sum ≤ 2 ^ 63 := hsum _
  have hkp := List.length_pos_iff.2 (headKey_ne (u := s.unpacker) (by rw [hmode]; decide))
  rw [← hsizes] at hhs hts htail hreads hcut hfits
  rw [Nat.add_assoc, Nat.add_assoc, ← Nat.add_assoc o, ← hs.readsAt hi, ← hd.tailKey] at hreads
  rw [← hd.headKey] at hhs
  rw [← hd.tailKey] at hts htl
  have hsize : packetSize (s.unpacker.sizesAt dc o) = (s.unpacker.sizesAt dc o).sum :=
    packetSize_eq (Nat.lt_of_le_of_lt hsum' (by omega))
  have hend : tailAt (s.unpacker.sizesAt dc o) o =
      o + (s.unpacker.sizesAt dc o).headSize.toNat + (s.unpacker.sizesAt dc o).dataSize.toNat := by
    unfold Sizes.sum at hsum'
    exact tailAt_eq (by omega)
  refine ⟨⟨hhead, ⟨hhs, hts, ?_⟩, ?_⟩, fun h => ?_⟩
  · rw [hsize, show addSz o _ = o + _ from wadd_of_lt (by omega)]
    exact hfits
  · rw [hend]
    exact findKey_reads hd.inv ht0 (by omega) htl hreads
  · have hin := h.inside
    rw [hsize] at hin
    omega

end

/-- Behind the first packet of a call a whole frame is left behind, and as much of the ring
as it is long has been dropped. -/
theorem Reached.behind {dc : DataSzCb} (hi : u.Inv) (hm : u.unpackerModel = .kHeadTailCb)
    (hdc : u.dataSzCb = some dc) (hsum : ∀ bytes, (dc bytes).sum ≤ 2 ^ 63) (hset : u.Settled) {s : Loop}
    (hs : Reached u s) :
    s.unpacker.length = u.length ∨
    ∃ b, u.WholeAt dc b ∧ (u.sizesAt dc b).sum ≤ u.length - s.unpacker.length ∧
      b + (u.sizesAt dc b).sum ≤ s.currentPos := by
  refine hs.inv (I := fun s => s.unpacker.length = u.length ∨ ∃ b, u.WholeAt dc b ∧
    (u.sizesAt dc b).sum ≤ u.length - s.unpacker.length ∧ b + (u.sizesAt dc b).sum ≤ s.currentPos) ?_ ?_
  · rintro _ rfl
    exact .inl rfl
  intro s s' (hs : Reached u s) hI hstep
  have hd := hs.during hi
  have hmode : s.unpacker.unpackerModel = .kHeadTailCb := hd.model.trans hm
  obtain ⟨o, e, p, hk, -⟩ | ⟨dc', o, -, hdc', hhead, hnext⟩ := hstep.cases
  · unfold Keyed at hk
    rw [hmode] at hk
    rcases hk with h | h <;> cases h
  rw [hd.dataSzCb, hdc] at hdc'
  cases hdc'
  have hh := (hset s hs).1 o hhead
  obtain ⟨hco, hplace, hread⟩ := hhead.place hd.inv hh
  rcases hnext with rfl | ⟨p, hframe, hp, hc, rfl⟩
  · refine hI.imp_right fun ⟨b, hb, hdrop, hcur⟩ => ⟨b, hb, hdrop, ?_⟩
    show _ ≤ addSz o 1
    rw [show addSz o 1 = o + 1 from wadd_of_lt (by omega)]
    omega
  have hl := hi.length_le
  have htotal := hd.totalSize
  obtain ⟨hsize, hfits, htail, htl, hreads⟩ := hframe.place hd.inv hmode (hs.total_le hi) hh (hsum _)
  have hC := u.capacity_lt
  have hend : addSz o (packetSize (s.unpacker.sizesAt dc o)) = o + (s.unpacker.sizesAt dc o).sum := by
    rw [hsize]
    exact wadd_of_lt (by omega)
  have hlen := commit_length_le hd.inv (packetSize (s.unpacker.sizesAt dc o))
  rcases hI with hfull | ⟨b, hb, hdrop, hcur⟩
  · -- Nothing was dropped before, so the first packet is a frame of the stored bytes.
    obtain ⟨hle, heq⟩ := hs.dropped hi
    rw [show u.length - s.unpacker.length = 0 by omega, commit_zero hi] at heq
    obtain ⟨-, ⟨hhs, hts, -⟩, -⟩ := hframe
    have hin : o + (s.unpacker.sizesAt dc o).sum ≤ s.unpacker.length := by omega
    have hsums : (s.unpacker.sizesAt dc o).headSize.toNat + (s.unpacker.sizesAt dc o).dataSize.toNat +
      (s.unpacker.sizesAt dc o).tailSize.toNat = (s.unpacker.sizesAt dc o).sum := rfl
    have hcopy := copyPacket_eq hd.inv (show o < s.unpacker.length by omega) hin
    rw [hsize, hcopy] at hp
    cases hp
    obtain ⟨v, cur, total⟩ := s
    obtain rfl : v = u := heq
    dsimp only at *
    refine .inr ⟨o, ?_, ?_, ?_⟩
    · exact ⟨(readsAt_iff (by omega)).1 hread, hhs, hts, (readsAt_iff (by omega)).1 hreads, hin, hc⟩
    · rw [hsize, commit_length hi (by omega)]
      omega
    · rw [hend]
  · refine .inr ⟨b, hb, ?_, ?_⟩
    · show _ ≤ u.length - (s.unpacker.commit _).length
      omega
    · show _ ≤ addSz o _
      rw [hend]
      omega

/-- A pass hands out the packet `p` of a frame at `o` with these sizes. -/
inductive Emits (s : Loop) : Nat → Sizes → List UInt8 → Prop
  | frame {o : Nat} {dc : DataSzCb} {p : List UInt8} : s.unpacker.unpackerModel = .kHeadTailCb →
      s.unpacker.dataSzCb = some dc → FrameAt dc s o →
      s.unpacker.copyPacket o (packetSize (s.unpacker.sizesAt dc o)) = .ok p →
      s.unpacker.checkSzCb.all (· p) = true → Emits s o (s.unpacker.sizesAt dc o) p

/-- The sizes, summed as numbers, are the packet's, hold both keys and end where the loop may look. -/
structure SizesSound (s : Loop) (o : Nat) (sizes : Sizes) (p : List UInt8) : Prop where
  length : p.length = sizes.sum
  keys : s.unpacker.headKey.length + s.unpacker.tailKey.length ≤ sizes.sum
  inside : o + sizes.sum ≤ s.totalSize
  nonempty : p ≠ []

theorem FrameAt.sizesSound {s : Loop} {o : Nat} {dc : DataSzCb} {p : List UInt8} (hi : s.unpacker.Inv)
    (h0 : s.unpacker.headKey ≠ []) (h : FrameAt dc s o)
    (hs : s.unpacker.Settles s.unpacker.headKey s.currentPos)
    (hp : s.unpacker.copyPacket o (packetSize (s.unpacker.sizesAt dc o)) = .ok p)
    (hsum : (s.unpacker.sizesAt dc o).sum < 2 ^ 64) : SizesSound s o (s.unpacker.sizesAt dc o) p := by
  have hkp := List.length_pos_iff.2 h0
  have hlen := copyPacket_length hi hp
  have hmax := copyPacket_le hp
  obtain ⟨hhead, ⟨hhs, hts, hfit⟩, -⟩ := h
  obtain ⟨-, hplace⟩ := hhead.place hi hs
  have hsize : packetSize (s.unpacker.sizesAt dc o) = (s.unpacker.sizesAt dc o).sum := packetSize_eq hsum
  have hkeys : s.unpacker.headKey.length + s.unpacker.tailKey.length ≤ (s.unpacker.sizesAt dc o).sum := by
    unfold Sizes.sum
    omega
  unfold maxSize at hmax
  rw [show addSz o _ = o + _ from wadd_of_lt (by omega), hsize] at hfit
  refine ⟨hlen.trans hsize, hkeys, hfit, fun hnil => ?_⟩
  rw [hnil, List.length_nil] at hlen
  omega

/-- A packet that is as long as its sizes sum to is short. -/
theorem Emits.sum_lt {s : Loop} {o : Nat} {sizes : Sizes} {p : List UInt8} (hi : s.unpacker.Inv)
    (h : Emits s o sizes p) (hlen : p.length = sizes.sum) : sizes.sum < 2 ^ 64 := by
  cases h with
  | frame _ _ _ hp _ =>
    have hmax := copyPacket_le hp
    rw [copyPacket_length hi hp] at hlen
    unfold maxSize at hmax
    omega

/-- The three tests of a head the call comes to, on sizes whose sum may have wrapped. They
ask for what is reported, and for the bytes in the ring. -/
structure Admitted (s : Loop) (dc : DataSzCb) (o : Nat) : Prop where
  head_le : s.unpacker.headKey.length ≤ (s.unpacker.sizesAt dc o).headSize.toNat
  tail_le : s.unpacker.tailKey.length ≤ (s.unpacker.sizesAt dc o).tailSize.toNat
  fits : o + packetSize (s.unpacker.sizesAt dc o) ≤ s.totalSize
  /-- The tail key can be read where the sizes say, or that is the number that says "not found". -/
  tail : tailAt (s.unpacker.sizesAt dc o) o = s.unpacker.capacity ∨
    tailAt (s.unpacker.sizesAt dc o) o < s.unpacker.length ∧ s.unpacker.tailKey.length ≤ s.unpacker.length ∧
      s.unpacker.ReadsAt s.unpacker.tailKey (tailAt (s.unpacker.sizesAt dc o) o)
  check : s.unpacker.checkSzCb.all
    (· (cyc s.unpacker.buffer (s.unpacker.readIndex + o) (packetSize (s.unpacker.sizesAt dc o)))) = true

/-- What is reported at every head the call comes to sums to less than `2 ^ 64`, or does
not pass the tests. -/
def ReportsSound (s : Loop) : Prop :=
  ∀ dc, s.unpacker.dataSzCb = some dc → ∀ o, HeadAt s o →
    (s.unpacker.sizesAt dc o).sum < 2 ^ 64 ∨ ¬ Admitted s dc o

/-- Every packet of a call has the size that was reported for it, and every iteration goes
on further behind. -/
structure CallSound (u : UnPacker) : Prop where
  packets : ∀ s, Reached u s → ∀ o sizes p, Emits s o sizes p → SizesSound s o sizes p
  advances : ∀ s s', Reached u s → Steps s s' → s.currentPos < s'.currentPos

/-- The head key can be read from cell `i` on, going round the end, over stored bytes and dead cells. -/
def HeadInCell (u : UnPacker) (i : Nat) : Prop :=
  ∀ j < u.headKey.length, some (u.cell ((i + j) % u.capacity)) = u.headKey[j]?

section
variable {s : Loop} {o : Nat} {dc : DataSzCb} (hi : s.unpacker.Inv)
  (hm : s.unpacker.unpackerModel = .kHeadTailCb)
  (hs : s.unpacker.Settles s.unpacker.headKey s.currentPos)
include hi hs

variable (dc) in
/-- A head is read from the cell its callback's bytes start at. -/
theorem HeadAt.inCell (h0 : s.unpacker.headKey ≠ []) (h : HeadAt s o) :
    s.unpacker.HeadInCell ((s.unpacker.readIndex + o) % s.unpacker.capacity) ∧
      s.unpacker.sizesAt dc o =
        dc (s.unpacker.buffer.drop ((s.unpacker.readIndex + o) % s.unpacker.capacity)) := by
  have hC := s.unpacker.capacity_lt
  have hr := hi.read_lt
  have hkp := List.length_pos_iff.2 h0
  obtain ⟨-, hplace, hreads⟩ := h.place hi hs
  constructor
  · intro j hj
    rw [Nat.mod_add_mod, Nat.add_assoc]
    exact hreads j hj
  · rw [UnPacker.sizesAt, show addSz s.unpacker.readIndex o = _ from wadd_of_lt (by omega)]

include hm

/-- A packet is handed out just when the tests are passed. -/
theorem HeadAt.emits_iff (hdc : s.unpacker.dataSzCb = some dc)
    (htotal : s.totalSize ≤ s.unpacker.capacity) (h : HeadAt s o) :
    (∃ p, Emits s o (s.unpacker.sizesAt dc o) p) ↔ Admitted s dc o := by
  have ht0 := tailKey_ne hm
  have hC := s.unpacker.capacity_lt
  have hl := hi.length_le
  have hr := hi.read_lt
  obtain ⟨-, hplace, -⟩ := h.place hi hs
  constructor
  · rintro ⟨p, hemits⟩
    generalize hsizes : s.unpacker.sizesAt dc o = sizes at hemits
    cases hemits with
    | @frame dc' _ _ hdc' hframe hp hcheck =>
    obtain rfl : dc' = dc := Option.some.inj (hdc'.symm.trans hdc)
    obtain ⟨-, ⟨hhs, hts, hfits⟩, htail⟩ := hframe
    have hmax := copyPacket_le hp
    unfold maxSize at hmax
    rw [show addSz o _ = _ from wadd_of_lt (by omega)] at hfits
    rw [copyPacket_cells hi (by omega) (by omega)] at hp
    refine ⟨hhs, hts, hfits, ?_, Except.ok.inj hp ▸ hcheck⟩
    by_cases href : s.unpacker.tailKey = [] ∨ s.unpacker.length < s.unpacker.tailKey.length ∨
        s.unpacker.length ≤ tailAt (s.unpacker.sizesAt dc' o) o
    · rw [findKey_refused href] at htail
      exact .inl (Except.ok.inj htail).symm
    · simp only [not_or, Nat.not_lt, Nat.not_le] at href
      exact .inr ⟨href.2.2, href.2.1, (findKey_start_iff hi ht0 href.2.2 href.2.1).1 htail⟩
  · rintro ⟨hhs, hts, hfits, htail, hcheck⟩
    have hcopy :=
      copyPacket_cells hi (o := o) (n := packetSize (s.unpacker.sizesAt dc o)) (by omega) (by omega)
    refine ⟨_, .frame hm hdc ⟨h, ⟨hhs, hts, ?_⟩, ?_⟩ hcopy hcheck⟩
    · rw [show addSz o _ = _ from wadd_of_lt (by omega)]
      exact hfits
    · rcases htail with hcap | ⟨hlt, htl, hreads⟩
      · rw [hcap]
        exact findKey_refused (.inr (.inr hl))
      · exact findKey_reads hi ht0 hlt htl hreads

end

/-- An iteration goes on further behind unless it hands out a packet whose sizes wrap. -/
theorem Steps.advances_sound {s s' : Loop} (hi : s.unpacker.Inv)
    (hm : s.unpacker.unpackerModel = .kHeadTailCb) (h : Steps s s')
    (hs : ∀ o, HeadAt s o → s.unpacker.Settles s.unpacker.headKey s.currentPos)
    (hsum : ∀ o sizes p, Emits s o sizes p → sizes.sum < 2 ^ 64) : s.currentPos < s'.currentPos := by
  have h0 : s.unpacker.headKey ≠ [] := headKey_ne (by rw [hm]; decide)
  obtain ⟨o, e, p, hk, -⟩ | ⟨dc, o, -, hdc, hhead, hnext⟩ := h.cases
  · rcases hk with h | h <;> rw [hm] at h <;> cases h
  obtain ⟨hco, hplace⟩ := hhead.place hi (hs o hhead)
  rcases hnext with rfl | ⟨p, hframe, hp, hc, rfl⟩
  · show s.currentPos < addSz o 1
    rw [show addSz o 1 = _ from wadd_of_lt (by omega)]
    omega
  · have hmax := copyPacket_le hp
    have hsound := hframe.sizesSound hi h0 (hs o hhead) hp (hsum o _ p (.frame hm hdc hframe hp hc))
    have hlen := copyPacket_length hi hp
    have hpos := List.length_pos_iff.2 hsound.nonempty
    unfold maxSize at hmax
    show s.currentPos < addSz o (packetSize (s.unpacker.sizesAt dc o))
    rw [show addSz o (packetSize (s.unpacker.sizesAt dc o)) = _ from wadd_of_lt (by omega)]
    omega

/-- In a call whose searches for heads settle, every packet has the reported sizes, and
every iteration goes on further behind, just when at every head it comes to the
reported sizes are a number of 64 bits or are refused. It is enough that this is
reported from every cell where the head key can be read. -/
theorem sizes_sound_iff (hi : u.Inv) (hm : u.unpackerModel = .kHeadTailCb)
    (hset : ∀ s, Reached u s → ∀ o, HeadAt s o → s.unpacker.Settles s.unpacker.headKey s.currentPos) :
    (u.CallSound ↔ ∀ s, Reached u s → ReportsSound s) ∧
      ((∀ dc, u.dataSzCb = some dc → ∀ i, u.HeadInCell i → (dc (u.buffer.drop i)).sum < 2 ^ 64) →
        u.CallSound) := by
  have hiff : u.CallSound ↔ ∀ s, Reached u s → ReportsSound s := by
    constructor
    · intro h s hs dc hdc o hhead
      have hd := hs.during hi
      by_cases hadm : Admitted s dc o
      · obtain ⟨p, hemits⟩ :=
          (hhead.emits_iff hd.inv (hd.model.trans hm) (hset s hs o hhead) hdc (hs.total_le hi)).2 hadm
        exact .inl (hemits.sum_lt hd.inv (h.packets s hs o _ p hemits).length)
      · exact .inr hadm
    · intro h
      have hsum (s : Loop) (hs : Reached u s) (o : Nat) (sizes : Sizes) (p : List UInt8)
          (hemits : Emits s o sizes p) :
          sizes.sum < 2 ^ 64 := by
        have hemits' := hemits
        cases hemits' with
        | frame hmodel hdc hframe _ _ =>
          refine (h s hs _ hdc o hframe.1).resolve_right fun hno => hno ?_
          exact (hframe.1.emits_iff (hs.during hi).inv hmodel (hset s hs _ hframe.1) hdc
            (hs.total_le hi)).1 ⟨p, hemits⟩
      refine ⟨fun s hs o sizes p hemits => ?_, fun s s' hs hstep => ?_⟩
      · have hlt := hsum s hs o sizes p hemits
        cases hemits with
        | frame hmodel _ hframe hp _ =>
          exact hframe.sizesSound (hs.during hi).inv (headKey_ne (by rw [hmodel]; decide))
            (hset s hs o hframe.1) hp hlt
      · have hd := hs.during hi
        exact hstep.advances_sound hd.inv (hd.model.trans hm) (hset s hs) (hsum s hs)
  refine ⟨hiff, fun hcells => hiff.2 fun s hs dc hdc o hhead => .inl ?_⟩
  have hd := hs.during hi
  rw [hd.dataSzCb] at hdc
  obtain ⟨hcell, hsizes⟩ :=
    hhead.inCell dc hd.inv (hset s hs o hhead) (headKey_ne (by rw [hd.model, hm]; decide))
  rw [hsizes, hd.buffer]
  refine hcells dc hdc _ ?_
  unfold HeadInCell UnPacker.cell at *
  rw [hd.headKey, hd.buffer] at hcell
  rwa [show s.unpacker.capacity = u.capacity from congrArg List.length hd.buffer] at hcell ⊢

/-- The theorem for two frames, of which the first one's length byte makes the sizes sum to
`2 ^ 64`, but with a header shorter than the head key. -/
theorem sizes_sound_bytes :
    ((createWithCallbacks [1] [2]
      (some fun bytes => if bytes[1]? = some 9 then ⟨0, 18446744073709551615, 1⟩ else ⟨1, 1, 1⟩)
      (some fun _ => true) 8 (by decide)).writeRing [1, 9, 2, 1, 7, 2]).CallSound := by
  have hi := writeRing_inv
    (u := createWithCallbacks [1] [2] (some fun bytes : List UInt8 =>
      if bytes[1]? = some 9 then (⟨0, 18446744073709551615, 1⟩ : Sizes) else ⟨1, 1, 1⟩)
      (some fun _ => true) 8 (by decide))
    (RingBuffer.ofSize_inv (by decide) (by decide)) [1, 9, 2, 1, 7, 2]
  refine (sizes_sound_iff hi rfl fun s hs => (settled_bytes hi rfl rfl s hs).1).1.2 fun s hs dc hdc o _ => ?_
  have hd := hs.during hi
  rw [hd.dataSzCb] at hdc
  cases hdc
  by_cases h9 : (s.unpacker.buffer.drop (addSz s.unpacker.readIndex o % s.unpacker.capacity))[1]? = some 9
  · refine .inr fun hadm => ?_
    have hle := hadm.head_le
    rw [UnPacker.sizesAt, if_pos h9, hd.headKey] at hle
    exact absurd hle (by decide)
  · rw [UnPacker.sizesAt, if_neg h9]
    exact .inl (by decide)

/-- A tail key in front of a head whose sizes sum to `2 ^ 64`: an empty packet is handed
out, and the call goes on like that for good. -/
theorem empty_packets_spin :
    let u := placed [1] [2] (some fun _ => ⟨1, 18446744073709551614, 1⟩) (some fun _ => true) [2, 1, 0, 0]
      (by decide) 0 2
    let s : Loop := ⟨u, 1, 2⟩
    u.Inv ∧ Reached u s ∧ Emits s 1 ⟨1, 18446744073709551614, 1⟩ [] ∧
      ¬ SizesSound s 1 ⟨1, 18446744073709551614, 1⟩ [] ∧ Steps s s ∧
      ∀ fuel, getPack fuel u [] = .error .running := by
  intro u s
  have hi : u.Inv := placed_inv _ (by decide) (by decide)
  have hsize : packetSize ⟨1, 18446744073709551614, 1⟩ = 0 := by decide
  have htail : tailAt ⟨1, 18446744073709551614, 1⟩ 1 = 0 := by decide
  have hfit : SizesFit u ⟨1, 18446744073709551614, 1⟩ 1 2 := by decide
  have hcopy : u.copyPacket 1 0 = .ok [] := copyPacket_eq hi (by decide) (by decide)
  have hfind : u.findKey u.tailKey 0 = .ok 0 :=
    findKey_reads hi (by decide) (by decide) (by decide) (by decide)
  have hframe (cur : Nat) (hlt : cur < 2) (hh : u.findKey u.headKey cur = .ok 1) :
      FrameAt (fun _ => ⟨1, 18446744073709551614, 1⟩) ⟨u, cur, 2⟩ 1 := by
    refine ⟨⟨hlt, hh, show 1 ≠ u.capacity by decide⟩, hfit, ?_⟩
    show u.findKey u.tailKey (tailAt ⟨1, 18446744073709551614, 1⟩ 1) =
      .ok (tailAt ⟨1, 18446744073709551614, 1⟩ 1)
    rw [htail]
    exact hfind
  have hpass (cur : Nat) (hlt : cur < 2) (hh : u.findKey u.headKey cur = .ok 1) :
      pass ⟨u, cur, 2⟩ = .ok (.next (some []) s) := by
    rw [pass_cb (s := ⟨u, cur, 2⟩) rfl rfl, cbPass_frame (hframe cur hlt hh)]
    show u.copyPacket 1 (packetSize ⟨1, 18446744073709551614, 1⟩) >>= _ = _
    rw [hsize, hcopy]
    show Except.ok (Pass.next (some []) ⟨u.commit (packetSize ⟨1, 18446744073709551614, 1⟩),
      addSz 1 (packetSize ⟨1, 18446744073709551614, 1⟩), 2⟩) = _
    rw [hsize, commit_zero hi, show addSz 1 0 = 1 by decide]
  have hhere : u.findKey u.headKey 1 = .ok 1 :=
    findKey_reads hi (by decide) (by decide) (by decide) (by decide)
  have hfront : u.findKey u.headKey 0 = .ok 1 := by
    rw [(show u.Easy u.headKey from .inl rfl).findKey hi (by decide)]
    decide
  have hreach : Reached u s :=
    (Reachable.start rfl : Reached u (Loop.start u)).next ⟨some [], hpass 0 (by decide) hfront⟩
  have hagain := hpass 1 (by decide) hhere
  have hemits : Emits s 1 ⟨1, 18446744073709551614, 1⟩ [] :=
    .frame rfl rfl (hframe 1 (by decide) hhere) (hsize ▸ hcopy) rfl
  refine ⟨hi, hreach, hemits, fun h => h.nonempty rfl, ⟨_, hagain⟩, fun fuel => ?_⟩
  rw [getPack_run (by decide), hreach.spins hagain]
  rfl

/-! ## What the size callback sees -/

/-- The bytes of the array from `head_ptr` on. -/
def headBytes (u : UnPacker) (headOffset : Nat) : List UInt8 :=
  u.buffer.drop (addSz u.readIndex headOffset % u.capacity)

/-- The callback gets these bytes. Those that stand for stored bytes behind the head are
the stored ones just when the stored bytes do not go round the array's end, or do
so in front of the head. -/
theorem header_seen_iff (hi : u.Inv) (o : Nat) : (∀ dc, u.sizesAt dc o = dc (u.headBytes o)) ∧
    ((∀ k, o + k < u.length → (u.headBytes o)[k]? = u.content[o + k]?) ↔
      u.readIndex + u.length ≤ u.capacity ∨ u.capacity ≤ u.readIndex + o ∨ u.length ≤ o) := by
  have hl := hi.length_le
  have hr := hi.read_lt
  refine ⟨fun _ => rfl, ?_⟩
  by_cases ho : o < u.length
  swap
  · exact iff_of_true (fun k hk => by omega) (.inr (.inr (Nat.not_lt.1 ho)))
  have hcell (k : Nat) (h : k < u.capacity) : u.buffer[k]? = some (u.cell k) := by
    rw [List.getElem?_eq_getElem h, cell, List.getD_eq_getElem _ _ h]
  have hhead (k : Nat) : (u.headBytes o)[k]? = u.buffer[(u.readIndex + o) % u.capacity + k]? := by
    rw [headBytes, List.getElem?_drop, absStart_eq hi ho]
  constructor
  · intro h
    by_contra hno
    simp only [not_or, Nat.not_le] at hno
    obtain ⟨hwrap, hfront, -⟩ := hno
    -- The first stored byte behind the array's end is out of sight.
    have hlast := h (u.capacity - (u.readIndex + o)) (by omega)
    rw [hhead, content_getElem? (by omega), Nat.mod_eq_of_lt hfront, List.getElem?_eq_none (by
      show u.capacity ≤ _
      omega)] at hlast
    cases hlast
  · intro h k hk
    have hend : (u.readIndex + (o + k)) % u.capacity = (u.readIndex + o) % u.capacity + k := by
      rcases h with h | h | h
      · rw [Nat.mod_eq_of_lt (by omega), Nat.mod_eq_of_lt (by omega), Nat.add_assoc]
      · have hback : (u.readIndex + o) % u.capacity = u.readIndex + o - u.capacity := by
          rw [Nat.mod_eq_sub_mod h, Nat.mod_eq_of_lt (by omega)]
        rw [Nat.mod_eq_sub_mod (by omega), Nat.mod_eq_of_lt (by omega), hback]
        omega
      · omega
    have hlt := absStart_lt hi (o + k)
    rw [hhead, content_getElem? hk, hcell _ (by omega), cellAt, hend]

/-- Two junk bytes before the array's end and a frame behind it, whose header has a length byte. -/
theorem header_seen_front :
    let u := placed [1] [2] (some fun bytes => ⟨2, (bytes.getD 1 0).toUInt64, 1⟩) (some fun _ => true)
      [1, 1, 7, 2, 0, 0, 9, 9] (by decide) 6 6
    u.Inv ∧ (∀ dc, u.sizesAt dc 2 = dc (u.headBytes 2)) ∧
      ∀ k, 2 + k < u.length → (u.headBytes 2)[k]? = u.content[2 + k]? := by
  intro u
  have hi : u.Inv := placed_inv _ (by decide) (by decide)
  obtain ⟨hsees, hstored⟩ := header_seen_iff hi 2
  exact ⟨hi, hsees, hstored.2 (.inr (.inl (by decide)))⟩

/-- A header of two bytes from the array's last cell on: its head is found there, and
the callback sees one byte. -/
theorem header_cut_at_end :
    let u := placed [1] [2] (some fun _ => ⟨2, 0, 1⟩) (some fun _ => true) [5, 2, 0, 1] (by decide) 3 3
    u.Inv ∧ HeadAt (Loop.start u) 0 ∧ u.content = [1, 5, 2] ∧ u.headBytes 0 = [1] ∧
      ¬ ∀ k, 0 + k < u.length → (u.headBytes 0)[k]? = u.content[0 + k]? := by
  intro u
  have hi : u.Inv := placed_inv _ (by decide) (by decide)
  have hhead : u.findKey u.headKey 0 = .ok 0 :=
    findKey_reads hi (by decide) (by decide) (by decide) (by decide)
  refine ⟨hi, ⟨by decide, hhead, by decide⟩, by decide, by decide, fun h => ?_⟩
  exact absurd (h 1 (by decide)) (by decide)

end NebulaToolkit.UnPacker
