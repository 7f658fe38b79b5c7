import NebulaToolkit.Decode
/-!
# All the frames of a call

The mode with callbacks is meant to take every frame among the stored bytes:
behind a frame it goes on with the next byte, and one byte further on when a
head begins none (`RefScan`). The loop goes on twice the size of a frame
behind its head, since `current_pos` counts from the front that the commit
has just moved, and it compares the end of a frame with the bytes there were
at first (`Walk`). So a call is complete when no frame begins where it leaps
to, and it takes none that ends behind the stored bytes (`cb_complete_iff`).
-/

namespace NebulaToolkit.UnPacker

open Lib

variable {u : UnPacker} {dc : DataSzCb} {a b d p q : Nat} {as ws : List Nat}

/-! ## The reference -/

/-- The packet a head at offset `a` announces. -/
def packetOf (u : UnPacker) (dc : DataSzCb) (a : Nat) : List UInt8 :=
  (u.content.drop a).take (u.sizesAt dc a).sum

/-- A head stands at `a` and begins a frame: the sizes hold both keys, the frame lies
within the stored bytes, its tail key stands where they say, and the check accepts. -/
structure IsFrame (u : UnPacker) (dc : DataSzCb) (a : Nat) : Prop where
  head : OccursAt u.headKey u.content a
  headSize : u.headKey.length ≤ (u.sizesAt dc a).headSize.toNat
  tailSize : u.tailKey.length ≤ (u.sizesAt dc a).tailSize.toNat
  inside : a + (u.sizesAt dc a).sum ≤ u.length
  tail : OccursAt u.tailKey u.content (a + (u.sizesAt dc a).headSize.toNat + (u.sizesAt dc a).dataSize.toNat)
  check : u.checkSzCb.all (· (u.packetOf dc a)) = true

/-- The scan from offset `p` on, and where the frames it takes begin. -/
inductive RefScan (u : UnPacker) (dc : DataSzCb) : Nat → List Nat → Prop
  | stop {p : Nat} : first u.headKey u.content p = none → RefScan u dc p []
  | frame {p a : Nat} {as : List Nat} : first u.headKey u.content p = some a → u.IsFrame dc a →
      RefScan u dc (a + (u.sizesAt dc a).sum) as → RefScan u dc p (a :: as)
  | further {p a : Nat} {as : List Nat} : first u.headKey u.content p = some a → ¬ u.IsFrame dc a →
      RefScan u dc (a + 1) as → RefScan u dc p as

/-- The call returns the packets of the scan. -/
def Complete (u : UnPacker) (dc : DataSzCb) : Prop :=
  ∃ as v, u.RefScan dc 0 as ∧ u.Gets (as.map (u.packetOf dc)) v

/-! ## What the loop takes -/

/-- The cells from offset `a` on, stored or dead, as many as a head there announces. -/
def announced (u : UnPacker) (dc : DataSzCb) (a : Nat) : List UInt8 :=
  cyc u.buffer (u.readIndex + a) (u.sizesAt dc a).sum

/-- The loop takes a frame at `a` once `d` bytes were dropped: its end is compared with
the length there was at first, and its tail key may go on in dead cells. -/
structure Takes (u : UnPacker) (dc : DataSzCb) (d a : Nat) : Prop where
  head : OccursAt u.headKey u.content a
  headSize : u.headKey.length ≤ (u.sizesAt dc a).headSize.toNat
  tailSize : u.tailKey.length ≤ (u.sizesAt dc a).tailSize.toNat
  fits : a + (u.sizesAt dc a).sum ≤ d + u.length
  searched : d + u.tailKey.length ≤ u.length ∧
    a + (u.sizesAt dc a).headSize.toNat + (u.sizesAt dc a).dataSize.toNat < u.length
  tail : u.ReadsAt u.tailKey (a + (u.sizesAt dc a).headSize.toNat + (u.sizesAt dc a).dataSize.toNat)
  check : u.checkSzCb.all (· (u.announced dc a)) = true

/-- The loop from offset `p` on, once `d` bytes were dropped, and where the frames it
takes begin. -/
inductive Walk (u : UnPacker) (dc : DataSzCb) : Nat → Nat → List Nat → Prop
  | stop {d p : Nat} : first u.headKey u.content p = none → Walk u dc d p []
  | frame {d p a : Nat} {ws : List Nat} : first u.headKey u.content p = some a → u.Takes dc d a →
      a + (u.sizesAt dc a).sum ≤ u.length →
      Walk u dc (d + (u.sizesAt dc a).sum) (a + 2 * (u.sizesAt dc a).sum) ws →
      Walk u dc d p (a :: ws)
  | last {d p a : Nat} : first u.headKey u.content p = some a → u.Takes dc d a →
      u.length < a + (u.sizesAt dc a).sum → Walk u dc d p [a]
  | further {d p a : Nat} {ws : List Nat} : first u.headKey u.content p = some a → ¬ u.Takes dc d a →
      Walk u dc d (a + 1) ws → Walk u dc d p ws

theorem announced_inside (h : a + (u.sizesAt dc a).sum ≤ u.length) : u.announced dc a = u.packetOf dc a :=
  cyc_stored h

/-- Within the stored bytes the loop takes what the scan takes. -/
theorem takes_iff (ht : u.tailKey ≠ []) (hda : d ≤ a) (hin : a + (u.sizesAt dc a).sum ≤ u.length) :
    u.Takes dc d a ↔ u.IsFrame dc a := by
  have htp := List.length_pos_iff.2 ht
  unfold Sizes.sum at hin
  constructor
  · rintro ⟨hh, hhs, hts, -, -, htail, hc⟩
    refine ⟨hh, hhs, hts, hin, (readsAt_iff (by omega)).1 htail, ?_⟩
    rwa [← announced_inside hin]
  · rintro ⟨hh, hhs, hts, -, htail, hc⟩
    refine ⟨hh, hhs, hts, by unfold Sizes.sum; omega, by omega, (readsAt_iff (by omega)).2 htail, ?_⟩
    rwa [announced_inside hin]

theorem IsFrame.takes (h : u.IsFrame dc a) (ht : u.tailKey ≠ []) (hda : d ≤ a) : u.Takes dc d a :=
  (takes_iff ht hda h.inside).2 h

/-- The loop takes a frame that ends behind the stored bytes. -/
def Overruns (u : UnPacker) (dc : DataSzCb) (d a : Nat) : Prop :=
  u.Takes dc d a ∧ u.length < a + (u.sizesAt dc a).sum

/-- From offset `p` on, with `d` bytes dropped and the frames `as` ahead: the loop takes
no frame that ends behind the stored bytes, and none begins where it leaps to. -/
def Undisturbed (u : UnPacker) (dc : DataSzCb) : Nat → Nat → List Nat → Prop
  | d, p, [] => ∀ b, p ≤ b → ¬ u.Overruns dc d b
  | d, p, a :: as => (∀ b, p ≤ b → b < a → ¬ u.Overruns dc d b) ∧
      (∀ b, a + (u.sizesAt dc a).sum ≤ b → b < a + 2 * (u.sizesAt dc a).sum → ¬ u.IsFrame dc b) ∧
      Undisturbed u dc (d + (u.sizesAt dc a).sum) (a + 2 * (u.sizesAt dc a).sum) as

/-- It is so for the frames of the whole. -/
def InStep (u : UnPacker) (dc : DataSzCb) : Prop := ∃ as, u.RefScan dc 0 as ∧ u.Undisturbed dc 0 0 as

/-- No packet is met again: neither in a frame that begins within the one it is from, nor
in one that ends behind the stored bytes. -/
def NoEcho (u : UnPacker) (dc : DataSzCb) : Prop :=
  ∀ as, u.RefScan dc 0 as → ∀ a ∈ as, ∀ b, (a < b ∧ b < a + (u.sizesAt dc a).sum ∧ u.IsFrame dc b) ∨
    (∃ d, u.Overruns dc d b) → u.announced dc b ≠ u.packetOf dc a

/-! ## Passes of the loop -/

/-- What a pass of a call that sees the whole of `u` relies on. -/
structure Whole (u : UnPacker) (dc : DataSzCb) : Prop where
  inv : u.Inv
  linear : u.Linear 0
  headKey_ne : u.headKey ≠ []
  tailKey_ne : u.tailKey ≠ []
  sum_le : ∀ bytes, (dc bytes).sum ≤ 2 ^ 63
  turn : ∀ a, OccursAt u.headKey u.content a → u.capacity + a + (u.sizesAt dc a).sum < 2 ^ 64

theorem Whole.size_eq (hu : Whole u dc) (a : Nat) : (u.sizesAt dc a).sum ≤ 2 ^ 63 ∧
    packetSize (u.sizesAt dc a) = (u.sizesAt dc a).sum := by
  have hsum : (u.sizesAt dc a).sum ≤ 2 ^ 63 := hu.sum_le _
  exact ⟨hsum, packetSize_eq (Nat.lt_of_le_of_lt hsum (by omega))⟩

section
variable (hu : Whole u dc) (hd : d ≤ u.length) {cur o : Nat} {rd : List (List UInt8)}
  {r : List (List UInt8) × UnPacker}
include hu hd

/-- A key that is stored can be read again a turn later. -/
theorem Whole.again {key : List UInt8} (h0 : key ≠ []) (hocc : OccursAt key u.content a) :
    (u.commit d).ReadsAt key (u.capacity - d + a) ∧ a + key.length ≤ u.length := by
  have hb := hocc.bound h0
  rw [RingBuffer.content_length] at hb
  exact ⟨(commit_readsAt hu.inv hd key a).2 ((readsAt_iff hb).2 hocc), hb⟩

omit hd in
/-- Where a search for a head comes to, the reported sizes do not wrap. -/
theorem Whole.sum_lt (hdl : d ≤ u.length) (hocc : OccursAt u.headKey u.content a)
    (hle : o ≤ max u.capacity (u.capacity - d + a)) (hr : (u.commit d).ReadsAt u.headKey o) :
    o + ((u.commit d).sizesAt dc o).sum < 2 ^ 64 := by
  have hC := u.capacity_lt
  by_cases ho : o ≤ u.capacity
  · have := hu.sum_le ((u.commit d).buffer.drop (addSz (u.commit d).readIndex o % (u.commit d).capacity))
    unfold sizesAt
    omega
  -- A turn later it is the stored head `o - capacity` places behind the front.
  obtain ⟨b, rfl⟩ : ∃ b, o = u.capacity - d + b := ⟨o - (u.capacity - d), by omega⟩
  have hb := hocc.bound hu.headKey_ne
  rw [RingBuffer.content_length] at hb
  have hoccb : OccursAt u.headKey u.content b :=
    (readsAt_iff (by omega)).1 ((commit_readsAt hu.inv hdl _ b).1 hr)
  have hturn := hu.turn b hoccb
  have hlin := hu.linear
  have hlin' := hu.linear.commit hu.inv hdl
  unfold Linear at hlin hlin'
  rw [commit_capacity, commit_length hu.inv hdl] at hlin'
  have hsame : (u.commit d).sizesAt dc (u.capacity - d + b) = u.sizesAt dc b := by
    have h1 : addSz (u.commit d).readIndex (u.capacity - d + b) =
        (u.commit d).readIndex + (u.capacity - d + b) :=
      wadd_of_lt (by omega)
    have h2 : addSz u.readIndex b = u.readIndex + b := wadd_of_lt (by omega)
    rw [sizesAt, sizesAt, h1, h2, commit_readIndex_add hu.inv hdl, commit_buffer,
      show u.readIndex + (d + (u.capacity - d + b)) =
      u.capacity + (u.readIndex + b) by omega, Nat.add_mod_left]
  rw [hsame]
  omega

/-- Behind the last head the loop takes nothing. What it may come to are heads that end
in dead cells, and heads in front that it meets again a turn later. -/
theorem Whole.pass_end (hnone : first u.headKey u.content (d + cur) = none)
    (hmet : d + cur = 0 ∨ ∃ a, OccursAt u.headKey u.content a) :
    CbRun dc u.checkSzCb (u.commit d) cur u.length rd (rd, u.commit d) := by
  have hi' := commit_inv hu.inv d
  have hlin' := hu.linear.commit hu.inv hd
  have hlen : (u.commit d).length = u.length - d := commit_length hu.inv hd
  have hl := hu.inv.length_le
  have hC := u.capacity_lt
  have htp := List.length_pos_iff.2 hu.tailKey_ne
  induction hk : u.length - cur using Nat.strong_induction_on generalizing cur with
  | _ n ih =>
  have hmiss : first u.headKey (u.commit d).content cur = none := by
    rw [commit_content hu.inv hd]
    exact (first_none_drop hu.headKey_ne).2 hnone
  by_cases hok : (u.commit d).SearchOk u.headKey cur
  · refine CbRun.noHead ((findKey_ok hi' hu.headKey_ne hok).trans ?_)
    rw [hmiss]
    rfl
  simp only [SearchOk, not_or, Nat.not_le, Nat.not_lt] at hok
  obtain ⟨hcur, hkl, hshort⟩ := hok
  have hp : ¬ u.headKey.length ≤ (u.commit d).part1 cur := fun hp => by
    rw [if_pos hp] at hshort
    exact hshort (hlin'.unbroken hu.headKey_ne)
  rw [hlin'.part1 hcur] at hp
  obtain ⟨a, hocc⟩ := hmet.resolve_left (by omega)
  obtain ⟨hagain, hb⟩ := hu.again hd hu.headKey_ne hocc
  have hm := hlin'.start_eq hcur
  have hr' := hi'.read_lt
  have hlin := hlin'
  unfold Linear at hlin
  rw [commit_capacity] at hr' hlin
  have hread : cur < (u.commit d).length →
      (u.commit d).ReadsAt u.headKey (cur + (u.capacity - d + a - cur)) :=
    fun _ => by rwa [Nat.add_sub_cancel' (by omega)]
  obtain ⟨o, ho, hle, hwhere, hfirst⟩ :=
    findKey_after hi' hu.headKey_ne (fun _ => hlin'.unbroken hu.headKey_ne)
    (by rw [hm]; omega) (by omega) hread
  rw [commit_capacity, Nat.add_sub_cancel' (by omega)] at hle
  rw [hmiss] at hfirst
  by_cases hne : o = (u.commit d).capacity
  · exact CbRun.noHead (hne ▸ ho)
  obtain ⟨-, hbehind⟩ := hfirst.resolve_left (by simp)
  obtain ⟨hco, hro, -⟩ := hwhere.resolve_left hne
  have hsum := hu.sum_lt hd hocc hle hro
  have hnext : CbRun dc u.checkSzCb (u.commit d) (addSz o 1) u.length rd (rd, u.commit d) := by
    rw [show addSz o 1 = o + 1 from wadd_of_lt (by omega)]
    exact ih _ (by omega) (first_none_later hu.headKey_ne hnone (by omega)) (.inr ⟨a, hocc⟩) rfl
  by_cases hs : SizesFit (u.commit d) ((u.commit d).sizesAt dc o) o u.length
  swap
  · exact CbRun.badSizes (by omega) ho hne hs hnext
  refine CbRun.unstoredTail (by omega) ho hne hu.tailKey_ne hs hsum (by rw [commit_capacity]; omega) ?_ hnext
  have hhs := hs.1
  unfold Sizes.sum at hsum
  rw [commit_headKey] at hhs
  rw [tailAt_eq (by omega)]
  omega

/-- The search for the tail of a head at `o`, when the loop makes one. -/
theorem Whole.tail_search (hmet : d = 0 ∨ ∃ t, OccursAt u.tailKey u.content t)
    (hts : u.tailKey.length ≤ (u.sizesAt dc (d + o)).tailSize.toNat)
    (hfit : o + (u.sizesAt dc (d + o)).sum ≤ u.length) :
    ∃ t, (u.commit d).findKey u.tailKey (tailAt (u.sizesAt dc (d + o)) o) = .ok t ∧
      (t = tailAt (u.sizesAt dc (d + o)) o ↔
        (d + u.tailKey.length ≤ u.length ∧
          d + o + (u.sizesAt dc (d + o)).headSize.toNat + (u.sizesAt dc (d + o)).dataSize.toNat < u.length) ∧
        u.ReadsAt u.tailKey
          (d + o + (u.sizesAt dc (d + o)).headSize.toNat + (u.sizesAt dc (d + o)).dataSize.toNat)) := by
  have hi' := commit_inv hu.inv d
  have hlin' := hu.linear.commit hu.inv hd
  have hlen : (u.commit d).length = u.length - d := commit_length hu.inv hd
  have hl := hu.inv.length_le
  have hC := u.capacity_lt
  have htp := List.length_pos_iff.2 hu.tailKey_ne
  generalize u.sizesAt dc (d + o) = s at *
  unfold Sizes.sum at hfit
  rw [tailAt_eq (s := s) (by omega), show d + o + s.headSize.toNat + s.dataSize.toNat =
    d + (o + s.headSize.toNat + s.dataSize.toNat) by omega]
  generalize hte : o + s.headSize.toNat + s.dataSize.toNat = te
  by_cases hg : (u.commit d).length < u.tailKey.length ∨ (u.commit d).length ≤ te
  · refine ⟨_, findKey_refused (.inr hg), iff_of_false ?_ ?_⟩
    · rw [commit_capacity]
      omega
    · rintro ⟨⟨h1, h2⟩, -⟩
      omega
  simp only [not_or, Nat.not_lt, Nat.not_le] at hg
  have hsearched : d + u.tailKey.length ≤ u.length ∧ d + te < u.length := by omega
  have hx : u.tailKey.length ≤ (u.commit d).part1 te ∨
      ∃ x, te ≤ x ∧ x + (u.commit d).readIndex + u.tailKey.length ≤ 2 ^ 64 ∧
      (u.commit d).ReadsAt u.tailKey x := by
    rw [hlin'.part1 hg.2]
    by_cases hd0 : d = 0
    · exact .inl (by omega)
    · obtain ⟨t, hocc⟩ := hmet.resolve_left hd0
      obtain ⟨hagain, hb⟩ := hu.again hd hu.tailKey_ne hocc
      unfold Linear at hlin'
      rw [commit_capacity] at hlin'
      exact .inr ⟨_, by omega, by omega, hagain⟩
  obtain ⟨t, hft, hiff⟩ := findKey_there hi' hg.2 hg.1 hu.tailKey_ne hx
  exact ⟨t, hft, hiff.trans ((commit_readsAt_add hu.inv hd _ _).trans (and_iff_right hsearched).symm)⟩

section
variable (hf : first u.headKey u.content (d + cur) = some (d + o))
include hf

/-- What holds at a stored head that a pass has found. -/
theorem Whole.found : OccursAt u.headKey u.content (d + o) ∧ cur ≤ o ∧ d + o + u.headKey.length ≤ u.length ∧
    (u.commit d).findKey (u.commit d).headKey cur = .ok o ∧
    (u.commit d).sizesAt dc o = u.sizesAt dc (d + o) := by
  have hi' := commit_inv hu.inv d
  obtain ⟨hco, hocc, -⟩ := (first_eq_some hu.headKey_ne).1 hf
  have hb := hocc.bound hu.headKey_ne
  rw [RingBuffer.content_length] at hb
  have hlen : (u.commit d).length = u.length - d := commit_length hu.inv hd
  have hok : (u.commit d).SearchOk u.headKey cur :=
    (hu.linear.commit hu.inv hd).searchOk hu.headKey_ne fun _ _ => by omega
  refine ⟨hocc, by omega, hb, ?_, commit_sizesAt hu.inv dc (by omega)⟩
  rw [commit_headKey, findKey_ok hi' hu.headKey_ne hok, commit_content hu.inv hd,
    (first_drop hu.headKey_ne).2 hf]
  rfl

/-- The packet that is copied for it. -/
theorem Whole.copied (hfit : d + o + (u.sizesAt dc (d + o)).sum ≤ d + u.length) :
    (u.commit d).copyPacket o (u.sizesAt dc (d + o)).sum = .ok (u.announced dc (d + o)) := by
  have hl := hu.inv.length_le
  obtain ⟨-, -, hb, -⟩ := hu.found hd hf
  have hkp := List.length_pos_iff.2 hu.headKey_ne
  have hlen : (u.commit d).length = u.length - d := commit_length hu.inv hd
  have hstart := commit_readIndex_add hu.inv hd o
  rw [commit_capacity] at hstart
  rw [copyPacket_cyc (commit_inv hu.inv d) (by omega) (by rw [commit_capacity]; omega), commit_buffer,
    ← cyc_mod]
  show _ = Except.ok (cyc u.buffer (u.readIndex + (d + o)) _)
  rw [← cyc_mod u.buffer (u.readIndex + (d + o))]
  exact congrArg (fun i => Except.ok (cyc u.buffer i (u.sizesAt dc (d + o)).sum)) hstart

/-- A frame that the loop takes is handed out. -/
theorem Whole.pass_takes (ht : u.Takes dc d (d + o))
    (h : CbRun dc u.checkSzCb ((u.commit d).commit (u.sizesAt dc (d + o)).sum)
      (o + (u.sizesAt dc (d + o)).sum) u.length (rd ++ [u.announced dc (d + o)]) r) :
    CbRun dc u.checkSzCb (u.commit d) cur u.length rd r := by
  have hl := hu.inv.length_le
  have hC := u.capacity_lt
  obtain ⟨-, hco, hb, hfind, hsame⟩ := hu.found hd hf
  obtain ⟨-, hhs, hts, hfit, hsearched, htail, hc⟩ := ht
  obtain ⟨hsum, hsize⟩ := hu.size_eq (d + o)
  have hadd : addSz o (u.sizesAt dc (d + o)).sum = o + (u.sizesAt dc (d + o)).sum := wadd_of_lt (by omega)
  have hte := tailAt_eq (s := u.sizesAt dc (d + o)) (o := o) (by omega)
  have hto : (u.commit d).findKey u.tailKey (tailAt (u.sizesAt dc (d + o)) o) =
      .ok (tailAt (u.sizesAt dc (d + o)) o) := by
    refine findKey_reads (commit_inv hu.inv d) hu.tailKey_ne ?_ ?_ ?_
    · rw [commit_length hu.inv hd, hte]
      omega
    · rw [commit_length hu.inv hd]
      omega
    · rwa [commit_readsAt_add hu.inv hd, hte, ← Nat.add_assoc, ← Nat.add_assoc]
  refine CbRun.packet (by omega) hfind (by rw [commit_capacity]; omega) ?_ ?_ ?_ hc ?_
  · rw [hsame]
    exact ⟨hhs, hts, by rw [hsize, hadd]; omega⟩
  · rw [hsame]
    exact hto
  · rw [hsame, hsize]
    exact hu.copied hd hf hfit
  · rw [hsame, hsize, hadd]
    exact h

/-- A head that begins none is passed over. -/
theorem Whole.pass_over (hmet : d = 0 ∨ ∃ t, OccursAt u.tailKey u.content t) (ht : ¬ u.Takes dc d (d + o))
    (h : CbRun dc u.checkSzCb (u.commit d) (o + 1) u.length rd r) :
    CbRun dc u.checkSzCb (u.commit d) cur u.length rd r := by
  have hl := hu.inv.length_le
  have hC := u.capacity_lt
  obtain ⟨hocc, hco, hb, hfind, hsame⟩ := hu.found hd hf
  have hkp := List.length_pos_iff.2 hu.headKey_ne
  obtain ⟨hsum, hsize⟩ := hu.size_eq (d + o)
  have hadd : addSz o (u.sizesAt dc (d + o)).sum = o + (u.sizesAt dc (d + o)).sum := wadd_of_lt (by omega)
  have hne : o ≠ (u.commit d).capacity := by
    rw [commit_capacity]
    omega
  rw [show o + 1 = addSz o 1 from (wadd_of_lt (by omega)).symm] at h
  by_cases hs : SizesFit (u.commit d) ((u.commit d).sizesAt dc o) o u.length
  swap
  · exact CbRun.badSizes (by omega) hfind hne hs h
  have hs' := hs
  rw [hsame] at hs'
  obtain ⟨hhs, hts, hfit⟩ := hs'
  rw [hsize, hadd] at hfit
  obtain ⟨t, hft, hiff⟩ := hu.tail_search hd hmet hts hfit
  by_cases hte : t = tailAt (u.sizesAt dc (d + o)) o
  swap
  · exact CbRun.badTail (by omega) hfind hne hs (by rw [hsame]; exact hft) (by rw [hsame]; exact hte) h
  obtain ⟨hsearched, htail⟩ := hiff.1 hte
  have hcopy := hu.copied hd hf (show d + o + _ ≤ _ by omega)
  have hc : u.checkSzCb.all (· (u.announced dc (d + o))) = false := by
    rw [← Bool.not_eq_true]
    exact fun hc => ht ⟨hocc, hhs, hts, by omega, hsearched, htail, hc⟩
  refine CbRun.badCheck (by omega) hfind hne hs ?_ ?_ hc h
  · rw [hsame, commit_tailKey, hft, hte]
  · rw [hsame, hsize]
    exact hcopy

end

end

/-- The loop takes the frames of its walk, and hands out the cells they announce. -/
theorem Walk.run (hu : Whole u dc) (h : u.Walk dc d p ws) : ∀ cur, p = d + cur → d ≤ u.length →
    (p = 0 ∨ ∃ a, OccursAt u.headKey u.content a) → (d = 0 ∨ ∃ t, OccursAt u.tailKey u.content t) →
    ∀ rd, ∃ v, CbRun dc u.checkSzCb (u.commit d) cur u.length rd (rd ++ ws.map (u.announced dc), v) := by
  have behind {d cur a : Nat} (hf : first u.headKey u.content (d + cur) = some a) : ∃ o, a = d + o :=
    ⟨a - d, by have := ((first_eq_some hu.headKey_ne).1 hf).1; omega⟩
  induction h with
  | stop hnone =>
    rintro cur rfl hd hmet - rd
    rw [List.map_nil, List.append_nil]
    exact ⟨_, hu.pass_end hd hnone hmet⟩
  | @frame d p a ws hf ht hin _ ih =>
    rintro cur rfl hd - - rd
    obtain ⟨o, rfl⟩ := behind hf
    have hframe := (takes_iff hu.tailKey_ne (Nat.le_add_right _ _) hin).1 ht
    obtain ⟨v, hv⟩ := ih (o + (u.sizesAt dc (d + o)).sum) (by omega) (by omega) (.inr ⟨_, hframe.head⟩)
      (.inr ⟨_, hframe.tail⟩) (rd ++ [u.announced dc (d + o)])
    rw [List.append_assoc] at hv
    refine ⟨v, hu.pass_takes hd hf ht ?_⟩
    rwa [commit_commit hu.inv (by omega)]
  | @last d p a hf ht hout =>
    rintro cur rfl hd - - rd
    obtain ⟨o, rfl⟩ := behind hf
    refine ⟨_, hu.pass_takes hd hf ht (CbRun.noHead (findKey_refused (.inr (.inr ?_))))⟩
    have hle := commit_length_le (commit_inv hu.inv d) (u.sizesAt dc (d + o)).sum
    rw [commit_length hu.inv hd] at hle
    omega
  | @further d p a ws hf ht _ ih =>
    rintro cur rfl hd - hmet rd
    obtain ⟨o, rfl⟩ := behind hf
    obtain ⟨v, hv⟩ := ih (o + 1) (by omega) hd (.inr ⟨_, (hu.found hd hf).1⟩) hmet rd
    exact ⟨v, hu.pass_over hd hf hmet ht hv⟩

/-- What a call on the whole of `u` hands out. -/
theorem Walk.gets (hu : Whole u dc) (hm : u.unpackerModel = .kHeadTailCb) (hdc : u.dataSzCb = some dc)
    (h : u.Walk dc 0 0 ws) :
    ∃ v, u.Gets (ws.map (u.announced dc)) v := by
  obtain ⟨v, hv⟩ := h.run hu 0 rfl (Nat.zero_le _) (.inl rfl) (.inl rfl) []
  rw [commit_zero hu.inv, List.nil_append] at hv
  refine ⟨v, gets_iff.2 ?_⟩
  unfold Packs
  rw [hm]
  exact ⟨dc, hdc, hv⟩

/-! ## The two scans -/

section
variable (hh : u.headKey ≠ [])
include hh

theorem first_within (hf : first u.headKey u.content p = some a) :
    p ≤ a ∧ a + u.headKey.length ≤ u.length := by
  obtain ⟨hpa, hocc, -⟩ := (first_eq_some hh).1 hf
  have hb := hocc.bound hh
  rw [RingBuffer.content_length] at hb
  exact ⟨hpa, hb⟩

theorem sum_pos (hs : u.headKey.length ≤ (u.sizesAt dc a).headSize.toNat) : 0 < (u.sizesAt dc a).sum := by
  have hkp := List.length_pos_iff.2 hh
  unfold Sizes.sum
  omega

theorem exists_walk (d p : Nat) : ∃ ws, u.Walk dc d p ws := by
  have hkp := List.length_pos_iff.2 hh
  induction hn : u.length - p using Nat.strong_induction_on generalizing d p with
  | _ n ih =>
  cases hf : first u.headKey u.content p with
  | none => exact ⟨[], .stop hf⟩
  | some a =>
    obtain ⟨hpa, hb⟩ := first_within hh hf
    by_cases ht : u.Takes dc d a
    · by_cases hin : a + (u.sizesAt dc a).sum ≤ u.length
      · have hpos := sum_pos hh ht.headSize
        obtain ⟨ws, hw⟩ := ih _ (by omega) (d + (u.sizesAt dc a).sum) (a + 2 * (u.sizesAt dc a).sum) rfl
        exact ⟨_, .frame hf ht hin hw⟩
      · exact ⟨_, .last hf ht (Nat.not_le.1 hin)⟩
    · obtain ⟨ws, hw⟩ := ih _ (by omega) d (a + 1) rfl
      exact ⟨_, .further hf ht hw⟩

theorem exists_refScan (p : Nat) : ∃ as, u.RefScan dc p as := by
  have hkp := List.length_pos_iff.2 hh
  induction hn : u.length - p using Nat.strong_induction_on generalizing p with
  | _ n ih =>
  cases hf : first u.headKey u.content p with
  | none => exact ⟨[], .stop hf⟩
  | some a =>
    obtain ⟨hpa, hb⟩ := first_within hh hf
    by_cases ha : u.IsFrame dc a
    · have hpos := sum_pos hh ha.headSize
      obtain ⟨as, has⟩ := ih _ (by omega) (a + (u.sizesAt dc a).sum) rfl
      exact ⟨_, .frame hf ha has⟩
    · obtain ⟨as, has⟩ := ih _ (by omega) (a + 1) rfl
      exact ⟨_, .further hf ha has⟩

/-- Heads only are taken, so nothing is before the first of them. -/
theorem not_until {P : Nat → Prop} (hP : ∀ b, P b → OccursAt u.headKey u.content b)
    (hf : first u.headKey u.content p = some a) (hna : ¬ P a) {b : Nat} (hpb : p ≤ b) (hba : b ≤ a) :
    ¬ P b := by
  intro hb
  by_cases hlt : b < a
  · exact ((first_eq_some hh).1 hf).2.2 b hpb hlt (hP b hb)
  · obtain rfl : b = a := by omega
    exact hna hb

omit hh in
/-- Nothing up to `a` and nothing behind it. -/
theorem not_on {P Q : Nat → Prop} (huntil : ∀ b, p ≤ b → b ≤ a → ¬ P b)
    (hbehind : ∀ b, a + 1 ≤ b → Q b → ¬ P b) :
    ∀ b, p ≤ b → Q b → ¬ P b := by
  intro b hpb hb
  by_cases hba : b ≤ a
  · exact huntil b hpb hba
  · exact hbehind b (by omega) hb

omit hh in
theorem RefScan.isFrame (h : u.RefScan dc p as) : ∀ a ∈ as, u.IsFrame dc a := by
  induction h with
  | stop => exact fun a ha => absurd ha List.not_mem_nil
  | frame _ ha _ ih => exact List.forall_mem_cons.2 ⟨ha, ih⟩
  | further _ _ _ ih => exact ih

omit hh in
/-- A scan has one result ... -/
theorem RefScan.unique (h : u.RefScan dc p as) {bs : List Nat} (h' : u.RefScan dc p bs) : as = bs := by
  induction h generalizing bs with
  | stop hn =>
    cases h' with
    | stop => rfl
    | frame hf | further hf => cases hn.symm.trans hf
  | frame hf ha _ ih =>
    cases h' with
    | stop hn => cases hn.symm.trans hf
    | frame hf' _ hr =>
      cases hf.symm.trans hf'
      rw [ih hr]
    | further hf' hna =>
      cases hf.symm.trans hf'
      exact absurd ha hna
  | further hf hna _ ih =>
    cases h' with
    | stop hn => cases hn.symm.trans hf
    | frame hf' ha =>
      cases hf.symm.trans hf'
      exact absurd ha hna
    | further hf' _ hr =>
      cases hf.symm.trans hf'
      exact ih hr

/-- ... and takes the first frame there is, wherever it starts. -/
theorem RefScan.view (h : u.RefScan dc p as) : match as with
    | [] => ∀ b, p ≤ b → ¬ u.IsFrame dc b
    | a :: as => p ≤ a ∧ u.IsFrame dc a ∧ (∀ b, p ≤ b → b < a → ¬ u.IsFrame dc b) ∧
        u.RefScan dc (a + (u.sizesAt dc a).sum) as := by
  induction h with
  | stop hn => exact fun b hpb hb => (first_eq_none hh).1 hn b hpb hb.head
  | frame hf ha hr =>
    obtain ⟨hpa, -, hmin⟩ := (first_eq_some hh).1 hf
    exact ⟨hpa, ha, fun b hpb hba hb => hmin b hpb hba hb.head, hr⟩
  | @further p a as hf hna _ ih =>
    have hpa := (first_within hh hf).1
    have hno (b : Nat) : p ≤ b → b ≤ a → ¬ u.IsFrame dc b := not_until hh (fun b hb => hb.head) hf hna
    cases as with
    | nil =>
      have hall := not_on (Q := fun _ => True) hno fun b hab _ => ih b hab
      exact fun b hpb => hall b hpb trivial
    | cons c as =>
      obtain ⟨hac, hc, hskip, hr⟩ := ih
      exact ⟨by omega, hc, not_on hno hskip, hr⟩

/-- The same of the loop. -/
theorem Walk.view (h : u.Walk dc d p ws) : match ws with
    | [] => ∀ b, p ≤ b → ¬ u.Takes dc d b
    | w :: ws => p ≤ w ∧ u.Takes dc d w ∧ (∀ b, p ≤ b → b < w → ¬ u.Takes dc d b) ∧
        (w + (u.sizesAt dc w).sum ≤ u.length ∧
            u.Walk dc (d + (u.sizesAt dc w).sum) (w + 2 * (u.sizesAt dc w).sum) ws ∨
          u.length < w + (u.sizesAt dc w).sum ∧ ws = []) := by
  induction h with
  | stop hn => exact fun b hpb hb => (first_eq_none hh).1 hn b hpb hb.head
  | frame hf ht hin hr =>
    obtain ⟨hpa, -, hmin⟩ := (first_eq_some hh).1 hf
    exact ⟨hpa, ht, fun b hpb hba hb => hmin b hpb hba hb.head, .inl ⟨hin, hr⟩⟩
  | last hf ht hout =>
    obtain ⟨hpa, -, hmin⟩ := (first_eq_some hh).1 hf
    exact ⟨hpa, ht, fun b hpb hba hb => hmin b hpb hba hb.head, .inr ⟨hout, rfl⟩⟩
  | @further d p a ws hf hna _ ih =>
    have hpa := (first_within hh hf).1
    have hno (b : Nat) : p ≤ b → b ≤ a → ¬ u.Takes dc d b := not_until hh (fun b hb => hb.head) hf hna
    cases ws with
    | nil =>
      have hall := not_on (Q := fun _ => True) hno fun b hab _ => ih b hab
      exact fun b hpb => hall b hpb trivial
    | cons c ws =>
      obtain ⟨hac, hc, hskip, hr⟩ := ih
      exact ⟨by omega, hc, not_on hno hskip, hr⟩

variable (ht : u.tailKey ≠ [])
include ht

/-- The loop takes the frames of the scan, and no others, just when nothing disturbs it. -/
theorem walk_eq_iff (hr : u.RefScan dc p as) (hw : u.Walk dc d q ws) (hpq : p ≤ q) (hdq : d ≤ q)
    (hskip : ∀ b, p ≤ b → b < q → ¬ u.IsFrame dc b) : ws = as ↔ u.Undisturbed dc d q as := by
  induction as generalizing d p q ws with
  | nil =>
    have hno : ∀ b, p ≤ b → ¬ u.IsFrame dc b := hr.view hh
    rw [Undisturbed]
    constructor
    · rintro rfl b hqb ⟨hb, -⟩
      exact hw.view hh b hqb hb
    · intro hund
      cases ws with
      | nil => rfl
      | cons w ws =>
        obtain ⟨hqw, htw, -, ⟨hin, -⟩ | ⟨hout, -⟩⟩ := hw.view hh
        · exact absurd ((takes_iff ht (by omega) hin).1 htw) (hno w (by omega))
        · exact absurd ⟨htw, hout⟩ (hund w hqw)
  | cons a as ih =>
    obtain ⟨hpa, ha, hmin, hr'⟩ := hr.view hh
    have hqa : q ≤ a := by
      by_contra hlt
      exact hskip a hpa (by omega) ha
    have hta := ha.takes ht (hdq.trans hqa)
    rw [Undisturbed]
    constructor
    · rintro rfl
      obtain ⟨-, -, hbefore, ⟨-, hw'⟩ | ⟨hout, -⟩⟩ := hw.view hh
      swap
      · exact absurd ha.inside (by omega)
      have hleap (b : Nat) (h₁ : a + (u.sizesAt dc a).sum ≤ b) (h₂ : b < a + 2 * (u.sizesAt dc a).sum) :
          ¬ u.IsFrame dc b := by
        cases as with
        | nil => exact hr'.view hh b h₁
        | cons c as => exact (hr'.view hh).2.2.1 b h₁ (by have := (hw'.view hh).1; omega)
      exact ⟨fun b hqb hba hb => hbefore b hqb hba hb.1, hleap,
        (ih hr' hw' (by omega) (by omega) hleap).1 rfl⟩
    · rintro ⟨hnone, hleap, hund⟩
      cases ws with
      | nil => exact absurd hta (hw.view hh a hqa)
      | cons w ws =>
        obtain ⟨hqw, htw, hbefore, hnext⟩ := hw.view hh
        have hwa : w ≤ a := by
          by_contra hlt
          exact hbefore a hqa (by omega) hta
        have hin : w + (u.sizesAt dc w).sum ≤ u.length := by
          by_contra hout
          by_cases hlt : w < a
          · exact hnone w hqw hlt ⟨htw, by omega⟩
          · obtain rfl : w = a := by omega
            exact hout ha.inside
        obtain rfl : w = a := by
          by_contra hne
          exact hmin w (by omega) (by omega) ((takes_iff ht (by omega) hin).1 htw)
        obtain ⟨-, hw'⟩ := hnext.resolve_right fun h => absurd h.1 (by omega)
        rw [(ih hr' hw' (by omega) (by omega) hleap).2 hund]

/-- Without echoes the loop hands out the packets of the scan only by taking its frames. -/
theorem same_frames (hr : u.RefScan dc p as) (hw : u.Walk dc d q ws) (hpq : p ≤ q) (hdq : d ≤ q)
    (hecho : ∀ a ∈ as, ∀ b,
      (a < b ∧ b < a + (u.sizesAt dc a).sum ∧ u.IsFrame dc b) ∨ (∃ d, u.Overruns dc d b) →
        u.announced dc b ≠ u.packetOf dc a)
    (heq : ws.map (u.announced dc) = as.map (u.packetOf dc)) : ws = as := by
  induction as generalizing d p q ws with
  | nil => exact List.map_eq_nil_iff.1 heq
  | cons a as ih =>
    cases ws with
    | nil => cases heq
    | cons w ws =>
      rw [List.map_cons, List.map_cons, List.cons.injEq] at heq
      obtain ⟨hsame, heq⟩ := heq
      obtain ⟨hpa, ha, hmin, hr'⟩ := hr.view hh
      obtain ⟨hqw, htw, -, ⟨hin, hw'⟩ | ⟨hout, -⟩⟩ := hw.view hh
      swap
      · exact absurd hsame (hecho a List.mem_cons_self w (.inr ⟨d, htw, hout⟩))
      have hframe := (takes_iff ht (hdq.trans hqw) hin).1 htw
      have hecho' : ∀ c ∈ as, _ := fun c hc => hecho c (List.mem_cons_of_mem _ hc)
      have haw : a ≤ w := by
        by_contra hlt
        exact hmin w (by omega) (by omega) hframe
      have hsize : (u.sizesAt dc w).sum = (u.sizesAt dc a).sum := by
        have hlen := congrArg List.length hsame
        have hle := ha.inside
        rw [announced, cyc_length, packetOf, List.length_take, List.length_drop,
          RingBuffer.content_length] at hlen
        omega
      by_cases hne : w = a
      · subst hne
        rw [ih hr' hw' (by omega) (by omega) hecho' heq]
      by_cases hover : w < a + (u.sizesAt dc a).sum
      · exact absurd hsame (hecho a List.mem_cons_self w (.inl ⟨by omega, hover, hframe⟩))
      -- Behind the frame the scan takes no later one than the loop has taken already.
      have htail := ih hr' hw' (by omega) (by omega) hecho' heq
      subst htail
      cases ws with
      | nil => exact absurd hframe (hr'.view hh w (by omega))
      | cons c ws =>
        have hc := (hw'.view hh).1
        have hcw : ¬ w < c := fun h => (hr'.view hh).2.2.1 w (by omega) h hframe
        have hpos := sum_pos hh htw.headSize
        omega

end

/-- A call is complete when nothing disturbs it, and, where no packet is met again, only then. -/
theorem cb_complete_iff (hm : u.unpackerModel = .kHeadTailCb) (hdc : u.dataSzCb = some dc) (hi : u.Inv)
    (hlin : u.Linear 0) (hsum : ∀ bytes, (dc bytes).sum ≤ 2 ^ 63)
    (hturn : ∀ a, OccursAt u.headKey u.content a → u.capacity + a + (u.sizesAt dc a).sum < 2 ^ 64) :
    (u.InStep dc → u.Complete dc) ∧ (u.NoEcho dc → (u.Complete dc ↔ u.InStep dc)) := by
  have hh : u.headKey ≠ [] := headKey_ne (by rw [hm]; decide)
  have ht := tailKey_ne hm
  have hu : Whole u dc := ⟨hi, hlin, hh, ht, hsum, hturn⟩
  obtain ⟨as, hr⟩ : ∃ as, u.RefScan dc 0 as := exists_refScan hh 0
  obtain ⟨ws, hw⟩ : ∃ ws, u.Walk dc 0 0 ws := exists_walk hh 0 0
  obtain ⟨v, hv⟩ := hw.gets hu hm hdc
  have hiff : ws = as ↔ u.Undisturbed dc 0 0 as :=
    walk_eq_iff hh ht hr hw (Nat.le_refl _) (Nat.le_refl _) fun b _ hb => by omega
  have hstep : u.InStep dc ↔ ws = as := by
    rw [hiff]
    constructor
    · rintro ⟨as', hr', hund⟩
      rwa [hr.unique hr']
    · exact fun hund => ⟨as, hr, hund⟩
  have hcomplete : u.Complete dc ↔ ws.map (u.announced dc) = as.map (u.packetOf dc) := by
    constructor
    · rintro ⟨as', v', hr', hv'⟩
      rw [hr.unique hr', (hv.unique hv').1]
    · intro heq
      exact ⟨as, v, hr, heq ▸ hv⟩
  have henough : u.InStep dc → u.Complete dc := by
    rw [hstep, hcomplete]
    rintro rfl
    exact List.map_congr_left fun a ha => announced_inside (hr.isFrame a ha).inside
  refine ⟨henough, fun hecho => ⟨fun h => ?_, henough⟩⟩
  exact hstep.2 (same_frames hh ht hr hw (Nat.le_refl _) (Nat.le_refl _) (hecho as hr) (hcomplete.1 h))

/-- Two frames with as many bytes between them as the first one has: both are returned. -/
theorem cb_complete_apart :
    let u := (createWithCallbacks [1] [2] (some threeBytes) (some fun _ => true) 16 (by decide)).writeRing
      [1, 7, 2, 9, 9, 9, 1, 8, 2]
    u.Inv ∧ u.Linear 0 ∧ u.RefScan threeBytes 0 [0, 6] ∧ u.Complete threeBytes := by
  intro u
  have hi₀ := create_inv [1] [2] (some threeBytes) (some fun _ => true) (c := 16) (by decide) (by decide)
  have hi : u.Inv := writeRing_inv hi₀ _
  have hlin : u.Linear 0 :=
    Linear.writeRing hi₀ (by decide) (create_linear [1] [2] _ _ (by decide) (by decide))
  have hbound (b : Nat) (hb : OccursAt u.headKey u.content b) : b + 1 ≤ 9 := hb.bound (by decide)
  have hfirst : u.IsFrame threeBytes 0 := ⟨by decide, by decide, by decide, by decide, by decide, by decide⟩
  have hsecond : u.IsFrame threeBytes 6 := ⟨by decide, by decide, by decide, by decide, by decide, by decide⟩
  have hscan : u.RefScan threeBytes 0 [0, 6] :=
    .frame (by decide) hfirst (.frame (by decide) hsecond (.stop (by decide)))
  have hstep : u.InStep threeBytes := by
    refine ⟨[0, 6], hscan, fun b _ hb => absurd hb (by omega), fun b h₁ h₂ hb => ?_,
      fun b h₁ h₂ => ?_, ?_⟩
    · have h₁ : 3 ≤ b := h₁
      have h₂ : b < 6 := h₂
      have hocc := hb.head
      clear hb
      obtain rfl | rfl | rfl : b = 3 ∨ b = 4 ∨ b = 5 := by omega
      all_goals exact absurd hocc (by decide)
    · have h₁ : 6 ≤ b := h₁
      omega
    · refine ⟨fun b h₁ h₂ hb => ?_, fun b h₁ hb => ?_⟩
      · have h₁ : 9 ≤ b := h₁
        have := hbound b hb.head
        omega
      · have h₁ : 12 ≤ b := h₁
        have := hbound b hb.1.head
        omega
  refine ⟨hi, hlin, hscan, (cb_complete_iff rfl rfl hi hlin (fun _ => ?_) fun a ha => ?_).1 hstep⟩
  · show (⟨1, 1, 1⟩ : Sizes).sum ≤ 2 ^ 63
    decide
  · have := hbound a ha
    show 16 + a + 3 < 2 ^ 64
    omega

/-- Two frames one behind the other: the loop leaps over the second one. -/
theorem second_frame_leapt :
    let u := threes.writeRing [1, 7, 2, 1, 8, 2]
    u.Inv ∧ u.Linear 0 ∧ u.RefScan threeBytes 0 [0, 3] ∧ ¬ u.Complete threeBytes := by
  intro u
  have hi₀ : threes.Inv := create_inv _ _ _ _ _ (by decide)
  have hi : u.Inv := writeRing_inv hi₀ _
  have hlin : u.Linear 0 := Linear.writeRing hi₀ (by decide) (create_linear _ _ _ _ _ (by decide))
  have hbound (b : Nat) (hb : OccursAt u.headKey u.content b) : b + 1 ≤ 6 := hb.bound (by decide)
  have hfirst : u.IsFrame threeBytes 0 := ⟨by decide, by decide, by decide, by decide, by decide, by decide⟩
  have hsecond : u.IsFrame threeBytes 3 := ⟨by decide, by decide, by decide, by decide, by decide, by decide⟩
  have hscan : u.RefScan threeBytes 0 [0, 3] :=
    .frame (by decide) hfirst (.frame (by decide) hsecond (.stop (by decide)))
  have hu : Whole u threeBytes := by
    refine ⟨hi, hlin, by decide, by decide, fun _ => ?_, fun a ha => ?_⟩
    · show (⟨1, 1, 1⟩ : Sizes).sum ≤ 2 ^ 63
      decide
    · have := hbound a ha
      show 8 + a + 3 < 2 ^ 64
      omega
  have hwalk : u.Walk threeBytes 0 0 [0] :=
    .frame (by decide) (hfirst.takes (by decide) (Nat.le_refl _)) (by decide) (.stop (by decide))
  refine ⟨hi, hlin, hscan, ?_⟩
  rintro ⟨as, v, hr, hv⟩
  obtain ⟨v', hv'⟩ := hwalk.gets hu rfl rfl
  have hlen := congrArg List.length (hv.unique hv').1
  rw [hr.unique hscan] at hlen
  revert hlen
  decide

end NebulaToolkit.UnPacker
