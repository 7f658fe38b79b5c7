import NebulaToolkit.Chunking
/-!
# Frames in, packets out

In the mode with callbacks a stream of valid frames is pushed in chunks. A call
hands out at most one frame, the one at the front: behind it the loop goes on
at an offset counted from the old front. So a stream is decoded exactly when
there is a call for each frame once it is complete (`waiting`), as long as the
tests of the loop reject every other place they are made at (`Steady`).
-/

namespace NebulaToolkit.UnPacker

open Lib

variable {u : UnPacker} {dc : DataSzCb}

/-- What a frame is to the keys and the callbacks; the size callback looks at the
bytes of the frame only. -/
structure ValidFrame (headKey tailKey : List UInt8) (dc : DataSzCb) (cc : CheckValidCb)
    (f : List UInt8) : Prop where
  head : headKey <+: f
  header : ∀ rest, dc (f ++ rest) = dc f
  head_le : headKey.length ≤ (dc f).headSize.toNat
  tail_le : tailKey.length ≤ (dc f).tailSize.toNat
  length_eq : (dc f).headSize.toNat + (dc f).dataSize.toNat + (dc f).tailSize.toNat = f.length
  tail : OccursAt tailKey f ((dc f).headSize.toNat + (dc f).dataSize.toNat)
  check : cc f = true

/-! ## Places the loop passes over -/

/-- The search for the tail that starts at `te` gives `te`. -/
def TailThere (u : UnPacker) (te : Nat) : Prop :=
  if u.length < u.tailKey.length ∨ u.length ≤ te then te = u.capacity else u.ReadsAt u.tailKey te

/-- A head at `o` fails one of the tests: the sizes, the tail, the check. -/
def Rejects (u : UnPacker) (dc : DataSzCb) (o total : Nat) : Prop :=
  SizesFit u (u.sizesAt dc o) o total →
    o + (u.sizesAt dc o).headSize.toNat + (u.sizesAt dc o).dataSize.toNat +
        (u.sizesAt dc o).tailSize.toNat < 2 ^ 64 ∧
      (u.TailThere (tailAt (u.sizesAt dc o) o) →
        ∃ p, u.copyPacket o (packetSize (u.sizesAt dc o)) = .ok p ∧ u.checkSzCb.all (· p) = false)

/-- The searches for a head that start at `lo` may come to `o`: to a stored head, or
beyond the stored bytes when one of them starts in fewer bytes than the key has. -/
def Seen (u : UnPacker) (lo o : Nat) : Prop :=
  lo < u.length ∧ u.headKey.length ≤ u.length ∧ (o + u.headKey.length ≤ u.length ∨
    u.length < lo + u.headKey.length ∨ OccursAt u.headKey u.content (u.length - u.headKey.length))

/-- Every head they may come to does. -/
def Calm (u : UnPacker) (dc : DataSzCb) (lo total : Nat) : Prop :=
  ∀ o, lo ≤ o → o < u.capacity → u.Seen lo o → u.ReadsAt u.headKey o → u.Rejects dc o total

/-- The key can be read behind the stored bytes, so no search for it runs on. -/
def Findable (u : UnPacker) (key : List UInt8) : Prop :=
  ∃ d, u.length ≤ d ∧ d ≤ u.capacity ∧ u.readIndex + d + key.length ≤ 2 ^ 64 ∧ u.ReadsAt key d

/-- A key among the bytes just dropped is still in the array. -/
theorem findable_dropped (hi : u.Inv) {key : List UInt8} {n o : Nat} (hn : n ≤ u.length)
    (hocc : OccursAt key u.content o) (hb : o + key.length ≤ n) : (u.commit n).Findable key := by
  have hl := hi.length_le
  have hC := u.capacity_lt
  have hr := (commit_inv hi n).read_lt
  rw [commit_capacity] at hr
  refine ⟨u.capacity - n + o, ?_, ?_, by omega,
    (commit_readsAt hi hn key o).2 ((readsAt_iff (by omega)).2 hocc)⟩
  · rw [commit_length hi hn]; omega
  · rw [commit_capacity]; omega

section
variable (hi : u.Inv) (hlin : u.Linear 0)
include hi hlin

theorem findKey_tail (ht : u.tailKey ≠ []) {te : Nat}
    (hf : te + u.tailKey.length ≤ u.length ∨ u.Findable u.tailKey) :
    ∃ t, u.findKey u.tailKey te = .ok t ∧ (t = te ↔ u.TailThere te) := by
  by_cases hg : u.length < u.tailKey.length ∨ u.length ≤ te
  · exact ⟨_, findKey_refused (.inr hg), by rw [TailThere, if_pos hg]; exact eq_comm⟩
  rw [TailThere, if_neg hg]
  simp only [not_or, Nat.not_lt, Nat.not_le] at hg
  refine findKey_there hi hg.2 hg.1 ht ?_
  rw [hlin.part1 hg.2]
  refine hf.imp (fun hb => by omega) ?_
  rintro ⟨d, hld, -, hw, hrd⟩
  exact ⟨d, by omega, by omega, hrd⟩

theorem findKey_head (hh : u.headKey ≠ []) (hf : u.headKey.length ≤ u.length → u.Findable u.headKey)
    (cur : Nat) :
    ∃ o, u.findKey u.headKey cur = .ok o ∧ o ≤ u.capacity ∧ (o = u.capacity ∨ cur < u.length ∧
      u.headKey.length ≤ u.length ∧ cur ≤ o ∧ u.ReadsAt u.headKey o ∧
        (o + u.headKey.length ≤ u.length ∨ u.length < cur + u.headKey.length)) := by
  have hl := hi.length_le
  have hC := u.capacity_lt
  by_cases hg : u.length < u.headKey.length ∨ u.length ≤ cur
  · exact ⟨_, findKey_refused (.inr hg), Nat.le_refl _, .inl rfl⟩
  simp only [not_or, Nat.not_lt, Nat.not_le] at hg
  obtain ⟨d, hld, hdc, hw, hrd⟩ := hf hg.1
  have hm := hlin.start_eq (show cur < u.length by omega)
  obtain ⟨o, ho, hle, hr, -⟩ := findKey_after hi hh (fun _ => hlin.unbroken hh) (i := d - cur)
    (by rw [hm]; omega) (by omega) (fun _ => by rwa [show cur + (d - cur) = d by omega])
  rw [hlin.part1 hg.2] at hr
  exact ⟨o, ho, by omega, hr.imp_right fun ⟨h1, h2, h3⟩ => ⟨hg.2, hg.1, h1, h2, h3.imp_right (by omega)⟩⟩

/-- Over a calm ring the loop hands out nothing more. The induction is on the bytes
still to be looked at; a search in too few bytes is the first one, or follows a
head that ends with the last stored byte. -/
theorem calm_pass (hh : u.headKey ≠ []) (ht : u.tailKey ≠ []) {lo total cur : Nat}
    (hcalm : u.Calm dc lo total) (hhead : u.headKey.length ≤ u.length → u.Findable u.headKey)
    (htail : total ≤ u.length ∨ u.Findable u.tailKey) (hcur : lo ≤ cur)
    (hshort : u.length < cur + u.headKey.length → u.length < lo + u.headKey.length ∨
      OccursAt u.headKey u.content (u.length - u.headKey.length)) (rd : List (List UInt8)) :
    CbRun dc u.checkSzCb u cur total rd (rd, u) := by
  induction hd : total - cur using Nat.strong_induction_on generalizing cur with
  | _ n ih =>
  have hC := u.capacity_lt
  by_cases hlt : total ≤ cur
  · exact CbRun.done hlt
  obtain ⟨o, ho, hle, hr⟩ := findKey_head hi hlin hh hhead cur
  by_cases hne : o = u.capacity
  · exact CbRun.noHead (hne ▸ ho)
  obtain ⟨hcl, hkl, hco, hro, hwhere⟩ := hr.resolve_left hne
  have hseen : u.Seen lo o := ⟨by omega, hkl, hwhere.imp_right hshort⟩
  have hnext : CbRun dc u.checkSzCb u (addSz o 1) total rd (rd, u) := by
    rw [show addSz o 1 = o + 1 from wadd_of_lt (by omega)]
    refine ih _ (by omega) (by omega) (fun hlt' => ?_) rfl
    rcases hwhere with hb | hb
    · obtain rfl : o = u.length - u.headKey.length := by omega
      exact .inr ((readsAt_iff hb).1 hro)
    · exact hshort hb
  by_cases hs : SizesFit u (u.sizesAt dc o) o total
  swap
  · exact CbRun.badSizes (by omega) ho hne hs hnext
  obtain ⟨hw, hbad⟩ := hcalm o (by omega) (by omega) hseen hro hs
  -- The sizes fit without wrapping, so the tail lies below the size the loop counts up to.
  have hin : tailAt (u.sizesAt dc o) o + u.tailKey.length ≤ total := by
    have hfit := hs.le_total (by unfold Sizes.sum; omega)
    have hts := hs.2.1
    unfold Sizes.sum at hfit
    rw [tailAt_eq (by omega)]; omega
  obtain ⟨t, hft, hiff⟩ := findKey_tail hi hlin ht (htail.imp_left fun h => Nat.le_trans hin h)
  by_cases hte : t = tailAt (u.sizesAt dc o) o
  · obtain ⟨p, hp, hc⟩ := hbad (hiff.1 hte)
    exact CbRun.badCheck (by omega) ho hne hs (hte ▸ hft) hp hc hnext
  · exact CbRun.badTail (by omega) ho hne hs hft hte hnext

/-- What the size callback gets for the head at the front. -/
theorem sizesAt_front (dc : DataSzCb) {f rest : List UInt8} (hc : u.content = f ++ rest) :
    ∃ rest', u.sizesAt dc 0 = dc (f ++ rest') := by
  have hr := hi.read_lt
  unfold Linear at hlin
  have hs : u.content = (u.buffer.drop u.readIndex).take u.length :=
    cyc_linear (by unfold RingBuffer.capacity at hlin; omega)
  refine ⟨rest ++ (u.buffer.drop u.readIndex).drop u.length, ?_⟩
  rw [sizesAt, u.addSz_eq (Nat.le_of_lt hr) (Nat.zero_le _), Nat.add_zero, Nat.mod_eq_of_lt hr,
    ← List.append_assoc, ← hc, hs, List.take_append_drop]

/-! ## Calls -/

section
variable (hm : u.unpackerModel = .kHeadTailCb) (hdc : u.dataSzCb = some dc)
include hm hdc

/-- A call on a part of a frame hands out nothing. -/
theorem part_call {f : List UInt8} (hf : u.headKey <+: f) (hc : u.content <+: f)
    (hcalm : u.Calm dc 0 u.length) :
    u.Packs ([], u) := by
  have hl := hi.length_le
  have hC := u.capacity_lt
  unfold Packs
  rw [hm]
  refine ⟨dc, hdc, calm_pass hi hlin (headKey_ne (by rw [hm]; decide)) (tailKey_ne hm) hcalm (fun hk => ?_)
    (.inl (Nat.le_refl _)) (Nat.le_refl 0) .inl []⟩
  have hocc : OccursAt u.headKey u.content 0 := by
    rw [OccursAt, List.drop_zero]
    exact List.prefix_of_prefix_length_le hf hc (by rw [RingBuffer.content_length]; exact hk)
  -- Reading on behind the array's last cell leads back to the front.
  refine ⟨u.capacity, hl, Nat.le_refl _, by unfold Linear at hlin; omega, ?_⟩
  have h := (commit_readsAt hi (Nat.zero_le _) u.headKey 0).2 ((readsAt_iff (by omega)).2 hocc)
  rwa [commit_zero hi] at h

/-- A call on a frame and what is behind it hands out the frame and drops it. -/
theorem whole_call {cc : CheckValidCb} (hcc : u.checkSzCb = some cc) {f rest : List UInt8}
    (hv : ValidFrame u.headKey u.tailKey dc cc f) (hc : u.content = f ++ rest)
    (hcalm : (u.commit f.length).Calm dc f.length u.length) : u.Packs ([f], u.commit f.length) := by
  have hl := hi.length_le
  have hC := u.capacity_lt
  have hh := headKey_ne (u := u) (by rw [hm]; decide)
  have hkp := List.length_pos_iff.2 hh
  have hlen : u.length = f.length + rest.length := by rw [← RingBuffer.content_length, hc, List.length_append]
  have hfl : f.length ≤ u.length := by omega
  have hkf := hv.head.length_le
  have hocc : OccursAt u.headKey u.content 0 := by
    rw [OccursAt, List.drop_zero, hc]
    exact hv.head.trans (List.prefix_append _ _)
  have htail : OccursAt u.tailKey u.content ((dc f).headSize.toNat + (dc f).dataSize.toNat) := by
    rw [hc]; exact hv.tail.append rest
  have hsum := hv.length_eq
  have htb := hv.tail.bound (tailKey_ne hm)
  -- The keys of the frame just dropped are still in the array.
  have hfh : (u.commit f.length).Findable u.headKey := findable_dropped hi hfl hocc (by omega)
  have hft : (u.commit f.length).Findable u.tailKey := findable_dropped hi hfl htail htb
  have hpass : CbRun dc u.checkSzCb (u.commit f.length) f.length u.length [f] ([f], u.commit f.length) :=
    calm_pass (commit_inv hi _) (hlin.commit hi hfl) hh (tailKey_ne hm) hcalm (fun _ => hfh) (.inr hft)
      (Nat.le_refl _) .inl [f]
  obtain ⟨x, hsz⟩ := sizesAt_front hi hlin dc hc
  rw [hv.header x] at hsz
  have hps : packetSize (u.sizesAt dc 0) = f.length := by rw [hsz, packetSize_eq (by omega), hsum]
  have hte : tailAt (u.sizesAt dc 0) 0 = (dc f).headSize.toNat + (dc f).dataSize.toNat := by
    rw [hsz, tailAt_eq (by omega), Nat.zero_add]
  have hadd : addSz 0 f.length = f.length := (wadd_of_lt (by omega)).trans (Nat.zero_add _)
  have hcopy : u.copyPacket 0 f.length = .ok f := by
    rw [copyPacket_eq hi (by omega) (by omega), List.drop_zero, hc, List.take_left]
  unfold Packs
  rw [hm]
  refine ⟨dc, hdc, CbRun.packet (p := f) (by omega) (findKey_here hi hh hocc) (by omega) ?_ ?_ ?_ ?_ ?_⟩
  · refine ⟨by rw [hsz]; exact hv.head_le, by rw [hsz]; exact hv.tail_le, ?_⟩
    rw [hps, hadd]; exact hfl
  · rw [hte]; exact findKey_here hi (tailKey_ne hm) htail
  · rw [hps]; exact hcopy
  · rw [hcc]; exact hv.check
  · rw [hps, hadd]; exact hpass

end

end

/-! ## Streams -/

/-- The pushes of `cut`, one after another, come back and hand out `fs` in all. -/
def Decodes (u : UnPacker) (cut fs : List (List UInt8)) : Prop :=
  ∃ outs v, Trace Pushes u cut outs v ∧ outs.flatten = fs

/-- Call by call, with `fs` the frames not handed out yet: in a call that completes
the first of them nothing behind it passes the tests, in a call that does not,
nothing does. -/
def Steady (dc : DataSzCb) : UnPacker → List (List UInt8) → List (List UInt8) → Prop
  | _, _, [] => True
  | _, [], _ :: _ => True
  | u, f :: fs, c :: cut =>
    if f.length ≤ (u.writeRing c).length then
      ((u.writeRing c).commit f.length).Calm dc f.length (u.writeRing c).length ∧
        Steady dc ((u.writeRing c).commit f.length) fs cut
    else (u.writeRing c).Calm dc 0 (u.writeRing c).length ∧ Steady dc (u.writeRing c) (f :: fs) cut

/-- The frames still in the ring at the end, when a call takes one frame if it is
complete; `stored` bytes of them are there before the first call. -/
def waiting : List (List UInt8) → Nat → List (List UInt8) → List (List UInt8)
  | fs, _, [] => fs
  | [], _, _ :: _ => []
  | f :: fs, stored, c :: cut =>
    if f.length ≤ stored + c.length then waiting fs (stored + c.length - f.length) cut
    else waiting (f :: fs) (stored + c.length) cut

/-- A steady run hands out the frames in order, but for those that are waiting in
the end. The induction is on the cut. -/
theorem steady_hand_out {cc : CheckValidCb} (cut : List (List UInt8)) (hne : ∀ c ∈ cut, c ≠ []) (hi : u.Inv)
    (hlin : u.Linear cut.flatten.length) (hm : u.unpackerModel = .kHeadTailCb) (hdc : u.dataSzCb = some dc)
    (hcc : u.checkSzCb = some cc) (fs : List (List UInt8))
    (hv : ∀ f ∈ fs, ValidFrame u.headKey u.tailKey dc cc f)
    (hbytes : u.content ++ cut.flatten = fs.flatten) (hs : Steady dc u fs cut) :
    ∃ outs v, Trace Pushes u cut outs v ∧ outs.flatten ++ waiting fs u.length cut = fs := by
  induction cut generalizing u fs with
  | nil => exact ⟨[], u, .nil u, by rw [waiting]; rfl⟩
  | cons c cut ih =>
    have hc := hne c (by simp)
    have hne' (d : List UInt8) (hd : d ∈ cut) : d ≠ [] := hne d (by simp [hd])
    rw [List.flatten_cons, List.length_append] at hlin
    rw [List.flatten_cons, ← List.append_assoc] at hbytes
    have hi₁ := writeRing_inv hi c
    have hlin₁ := hlin.writeRing hi hc
    have hcont : (u.writeRing c).content = u.content ++ c :=
      writeRing_content hi (by unfold Linear at hlin; omega) hc
    have hlen : (u.writeRing c).length = u.length + c.length := by
      rw [← RingBuffer.content_length, hcont, List.length_append, RingBuffer.content_length]
    rcases fs with - | ⟨f, fs⟩
    · simp [hc] at hbytes
    rw [← hcont] at hbytes
    rw [Steady] at hs
    rw [waiting, ← hlen]
    have hf := hv f (by simp)
    rw [List.flatten_cons] at hbytes
    have hpre : (u.writeRing c).content <+: f ++ fs.flatten := ⟨cut.flatten, hbytes⟩
    by_cases hfl : f.length ≤ (u.writeRing c).length
    · rw [if_pos hfl] at hs ⊢
      -- The frame is complete: it is handed out, and the run goes on over the other frames.
      obtain ⟨rest, hrest⟩ := List.prefix_of_prefix_length_le (List.prefix_append f fs.flatten) hpre
        (by rw [RingBuffer.content_length]; exact hfl)
      have hcall := whole_call hi₁ (hlin₁.of_le (Nat.zero_le _)) hm hdc hcc hf hrest.symm hs.1
      rw [← hrest, List.append_assoc] at hbytes
      obtain ⟨outs, v, ht, ho⟩ := ih hne' (commit_inv hi₁ _) (hlin₁.commit hi₁ hfl) hm hdc hcc fs
        (fun g hg => hv g (by simp [hg]))
        (by rw [commit_content hi₁ hfl, ← hrest, List.drop_left]; exact List.append_cancel_left hbytes) hs.2
      rw [commit_length hi₁ hfl] at ho
      exact ⟨[f] :: outs, v,
        .cons (pushes_iff.2 hcall) ht, by rw [List.flatten_cons, List.append_assoc, ho]; rfl⟩
    · rw [if_neg hfl] at hs ⊢
      have hpart : (u.writeRing c).content <+: f :=
        List.prefix_of_prefix_length_le hpre (List.prefix_append f fs.flatten)
        (by rw [RingBuffer.content_length]; omega)
      have hcall := part_call hi₁ (hlin₁.of_le (Nat.zero_le _)) hm hdc hf.head hpart hs.1
      obtain ⟨outs, v, ht, ho⟩ := ih hne' hi₁ hlin₁ hm hdc hcc (f :: fs) hv hbytes hs.2
      exact ⟨[] :: outs, v, .cons (pushes_iff.2 hcall) ht, ho⟩

/-- A steady run over frames decodes them exactly if none is waiting in the end. -/
theorem steady_decodes {cc : CheckValidCb} (cut : List (List UInt8)) (hne : ∀ c ∈ cut, c ≠ []) (hi : u.Inv)
    (hlin : u.Linear cut.flatten.length) (hm : u.unpackerModel = .kHeadTailCb) (hdc : u.dataSzCb = some dc)
    (hcc : u.checkSzCb = some cc) (fs : List (List UInt8))
    (hv : ∀ f ∈ fs, ValidFrame u.headKey u.tailKey dc cc f)
    (hbytes : u.content ++ cut.flatten = fs.flatten) (hs : Steady dc u fs cut) :
    Decodes u cut fs ↔ waiting fs u.length cut = [] := by
  obtain ⟨outs, v, hr, ho⟩ := steady_hand_out cut hne hi hlin hm hdc hcc fs hv hbytes hs
  refine ⟨?_, fun hw => ⟨outs, v, hr, by rwa [hw, List.append_nil] at ho⟩⟩
  rintro ⟨outs', v', hr', ho'⟩
  obtain rfl := pushes_unique hr hr'
  rw [ho'] at ho
  exact List.self_eq_append_right.1 ho.symm

/-- Frames that fit into a new unpacker, cut into chunks in any way: when every call
is steady, they are decoded exactly if none is waiting in the end. -/
theorem decodes_frames (h t : List UInt8) (hh : h ≠ []) (ht : t ≠ []) (dc : DataSzCb) (cc : CheckValidCb)
    (c : Nat) (hc : c ≤ maxSize) (fs cut : List (List UInt8)) (hv : ∀ f ∈ fs, ValidFrame h t dc cc f)
    (hfit : fs.flatten.length ≤ c) (hne : ∀ chunk ∈ cut, chunk ≠ []) (hcut : cut.flatten = fs.flatten)
    (hs : Steady dc (createWithCallbacks h t (some dc) (some cc) c hc) fs cut) :
    Decodes (createWithCallbacks h t (some dc) (some cc) c hc) cut fs ↔ waiting fs 0 cut = [] := by
  have hm : checkModel h t (some dc) (some cc) = .kHeadTailCb := by simp [checkModel, hh, ht]
  by_cases h0 : 0 < c
  · exact steady_decodes cut hne (create_inv h t _ _ hc h0)
      (create_linear h t _ _ hc (by rw [hcut]; exact hfit)) hm rfl rfl
      fs hv (by rw [← hcut]; rfl) hs
  · -- Without room there are no bytes, so neither chunks nor frames.
    have hflat : fs.flatten = [] := List.eq_nil_of_length_eq_zero (by omega)
    obtain rfl : cut = [] := List.eq_nil_iff_forall_not_mem.2 fun d hd =>
      hne d hd (List.flatten_eq_nil_iff.1 (hcut.trans hflat) d hd)
    obtain rfl : fs = [] := List.eq_nil_iff_forall_not_mem.2 fun f hf => hh <|
      List.prefix_nil.1 (List.flatten_eq_nil_iff.1 hflat f hf ▸ (hv f hf).head)
    exact ⟨fun _ => rfl, fun _ => ⟨[], _, .nil _, rfl⟩⟩

/-- Three bytes in every packet. -/
abbrev threeBytes : DataSzCb := fun _ => ⟨1, 1, 1⟩

theorem threeBytes_valid (x : UInt8) : ValidFrame [1] [2] threeBytes (fun _ => true) [1, x, 2] where
  head := ⟨[x, 2], rfl⟩
  header _ := rfl
  head_le := Nat.le_refl 1
  tail_le := Nat.le_refl 1
  length_eq := rfl
  tail := ⟨[], rfl⟩
  check := rfl

theorem threeBytes_two : ∀ f ∈ [[1, 7, 2], [1, 8, 2]], ValidFrame [1] [2] threeBytes (fun _ => true) f := by
  rintro f hf
  rcases List.mem_pair.1 hf with rfl | rfl <;> exact threeBytes_valid _

theorem eight_le_maxSize : 8 ≤ maxSize := by decide

/-- The keys 1 and 2, packets of three bytes, and room for eight. -/
abbrev threes : UnPacker :=
  createWithCallbacks [1] [2] (some threeBytes) (some fun _ => true) 8 eight_le_maxSize

/-- The theorem at two frames, the second one pushed in two chunks. -/
theorem decodes_frames_two :
    (∀ f ∈ [[1, 7, 2], [1, 8, 2]], ValidFrame [1] [2] threeBytes (fun _ => true) f) ∧
      Steady threeBytes threes [[1, 7, 2], [1, 8, 2]] [[1, 7, 2], [1, 8], [2]] ∧
      Decodes threes [[1, 7, 2], [1, 8], [2]] [[1, 7, 2], [1, 8, 2]] := by
  have hs : Steady threeBytes threes [[1, 7, 2], [1, 8, 2]] [[1, 7, 2], [1, 8], [2]] := by
    rw [Steady, if_pos (by decide)]
    refine ⟨fun o _ _ hseen => absurd hseen.1 (by decide), ?_⟩
    rw [Steady, if_neg (by decide)]
    refine ⟨fun o h₁ ho h₂ h₃ hfit => ?_, ?_⟩
    · exfalso
      clear h₁ h₂ h₃
      revert o; decide
    rw [Steady, if_pos (by decide)]
    exact ⟨fun o _ _ hseen => absurd hseen.1 (by decide), by rw [Steady]; trivial⟩
  have hd := decodes_frames [1] [2] (by simp) (by simp) threeBytes (fun _ => true) 8
    (by decide) [[1, 7, 2], [1, 8, 2]]
    [[1, 7, 2], [1, 8], [2]] threeBytes_two (by decide) (by decide) (by decide) (by exact hs)
  exact ⟨threeBytes_two, hs, hd.2 (by decide)⟩

/-- Two frames in one chunk: only the first one is handed out. -/
theorem two_frames_stuck :
    ¬ ∀ fs cut : List (List UInt8), (∀ f ∈ fs, ValidFrame [1] [2] threeBytes (fun _ => true) f) →
    fs.flatten.length ≤ 8 →
      (∀ chunk ∈ cut, chunk ≠ []) → cut.flatten = fs.flatten → Decodes threes cut fs := by
  intro hall
  have hd := hall [[1, 7, 2], [1, 8, 2]] [[1, 7, 2, 1, 8, 2]] threeBytes_two (by decide) (by decide)
    (by decide)
  have hs : Steady threeBytes threes [[1, 7, 2], [1, 8, 2]] [[1, 7, 2, 1, 8, 2]] := by
    rw [Steady, if_pos (by decide)]
    exact ⟨fun o _ _ hseen => absurd hseen.1 (by decide), by rw [Steady]; trivial⟩
  have hw := (steady_decodes _ (by decide) (create_inv _ _ _ _ _ (by decide))
    (create_linear _ _ _ _ _ (by decide)) rfl rfl rfl
    _ threeBytes_two (by decide) hs).1 hd
  revert hw
  decide

end NebulaToolkit.UnPacker
