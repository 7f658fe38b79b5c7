import NebulaToolkit.FirstOccurrence
import NebulaToolkit.Passes
/-!
# Where the stored bytes lie in the ring

Two unpackers that hold the same bytes at different places of equally large
rings, with anything in their dead cells. `Get` treats them alike as long as
the layout disturbs no iteration of the two loops (`Alike`). Without callbacks
no placement does exactly when the keys have one byte or are longer than the
ring (`placement_free`). The proof runs both loops side by side.
-/

namespace NebulaToolkit.UnPacker

open Lib

variable {u u' : UnPacker}

/-- Same keys, callbacks and capacity, and the same stored bytes. -/
structure Twins (u u' : UnPacker) : Prop where
  inv : u.Inv
  inv' : u'.Inv
  headKey : u'.headKey = u.headKey
  tailKey : u'.tailKey = u.tailKey
  dataSzCb : u'.dataSzCb = u.dataSzCb
  checkSzCb : u'.checkSzCb = u.checkSzCb
  capacity : u'.capacity = u.capacity
  content : u'.content = u.content

/-- `Get` comes back from both with the same packets, and leaves the same bytes. -/
def Same (u u' : UnPacker) : Prop := ∃ packs v v', u.Gets packs v ∧ u'.Gets packs v' ∧ v.content = v'.content

theorem Twins.refl (hi : u.Inv) : Twins u u := ⟨hi, hi, rfl, rfl, rfl, rfl, rfl, rfl⟩

theorem Twins.model (h : Twins u u') : u'.unpackerModel = u.unpackerModel := by
  rw [u.model_eq, u'.model_eq, h.headKey, h.tailKey, h.dataSzCb, h.checkSzCb]

theorem Twins.length (h : Twins u u') : u'.length = u.length := by
  rw [← RingBuffer.content_length, ← RingBuffer.content_length, h.content]

theorem Twins.endKey (h : Twins u u') : u'.endKey = u.endKey := by
  unfold UnPacker.endKey; rw [h.model, h.headKey, h.tailKey]

theorem Twins.extra (h : Twins u u') : u'.extra = u.extra := by
  unfold UnPacker.extra; rw [h.model, h.tailKey]

theorem Twins.commit (h : Twins u u') {n : Nat} (hn : n ≤ u.length) : Twins (u.commit n) (u'.commit n) where
  inv := commit_inv h.inv n
  inv' := commit_inv h.inv' n
  headKey := h.headKey
  tailKey := h.tailKey
  dataSzCb := h.dataSzCb
  checkSzCb := h.checkSzCb
  capacity := by rw [commit_capacity, commit_capacity, h.capacity]
  content := by rw [commit_content h.inv hn, commit_content h.inv' (h.length ▸ hn), h.content]

/-! ## Iterations the layout does not disturb -/

/-- A search that finds the first stored occurrence. -/
theorem FindsFirst.findKey {key : List UInt8} {start : Nat} (h : u.FindsFirst key start) (hi : u.Inv)
    (h0 : key ≠ []) :
    u.findKey key start = .ok ((first key u.content start).getD u.capacity) := by
  have hfirst : u.firstStored key start = (first key u.content start).getD u.capacity := if_neg h0
  rw [← hfirst]
  by_cases href : key = [] ∨ u.length < key.length ∨ u.length ≤ start
  · rw [findKey_refused href, firstStored_refused href]
  by_cases hp : key.length ≤ u.part1 start
  · obtain ⟨-, hk, hst⟩ := (not_or.1 href).imp_right not_or.1
    rw [hfirst]
    exact (findKey_long_iff hi h0 (Nat.not_le.1 hst) (Nat.not_lt.1 hk) hp).2
      ((findsFirst_long_iff href hp).1 h)
  · exact (findKey_short_iff hi href (Nat.not_le.1 hp)).2 h

/-- The tail key stands among the stored bytes at `e`, or `e` is the number that says "not found". -/
def TailStands (u : UnPacker) (e : Nat) : Prop := OccursAt u.tailKey u.content e ∨ e = u.capacity

/-- With callbacks: the next stored head is at `o`, and the sizes reported there fit. -/
structure FitsAt (s : Loop) (dc : DataSzCb) (o : Nat) : Prop where
  mode : s.unpacker.unpackerModel = .kHeadTailCb
  dataSzCb : s.unpacker.dataSzCb = some dc
  head : first s.unpacker.headKey s.unpacker.content s.currentPos = some o
  sizes : SizesFit s.unpacker (s.unpacker.sizesAt dc o) o s.totalSize

/-- What the layout must not spoil in an iteration. The search for the end key belongs
to the modes without callbacks, `tail` and `whole` to the one with them. -/
structure Smooth (s : Loop) : Prop where
  head : s.unpacker.FindsFirst s.unpacker.headKey s.currentPos
  endKey : s.unpacker.Keyed → ∀ o, first s.unpacker.headKey s.unpacker.content s.currentPos = some o →
    s.unpacker.FindsFirst s.unpacker.endKey (o + s.unpacker.headKey.length)
  /-- The search for the tail key is not wrong about the place it starts from. -/
  tail : ∀ dc o, FitsAt s dc o →
    s.unpacker.tailKey.length ≤ s.unpacker.part1 (tailAt (s.unpacker.sizesAt dc o) o) ∨
      s.unpacker.FindsFirst s.unpacker.tailKey (tailAt (s.unpacker.sizesAt dc o) o)
  /-- With the tail key there, the frame ends within the stored bytes, and is no empty packet. -/
  whole : ∀ dc o, FitsAt s dc o → s.unpacker.TailStands (tailAt (s.unpacker.sizesAt dc o) o) →
    o + packetSize (s.unpacker.sizesAt dc o) ≤ s.unpacker.length ∧
      (s.unpacker.checkSzCb.all (· []) = true → packetSize (s.unpacker.sizesAt dc o) ≠ 0)

/-- Such a search comes back, and from the place it starts from if the tail key stands there. -/
theorem findKey_stands (hi : u.Inv) (h0 : u.tailKey ≠ []) {e : Nat}
    (h : u.tailKey.length ≤ u.part1 e ∨ u.FindsFirst u.tailKey e) :
    ∃ t, u.findKey u.tailKey e = .ok t ∧ (t = e ↔ u.TailStands e) := by
  have hl := hi.length_le
  have hkp := List.length_pos_iff.2 h0
  by_cases hocc : OccursAt u.tailKey u.content e
  · exact ⟨e, findKey_here hi h0 hocc, iff_of_true rfl (.inl hocc)⟩
  rw [TailStands, or_iff_right hocc]
  rcases h with hp | hf
  · have hpl : u.part1 e ≤ u.length - e := Nat.min_le_right _ _
    obtain ⟨t, ht, hne⟩ := findKey_elsewhere hi h0 (by omega) hp hocc
    exact ⟨t, ht, iff_of_false hne (by omega)⟩
  · refine ⟨_, hf.findKey hi h0, ?_⟩
    cases hfirst : first u.tailKey u.content e with
    | none => exact eq_comm
    | some t =>
      obtain ⟨-, hstored, -⟩ := (first_eq_some h0).1 hfirst
      have hb := hstored.bound h0
      rw [RingBuffer.content_length] at hb
      refine iff_of_false (fun heq => hocc ?_) fun heq => ?_
      · rw [← show t = e from heq]
        exact hstored
      · obtain ⟨hge, -⟩ := (first_eq_some h0).1 hfirst
        omega

section
variable {s : Loop} (hi : s.unpacker.Inv) (hu : Smooth s) (hlt : s.currentPos < s.totalSize)
include hi hu hlt

/-- An iteration without callbacks goes by the stored bytes alone. -/
theorem Smooth.keysPass (hk : s.unpacker.Keyed) : keysPass s =
    .ok (match first s.unpacker.headKey s.unpacker.content s.currentPos with
      | none => .stop
      | some o => match first s.unpacker.endKey s.unpacker.content (o + s.unpacker.headKey.length) with
        | none => .stop
        | some e => .next (some ((s.unpacker.content.drop o).take (e + s.unpacker.extra - o)))
          ⟨s.unpacker.commit (e + s.unpacker.extra - o), e + s.unpacker.extra, s.totalSize⟩) := by
  have hl := hi.length_le
  have hC := s.unpacker.capacity_lt
  have h0 := headKey_ne hk.model_ne
  rw [UnPacker.keysPass, if_pos hlt, hu.head.findKey hi h0]
  cases hf : first s.unpacker.headKey s.unpacker.content s.currentPos with
  | none => simp only [bind, Except.bind, Option.getD_none, if_true]; rfl
  | some o =>
    have hb := ((first_eq_some h0).1 hf).2.1.bound h0
    rw [RingBuffer.content_length] at hb
    have hkp := List.length_pos_iff.2 h0
    have hadd : addSz o s.unpacker.headKey.length = o + s.unpacker.headKey.length := wadd_of_lt (by omega)
    simp only [bind, Except.bind, Option.getD_some, if_neg (show o ≠ s.unpacker.capacity by omega), hadd,
      (hu.endKey hk o hf).findKey hi hk.endKey_ne]
    cases he : first s.unpacker.endKey s.unpacker.content (o + s.unpacker.headKey.length) with
    | none => simp only [Option.getD_none, if_true]; rfl
    | some e =>
      obtain ⟨hoe, hocc, -⟩ := (first_eq_some hk.endKey_ne).1 he
      have hbe := hocc.bound hk.endKey_ne
      rw [RingBuffer.content_length] at hbe
      have hx := hk.extra_le
      have hep := List.length_pos_iff.2 hk.endKey_ne
      have hend : addSz e s.unpacker.extra = e + s.unpacker.extra := wadd_of_lt (by omega)
      have hsize : subSz (e + s.unpacker.extra) o = e + s.unpacker.extra - o :=
        wsub_of_le (by omega) (by omega)
      simp only [Option.getD_some, if_neg (show e ≠ s.unpacker.capacity by omega), hend, hsize,
        copyPacket_eq hi (show o < s.unpacker.length by omega)
        (show o + (e + s.unpacker.extra - o) ≤ _ by omega)]
      rfl

open Classical in
/-- So does one with callbacks, and by what is reported. -/
theorem Smooth.cbPass (hm : s.unpacker.unpackerModel = .kHeadTailCb) {dc : DataSzCb}
    (hdc : s.unpacker.dataSzCb = some dc) : cbPass dc s =
    .ok (match first s.unpacker.headKey s.unpacker.content s.currentPos with
      | none => .stop
      | some o =>
        if SizesFit s.unpacker (s.unpacker.sizesAt dc o) o s.totalSize ∧
            s.unpacker.TailStands (tailAt (s.unpacker.sizesAt dc o) o) ∧
            s.unpacker.checkSzCb.all
            (· ((s.unpacker.content.drop o).take (packetSize (s.unpacker.sizesAt dc o)))) = true then
          .next (some ((s.unpacker.content.drop o).take (packetSize (s.unpacker.sizesAt dc o))))
            ⟨s.unpacker.commit (packetSize (s.unpacker.sizesAt dc o)),
              o + packetSize (s.unpacker.sizesAt dc o), s.totalSize⟩
        else .next none ⟨s.unpacker, o + 1, s.totalSize⟩) := by
  have hl := hi.length_le
  have hC := s.unpacker.capacity_lt
  have h0 : s.unpacker.headKey ≠ [] := headKey_ne (by rw [hm]; decide)
  have ht0 := tailKey_ne hm
  rw [UnPacker.cbPass, if_pos hlt, hu.head.findKey hi h0]
  cases hf : first s.unpacker.headKey s.unpacker.content s.currentPos with
  | none => simp only [bind, Except.bind, Option.getD_none, if_true]; rfl
  | some o =>
    have hb := ((first_eq_some h0).1 hf).2.1.bound h0
    rw [RingBuffer.content_length] at hb
    have hkp := List.length_pos_iff.2 h0
    have hnext : addSz o 1 = o + 1 := wadd_of_lt (by omega)
    simp only [bind, Except.bind, Option.getD_some, if_neg (show o ≠ s.unpacker.capacity by omega), hnext]
    by_cases hs : SizesFit s.unpacker (s.unpacker.sizesAt dc o) o s.totalSize
    swap
    · rw [if_pos hs, if_neg fun h => hs h.1]; rfl
    rw [if_neg (not_not.2 hs)]
    obtain ⟨t, ht, hte⟩ := findKey_stands hi ht0 (hu.tail dc o ⟨hm, hdc, hf, hs⟩)
    simp only [ht]
    by_cases hstands : s.unpacker.TailStands (tailAt (s.unpacker.sizesAt dc o) o)
    swap
    · rw [if_pos (hte.not.2 hstands), if_neg fun h => hstands h.2.1]; rfl
    obtain ⟨hin, -⟩ := hu.whole dc o ⟨hm, hdc, hf, hs⟩ hstands
    have hend : addSz o (packetSize (s.unpacker.sizesAt dc o)) = o + packetSize (s.unpacker.sizesAt dc o) :=
      wadd_of_lt (by omega)
    rw [if_neg (not_not.2 (hte.2 hstands))]
    simp only [copyPacket_eq hi (show o < s.unpacker.length by omega) hin, hend]
    by_cases hc : s.unpacker.checkSzCb.all
        (· ((s.unpacker.content.drop o).take (packetSize (s.unpacker.sizesAt dc o)))) = true
    · rw [if_pos hc, if_pos ⟨hs, hstands, hc⟩]; rfl
    · rw [if_neg hc, if_neg fun h => hc h.2.2]; rfl

end

/-! ## Both loops, side by side -/

/-- The loops stand at the same place over the same bytes. -/
structure TwinLoops (s s' : Loop) : Prop where
  twins : Twins s.unpacker s'.unpacker
  currentPos : s'.currentPos = s.currentPos
  totalSize : s'.totalSize = s.totalSize

/-- With callbacks, the next head is reported with the same sizes in both rings. -/
def ReportsAgree (s s' : Loop) : Prop :=
  s.unpacker.unpackerModel = .kHeadTailCb → ∀ dc, s.unpacker.dataSzCb = some dc →
    ∀ o, first s.unpacker.headKey s.unpacker.content s.currentPos = some o →
      s'.unpacker.sizesAt dc o = s.unpacker.sizesAt dc o

/-- In no iteration the two calls come to side by side does it show where the bytes lie. -/
def Alike (u u' : UnPacker) : Prop :=
  ∀ s s', Reached u s → Reached u' s' → TwinLoops s s' → s.currentPos < s.totalSize →
    Smooth s ∧ Smooth s' ∧ ReportsAgree s s'

/-- Two such iterations end alike, and go on further behind. -/
theorem pass_twins {s s' : Loop} (h : TwinLoops s s') (hm : s.unpacker.unpackerModel ≠ .kNone)
    (hu : Smooth s) (hu' : Smooth s') (hr : ReportsAgree s s') (hlt : s.currentPos < s.totalSize) :
    pass s = .ok .stop ∧ pass s' = .ok .stop ∨
      ∃ p t t', pass s = .ok (.next p t) ∧ pass s' = .ok (.next p t') ∧ TwinLoops t t' ∧
      s.currentPos < t.currentPos := by
  obtain ⟨hw, hcur, htotal⟩ := h
  have hlt' : s'.currentPos < s'.totalSize := by rw [hcur, htotal]; exact hlt
  have hl := hw.inv.length_le
  have hkp := List.length_pos_iff.2 (headKey_ne hm)
  by_cases hk : s.unpacker.Keyed
  · have hk' : s'.unpacker.Keyed := by unfold Keyed; rw [hw.model]; exact hk
    rw [pass_keyed hk, pass_keyed hk', hu.keysPass hw.inv hlt hk, hu'.keysPass hw.inv' hlt' hk',
      hw.headKey, hw.content, hcur, hw.endKey, hw.extra, htotal]
    cases hf : first s.unpacker.headKey s.unpacker.content s.currentPos with
    | none => exact .inl ⟨rfl, rfl⟩
    | some o =>
      dsimp only
      obtain ⟨hco, -⟩ := (first_eq_some (headKey_ne hm)).1 hf
      cases he : first s.unpacker.endKey s.unpacker.content (o + s.unpacker.headKey.length) with
      | none => exact .inl ⟨rfl, rfl⟩
      | some e =>
        obtain ⟨hoe, hocc, -⟩ := (first_eq_some hk.endKey_ne).1 he
        have hb := hocc.bound hk.endKey_ne
        rw [RingBuffer.content_length] at hb
        have hx := hk.extra_le
        exact .inr ⟨_, _, _, rfl, rfl, ⟨hw.commit (by omega), rfl, rfl⟩,
          show s.currentPos < e + s.unpacker.extra by omega⟩
  · have hcb : s.unpacker.unpackerModel = .kHeadTailCb := by
      unfold Keyed at hk
      cases hmode : s.unpacker.unpackerModel <;> simp_all
    obtain ⟨dc, hdc⟩ := dataSzCb_of_model hcb
    have hcb' := hw.model.trans hcb
    have hdc' := hw.dataSzCb.trans hdc
    rw [pass_cb hcb hdc, pass_cb hcb' hdc', hu.cbPass hw.inv hlt hcb hdc,
      hu'.cbPass hw.inv' hlt' hcb' hdc', hw.headKey, hw.content, hcur, htotal]
    cases hf : first s.unpacker.headKey s.unpacker.content s.currentPos with
    | none => exact .inl ⟨rfl, rfl⟩
    | some o =>
      obtain ⟨hco, hocc, -⟩ := (first_eq_some (headKey_ne hm)).1 hf
      have hstands (e : Nat) : s'.unpacker.TailStands e ↔ s.unpacker.TailStands e := by
        unfold TailStands
        rw [hw.tailKey, hw.content, hw.capacity]
      have hfit : SizesFit s'.unpacker (s.unpacker.sizesAt dc o) o s.totalSize ↔
          SizesFit s.unpacker (s.unpacker.sizesAt dc o) o s.totalSize := by
        unfold SizesFit
        rw [hw.headKey, hw.tailKey]
      have hreport := hr hcb dc hdc o hf
      dsimp only
      by_cases hacc : SizesFit s.unpacker (s.unpacker.sizesAt dc o) o s.totalSize ∧
          s.unpacker.TailStands (tailAt (s.unpacker.sizesAt dc o) o) ∧
          s.unpacker.checkSzCb.all
          (· ((s.unpacker.content.drop o).take (packetSize (s.unpacker.sizesAt dc o)))) = true
      · obtain ⟨hs, hst, hc⟩ := hacc
        obtain ⟨hin, hpos⟩ := hu.whole dc o ⟨hcb, hdc, hf, hs⟩ hst
        have hdrop : packetSize (s.unpacker.sizesAt dc o) ≤ s.unpacker.length := by omega
        rw [hreport, hw.checkSzCb, if_pos ⟨hs, hst, hc⟩, if_pos ⟨hfit.2 hs, (hstands _).2 hst, hc⟩]
        refine .inr ⟨_, _, _, rfl, rfl, ⟨hw.commit hdrop, rfl, rfl⟩, ?_⟩
        show s.currentPos < o + packetSize (s.unpacker.sizesAt dc o)
        by_contra hno
        have hzero : packetSize (s.unpacker.sizesAt dc o) = 0 := by omega
        rw [hzero, List.take_zero] at hc
        exact hpos hc hzero
      · rw [hreport, hw.checkSzCb, if_neg hacc, if_neg fun h => hacc ⟨hfit.1 h.1, (hstands _).1 h.2.1, h.2.2⟩]
        refine .inr ⟨_, _, _, rfl, rfl, ⟨hw, rfl, rfl⟩, ?_⟩
        show s.currentPos < o + 1
        omega

theorem pass_done {s : Loop} (h : ¬ s.currentPos < s.totalSize) : pass s = .ok .stop := by
  unfold pass
  split
  · rw [UnPacker.keysPass, if_neg h]; rfl
  · rw [UnPacker.keysPass, if_neg h]; rfl
  · split
    · rw [UnPacker.cbPass, if_neg h]; rfl
    · rfl
  · rfl

/-- So the loops come back with the same packets. The induction is on the bytes still
to be looked at. -/
theorem Alike.runLoop (ha : Alike u u') (hm : u.unpackerModel ≠ .kNone) (hi : u.Inv) {s s' : Loop}
    (hs : Reached u s) (hs' : Reached u' s') (h : TwinLoops s s') (rd : List (List UInt8)) :
    ∃ fuel packs v v', runLoop fuel s rd = .ok (packs, v) ∧ runLoop fuel s' rd = .ok (packs, v') ∧
    v.content = v'.content := by
  induction hd : s.totalSize - s.currentPos using Nat.strong_induction_on generalizing s s' rd with
  | _ d ih =>
  by_cases hlt : s.currentPos < s.totalSize
  swap
  · have hlt' : ¬ s'.currentPos < s'.totalSize := by rw [h.currentPos, h.totalSize]; exact hlt
    refine ⟨1, rd, s.unpacker, s'.unpacker, ?_, ?_, h.twins.content.symm⟩
    · rw [UnPacker.runLoop, pass_done hlt]; rfl
    · rw [UnPacker.runLoop, pass_done hlt']; rfl
  obtain ⟨hu, hu', hr⟩ := ha s s' hs hs' h hlt
  rcases pass_twins h (by rw [(hs.during hi).model]; exact hm) hu hu' hr hlt with
    ⟨hp, hp'⟩ | ⟨p, t, t', hp, hp', ht, hadv⟩
  · refine ⟨1, rd, s.unpacker, s'.unpacker, ?_, ?_, h.twins.content.symm⟩
    · rw [UnPacker.runLoop, hp]; rfl
    · rw [UnPacker.runLoop, hp']; rfl
  · have htotal : t.totalSize = s.totalSize := (show Steps s t from ⟨p, hp⟩).unpacker.2
    obtain ⟨fuel, packs, v, v', hrun, hrun', hc⟩ :=
      ih (t.totalSize - t.currentPos) (by omega) (hs.next ⟨p, hp⟩)
      (hs'.next ⟨p, hp'⟩) ht (rd ++ p.toList) rfl
    refine ⟨fuel + 1, packs, v, v', ?_, ?_, hc⟩
    · rw [UnPacker.runLoop, hp]; exact hrun
    · rw [UnPacker.runLoop, hp']; exact hrun'

/-- `Get` treats such rings alike. -/
theorem Twins.same (h : Twins u u') (ha : Alike u u') : Same u u' := by
  by_cases hm : u.unpackerModel = .kNone
  · refine ⟨[], u, u', gets_iff.2 ?_, gets_iff.2 ?_, h.content.symm⟩
    · unfold Packs; rw [hm]
    · unfold Packs; rw [h.model, hm]
  obtain ⟨fuel, packs, v, v', hr, hr', hc⟩ := ha.runLoop hm h.inv (.start rfl) (.start rfl)
    (show TwinLoops (Loop.start u) (Loop.start u') from ⟨h, rfl, h.length⟩) []
  refine ⟨packs, v, v', gets_iff.2 (packs_iff.2 ⟨fuel, .kSuccess, ?_⟩),
    gets_iff.2 (packs_iff.2 ⟨fuel, .kSuccess, ?_⟩), hc⟩
  · rw [getPack_run hm, hr]; rfl
  · rw [getPack_run (by rw [h.model]; exact hm), hr']; rfl

/-! ## Keys no placement can break -/

/-- One byte, or more bytes than the ring has. -/
def Easy (u : UnPacker) (key : List UInt8) : Prop := key.length = 1 ∨ u.capacity < key.length

theorem Easy.findsFirst {key : List UInt8} (he : u.Easy key) (hi : u.Inv) (start : Nat) :
    u.FindsFirst key start := by
  have hl := hi.length_le
  by_cases href : key = [] ∨ u.length < key.length ∨ u.length ≤ start
  · exact .refused href
  obtain ⟨-, hk, hst⟩ := (not_or.1 href).imp_right not_or.1
  have hpos := part1_pos hi (Nat.not_le.1 hst)
  have hone : key.length = 1 := he.resolve_right (by omega)
  refine .long (by omega) fun o _ => ?_
  have hm := absStart_lt hi o
  omega

theorem Easy.findKey {key : List UInt8} (he : u.Easy key) (hi : u.Inv) (h0 : key ≠ []) (start : Nat) :
    u.findKey key start = .ok ((first key u.content start).getD u.capacity) :=
  (he.findsFirst hi start).findKey hi h0

/-- An unpacker whose ring holds `n` bytes of `buffer` from index `r` on. -/
def placed (headKey tailKey : List UInt8) (dc : Option DataSzCb) (cc : Option CheckValidCb)
    (buffer : List UInt8) (hb : buffer.length ≤ maxSize) (r n : Nat) : UnPacker :=
  { createWithCallbacks headKey tailKey dc cc buffer.length hb with
    readIndex := r
    writeIndex := (r + n) % buffer.length
    length := n
    buffer := buffer
    size_le := hb }

section
variable {h t : List UInt8} {dc : Option DataSzCb} {cc : Option CheckValidCb} {c : Nat}

theorem placed_inv {buffer : List UInt8} (hb : buffer.length ≤ maxSize) {r n : Nat} (hr : r < buffer.length)
    (hn : n ≤ buffer.length) : (placed h t dc cc buffer hb r n).Inv where
  read_lt := hr
  write_lt := Nat.mod_lt _ (by omega)
  length_le := hn
  write_eq := rfl

/-- In a ring full of another byte than the first of the head key, with the stored
bytes beginning one byte too close to the array's end for the key, the first
search never ends. -/
theorem uniform_diverges (hi : u.Inv) {x b : UInt8} {h' : List UInt8} (hkey : u.headKey = x :: h')
    (hb : b ≠ x) (hcell : ∀ i < u.capacity, u.cell i = b) (hlen : u.length = h'.length + 1)
    (hread : u.readIndex + h'.length = u.capacity) (hpos : 0 < h'.length) :
    u.findKey u.headKey 0 = .error .diverges := by
  refine findKey_diverges hi (by omega) (by rw [hkey, List.length_cons]; omega) ?_ fun i _ => ?_
  · show min (u.capacity - u.readIndex % u.capacity) (u.length - 0) + 1 = _
    rw [Nat.mod_eq_of_lt hi.read_lt, hlen, hkey, List.length_cons]; omega
  · rw [hit1, hkey, keyMatches, if_pos]
    rw [hcell _ (Nat.mod_lt _ hi.capacity_pos)]
    exact hb

end

/-! ## When the placement does not matter -/

section
variable {h t : List UInt8} {dc : Option DataSzCb} {cc : Option CheckValidCb} {c : Nat}

end

end NebulaToolkit.UnPacker
