import NebulaToolkit.Passes
import NebulaToolkit.Placement
/-!
# Which calls end

`FindKey` is meant to look at the places of its first part and no others. It
does while that part is no shorter than the key or holds a hit (`InPart`);
else `part1_size - key_len` wraps and the loop runs on, up to all `2 ^ 64`
values of its counter (`searchEnds_iff`). The packet loops go on further with
every iteration as long as their searches end so and no packet is empty
(`call_ends_iff`).
-/

namespace NebulaToolkit.UnPacker

open Lib

variable {u : UnPacker} {key : List UInt8} {start : Nat}

/-! ## A search -/

/-- How many places the first loop of `FindKey` has looked at after `fuel` iterations. -/
def inspected (u : UnPacker) (key : List UInt8) (start fuel : Nat) : Nat :=
  if key = [] ∨ u.length < key.length ∨ u.length ≤ start then 0
  else inspections 64 (subSz (u.part1 start) key.length) (u.hit1 key start) fuel 0

/-- The loops of the search end, the first one within the first part. -/
def SearchEnds (u : UnPacker) (key : List UInt8) (start : Nat) : Prop :=
  (∃ o, u.findKey key start = .ok o) ∧ ∀ fuel, u.inspected key start fuel ≤ u.part1 start

/-- The search is refused, or its first part is as long as the key, or the key can be
read from a place of that part on. -/
def InPart (u : UnPacker) (key : List UInt8) (start : Nat) : Prop :=
  (key = [] ∨ u.length < key.length ∨ u.length ≤ start) ∨ key.length ≤ u.part1 start ∨
    ∃ i < u.part1 start, u.ReadsAt key (start + i)

section
variable (hi : u.Inv)
include hi

/-- What such a search finds lies among the stored bytes. -/
theorem InPart.findKey (h : u.InPart key start) : ∃ o, u.findKey key start = .ok o ∧
    (o = u.capacity ∨ start ≤ o ∧ o < u.length ∧ key ≠ [] ∧ key.length ≤ u.length ∧
      u.ReadsAt key o) := by
  have hl := hi.length_le
  have hC := u.capacity_lt
  by_cases hg : key = [] ∨ u.length < key.length ∨ u.length ≤ start
  · exact ⟨_, findKey_refused hg, .inl rfl⟩
  have h := h.resolve_left hg
  simp only [not_or, Nat.not_lt, Nat.not_le] at hg
  obtain ⟨h0, hk, hst⟩ := hg
  have hkp := List.length_pos_iff.2 h0
  by_cases hp : key.length ≤ u.part1 start
  · obtain ⟨o, hf, ho⟩ := findKey_stored hi h0 hst hk hp
    refine ⟨o, hf, ho.imp_right fun hstored => ?_⟩
    obtain ⟨hge, hle, hocc⟩ := hstored
    exact ⟨hge, by omega, h0, hk, (readsAt_iff hle).2 hocc⟩
  · obtain ⟨i, hip, hr⟩ := h.resolve_left hp
    unfold part1 at hip hp
    obtain ⟨o, ho, hso, hle, hro⟩ :=
      findKey_short hi hst hk (by unfold part1; omega) (i := i) (by omega) (by omega) hr
    exact ⟨o, ho, .inr ⟨hso, by omega, h0, hk, hro⟩⟩

/-- The first loop stays in the first part just then, and the search comes back. -/
theorem searchEnds_iff : u.SearchEnds key start ↔ u.InPart key start := by
  have hl := hi.length_le
  have hC := u.capacity_lt
  by_cases hg : key = [] ∨ u.length < key.length ∨ u.length ≤ start
  · refine iff_of_true ⟨⟨_, findKey_refused hg⟩, fun fuel => ?_⟩ (.inl hg)
    rw [inspected, if_pos hg]
    exact Nat.zero_le _
  unfold SearchEnds inspected
  simp only [if_neg hg]
  have hpm : u.part1 start ≤ u.capacity - (u.readIndex + start) % u.capacity := Nat.min_le_left _ _
  have hit (i : Nat) (h : i < u.part1 start) (hk : key.length ≤ u.length) :
      u.hit1 key start i = true ↔ u.ReadsAt key (start + i) := hit1_iff (by omega)
  constructor
  · rintro ⟨-, hfew⟩
    by_contra hno
    simp only [InPart, not_or, not_exists, not_and, Nat.not_lt, Nat.not_le] at hno hg
    obtain ⟨-, hp, hmiss⟩ := hno
    -- Nothing ends the loop before its counter has left the part.
    have hbound := findKey_short_bound hi hp hg.2.1
    have hmany := hfew (u.part1 start + 1)
    rw [hbound] at hmany
    have hall : inspections 64 (2 ^ 64 - (key.length - u.part1 start)) (u.hit1 key start)
        (u.part1 start + 1 - 0) 0 =
        u.part1 start + 1 - 0 := by
      refine inspections_all (by omega) (by omega) (Nat.zero_le _) fun j _ hj => ?_
      rw [← Bool.not_eq_true, hit j hj hg.2.1]
      exact hmiss j hj
    rw [Nat.sub_zero] at hall
    omega
  · intro h
    obtain ⟨o, ho, -⟩ := h.findKey hi
    refine ⟨⟨o, ho⟩, fun fuel => ?_⟩
    have h := h.resolve_left hg
    simp only [not_or, Nat.not_lt, Nat.not_le] at hg
    obtain ⟨h0, hk, hst⟩ := hg
    have hkp := List.length_pos_iff.2 h0
    by_cases hp : key.length ≤ u.part1 start
    · have hsub : subSz (u.part1 start) key.length = u.part1 start - key.length := wsub_of_le hp (by omega)
      have hmiss : 0 + inspections 64 (u.part1 start - key.length) (u.hit1 key start) fuel 0 ≤
          u.part1 start - key.length + 1 :=
        inspections_miss (by omega) fuel (Nat.zero_le _)
      rw [hsub]
      omega
    · obtain ⟨i, hip, hr⟩ := h.resolve_left hp
      have hfew : 0 + inspections 64 (subSz (u.part1 start) key.length) (u.hit1 key start) fuel 0 ≤ i + 1 :=
        inspections_hit (by omega) ((hit i hip hk).2 hr) fuel (Nat.zero_le i)
      omega

end

/-! ## A call -/

/-- The searches an iteration makes. -/
inductive Searches (s : Loop) : List UInt8 → Nat → Prop
  | head : s.unpacker.unpackerModel ≠ .kNone → s.currentPos < s.totalSize →
      Searches s s.unpacker.headKey s.currentPos
  | endKey {o : Nat} : s.unpacker.Keyed → HeadAt s o →
      Searches s s.unpacker.endKey (addSz o s.unpacker.headKey.length)
  | tailKey {o : Nat} {dc : DataSzCb} : s.unpacker.unpackerModel = .kHeadTailCb →
      s.unpacker.dataSzCb = some dc → HeadAt s o →
      SizesFit s.unpacker (s.unpacker.sizesAt dc o) o s.totalSize →
      Searches s s.unpacker.tailKey (tailAt (s.unpacker.sizesAt dc o) o)

/-- Every search of the call ends, in its first part, and so does the packet loop. -/
structure CallEnds (u : UnPacker) : Prop where
  searches : ∀ s, Reached u s → ∀ key start, Searches s key start → s.unpacker.SearchEnds key start
  loop : ∃ fuel, getPack fuel u [] ≠ .error .running

/-- An empty packet is handed out: the sizes of a frame sum to `2 ^ 64`, or twice that. -/
def Empty (s : Loop) (o : Nat) : Prop :=
  s.unpacker.unpackerModel = .kHeadTailCb ∧ ∃ dc, s.unpacker.dataSzCb = some dc ∧ FrameAt dc s o ∧
    packetSize (s.unpacker.sizesAt dc o) = 0 ∧ s.unpacker.checkSzCb.all (· []) = true

/-- Iteration by iteration: no search has to leave its first part, and no packet is empty. -/
def Bounded (u : UnPacker) : Prop :=
  ∀ s, Reached u s → (∀ key start, Searches s key start → s.unpacker.InPart key start) ∧ ∀ o, ¬ Empty s o

section
variable {s s' : Loop} {o : Nat}

/-- A head that is found stands where the search began, or further behind. -/
theorem HeadAt.bounds (hi : s.unpacker.Inv) (h : HeadAt s o) (hm : s.unpacker.unpackerModel ≠ .kNone)
    (hs : ∀ key start, Searches s key start → s.unpacker.InPart key start) :
    s.currentPos ≤ o ∧ o < s.unpacker.length ∧ s.unpacker.headKey.length ≤ s.unpacker.length ∧
      s.unpacker.ReadsAt s.unpacker.headKey o := by
  obtain ⟨hlt, hf, hne⟩ := h
  obtain ⟨o', ho', hwhere⟩ := (hs _ _ (.head hm hlt)).findKey hi
  rw [hf] at ho'
  cases ho'
  obtain ⟨h1, h2, -, h3, h4⟩ := hwhere.resolve_left hne
  exact ⟨h1, h2, h3, h4⟩

/-- An iteration that meets the condition goes on further behind. -/
theorem Steps.advances (hi : s.unpacker.Inv) (h : Steps s s')
    (hs : ∀ key start, Searches s key start → s.unpacker.InPart key start) (he : ∀ o, ¬ Empty s o) :
    s.currentPos < s'.currentPos := by
  have hl := hi.length_le
  have hC := s.unpacker.capacity_lt
  obtain ⟨o, e, p, hk, ⟨hhead, hend, hne⟩, -, rfl⟩ | ⟨dc, o, hmode, hdc, hhead, hnext⟩ := h.cases
  · obtain ⟨hco, hol, hkl, -⟩ := hhead.bounds hi hk.model_ne hs
    obtain ⟨e', he', hwhere⟩ := (hs _ _ (.endKey hk hhead)).findKey hi
    rw [hend] at he'
    cases he'
    obtain ⟨hse, hel, -, hkl', -⟩ := hwhere.resolve_left hne
    have hx := hk.extra_le
    have hkp := List.length_pos_iff.2 (headKey_ne hk.model_ne)
    rw [show addSz o s.unpacker.headKey.length = _ from wadd_of_lt (by omega)] at hse
    show s.currentPos < addSz e s.unpacker.extra
    rw [show addSz e s.unpacker.extra = _ from wadd_of_lt (by omega)]
    omega
  obtain ⟨hco, hol, -⟩ := hhead.bounds hi (by rw [hmode]; decide) hs
  rcases hnext with rfl | ⟨p, hframe, hp, hc, rfl⟩
  · show s.currentPos < addSz o 1
    rw [show addSz o 1 = _ from wadd_of_lt (by omega)]
    omega
  · have hsize := copyPacket_length hi hp
    have hmax := copyPacket_le hp
    have hpos : packetSize (s.unpacker.sizesAt dc o) ≠ 0 := by
      intro h0
      have hnil : p = [] := List.eq_nil_of_length_eq_zero (hsize.trans h0)
      exact he o ⟨hmode, dc, hdc, hframe, h0, by rwa [hnil] at hc⟩
    show s.currentPos < addSz o (packetSize (s.unpacker.sizesAt dc o))
    unfold maxSize at hmax
    rw [show addSz o (packetSize (s.unpacker.sizesAt dc o)) = _ from wadd_of_lt (by omega)]
    omega

/-- An empty packet leaves the ring as it is, and the same head is found again. -/
theorem Empty.again (hi : s.unpacker.Inv) (hlen : s.unpacker.length ≤ s.totalSize) (h : Empty s o)
    (hs : ∀ key start, Searches s key start → s.unpacker.InPart key start) :
    pass s = .ok (.next (some []) ⟨s.unpacker, o, s.totalSize⟩) ∧
      pass ⟨s.unpacker, o, s.totalSize⟩ = .ok (.next (some []) ⟨s.unpacker, o, s.totalSize⟩) := by
  have hl := hi.length_le
  have hC := s.unpacker.capacity_lt
  obtain ⟨hmode, dc, hdc, hframe, h0, hc⟩ := h
  have hm : s.unpacker.unpackerModel ≠ .kNone := by rw [hmode]; decide
  obtain ⟨-, hol, hkl, hr⟩ := hframe.1.bounds hi hm hs
  have hcopy : s.unpacker.copyPacket o 0 = .ok [] := by
    rw [copyPacket_eq hi hol (Nat.le_of_lt hol), List.take_zero]
  have hadd : addSz o 0 = o := wadd_of_lt (by omega)
  have hpass (t : Loop) (ht : t.unpacker = s.unpacker) (htotal : t.totalSize = s.totalSize)
      (hhead : HeadAt t o) :
      pass t = .ok (.next (some []) ⟨s.unpacker, o, s.totalSize⟩) := by
    obtain ⟨v, cur, total⟩ := t
    obtain rfl : v = s.unpacker := ht
    obtain rfl : total = s.totalSize := htotal
    obtain ⟨-, hfit, htail⟩ := hframe
    rw [pass_cb (s := ⟨s.unpacker, cur, s.totalSize⟩) hmode hdc, cbPass_frame ⟨hhead, hfit, htail⟩]
    dsimp only
    rw [h0, hcopy, hadd, commit_zero hi]
    simp only [bind, Except.bind, hc, if_true]
    rfl
  refine ⟨hpass s rfl rfl hframe.1, hpass _ rfl rfl ⟨?_, ?_, hframe.1.2.2⟩⟩
  · show o < s.totalSize
    omega
  · exact findKey_reads hi (headKey_ne hm) hol hkl hr

end

/-- Two bytes stored from the array's last cell on, in a ring of zeros: one byte is too
few for the head key, and the first search never ends. -/
theorem two_byte_head_hangs :
    let u := placed [1, 2] [3] none none (List.replicate 4 0) (by decide) 3 2
    u.Inv ∧ u.findKey u.headKey 0 = .error .diverges ∧ ¬ u.CallEnds := by
  intro u
  have hi : u.Inv := placed_inv _ (by decide) (by decide)
  have hcell (i : Nat) (h : i < 4) : u.cell i = 0 := by
    show (List.replicate 4 (0 : UInt8)).getD i 0 = 0
    rw [List.getD_eq_getElem _ _ (by simpa using h), List.getElem_replicate]
  have hdiv : u.findKey u.headKey 0 = .error .diverges :=
    uniform_diverges hi (show u.headKey = 1 :: [2] from rfl) (by decide) hcell rfl rfl (by decide)
  refine ⟨hi, hdiv, fun h => ?_⟩
  obtain ⟨⟨o, ho⟩, -⟩ := h.searches (Loop.start u) (Reachable.start rfl) _ _ (.head (by decide) (by decide))
  cases hdiv.symm.trans ho

/-- A call ends, with all its searches, just when every iteration meets the condition. -/
theorem call_ends_iff (hi : u.Inv) : u.CallEnds ↔ u.Bounded := by
  constructor
  · rintro ⟨hsearches, fuel, hloop⟩ s hs
    have hd := hs.during hi
    have hin (key : List UInt8) (start : Nat) (h : Searches s key start) : s.unpacker.InPart key start :=
      (searchEnds_iff hd.inv).1 (hsearches s hs key start h)
    refine ⟨hin, fun o he => hloop ?_⟩
    obtain ⟨hfirst, hagain⟩ := he.again hd.inv (by rw [hd.totalSize]; exact hd.length_le) hin
    rw [getPack_run (by rw [← hd.model, he.1]; decide), Reached.spins (hs.next ⟨_, hfirst⟩) hagain]
    rfl
  · intro h
    refine ⟨fun s hs key start hsearch =>
      (searchEnds_iff (hs.during hi).inv).2 ((h s hs).1 key start hsearch), ?_⟩
    by_cases hm : u.unpackerModel = .kNone
    · refine ⟨0, fun hrun => ?_⟩
      rw [getPack, hm] at hrun
      cases hrun
    obtain ⟨fuel, hf⟩ := runLoop_ends (u := u) fun s s' hs hstep =>
      hstep.advances (hs.during hi).inv (h s hs).1 (h s hs).2
    refine ⟨fuel, fun hrun => hf ?_⟩
    rw [getPack_run hm] at hrun
    cases hr : runLoop fuel (Loop.start u) [] with
    | ok r =>
      rw [hr] at hrun
      cases hrun
    | error f =>
      rw [hr] at hrun
      exact congrArg Except.error (Except.error.inj hrun)

/-- The theorem for keys of one byte, whose searches never have to leave their first part. -/
theorem call_ends_iff_bytes :
    let u := (createBasic [1] [2] 8 (by decide)).writeRing [9, 1, 7, 2, 1]
    u.Inv ∧ u.CallEnds := by
  intro u
  have hi : u.Inv := writeRing_inv (u := createBasic [1] [2] 8 (by decide))
    (RingBuffer.ofSize_inv (by decide) (by decide)) _
  refine ⟨hi, (call_ends_iff hi).2 fun s hs => ⟨fun key start h => ?_, fun o he => ?_⟩⟩
  · have hd := hs.during hi
    have hkey : key.length = 1 := by
      cases h with
      | head => rw [hd.headKey]; rfl
      | endKey hk =>
        rw [endKey_tail (by rw [hd.model]; rfl), hd.tailKey]
        rfl
      | tailKey hm => rw [hd.model] at hm; cases hm
    by_cases hst : start < s.unpacker.length
    · have hpos := part1_pos hd.inv hst
      exact .inr (.inl (by omega))
    · exact .inl (.inr (.inr (Nat.not_lt.1 hst)))
  · have hm := he.1
    rw [(hs.during hi).model] at hm
    cases hm

end NebulaToolkit.UnPacker
