import Mathlib.Data.List.Count
import NebulaToolkit.Chunking
import NebulaToolkit.Consumption
/-!
# Sessions

With keys of one byte no search is misled by where the bytes lie, so a
connection may go round the ring as often as it likes. What is then left to ask
of the peer is that the ring has room and that no push completes two packets:
each is handed out by the push that completes it, and nothing else is
(`session_decodes` for a head and a tail key, `head_session_decodes` for a
head key alone).
-/

namespace NebulaToolkit.UnPacker

open Lib

variable {u : UnPacker}

/-! ## One push -/

theorem searchOk_byte (hi : u.Inv) {key : List UInt8} (h1 : key.length = 1) (start : Nat) :
    u.SearchOk key start := by
  by_cases hst : start < u.length
  · have hpart := part1_pos hi hst
    refine .inr (.inr ?_)
    rw [if_pos (by omega)]
    intro o _ _
    have := Nat.mod_lt (u.readIndex + o) hi.capacity_pos
    omega
  · exact .inl (Nat.not_lt.1 hst)

/-- Both keys have one byte: the head key, and the one that ends a packet. -/
structure Bytes (u : UnPacker) : Prop where
  keyed : u.Keyed
  inv : u.Inv
  head : u.headKey.length = 1
  last : u.endKey.length = 1

theorem Bytes.clean (hb : u.Bytes) (hone : OnePacket u.headKey u.endKey u.extra u.content) : u.Clean := by
  have hh := headKey_ne hb.keyed.model_ne
  have he := hb.keyed.endKey_ne
  refine ⟨searchOk_byte hb.inv hb.head 0, fun o ho => ⟨searchOk_byte hb.inv hb.last _, fun e hoe => ?_⟩⟩
  obtain ⟨h0, hrest⟩ := hone _ (firstPacket_eq_some.2 ⟨ho, hoe⟩)
  have hx := hb.keyed.extra_le
  have hle := first_bound he hoe
  rw [RingBuffer.content_length] at hle
  have hi' := commit_inv hb.inv (e + u.extra)
  refine ⟨h0, fun _ o' _ _ => ?_, fun o' ho' => ⟨searchOk_byte hi' hb.last _, ?_⟩⟩
  · have := Nat.mod_lt ((u.commit (e + u.extra)).readIndex + o') hi'.capacity_pos
    rw [commit_headKey, hb.head]
    exact this
  · rw [commit_headKey, commit_content hb.inv (by omega)] at ho'
    rw [commit_endKey, commit_headKey, commit_content hb.inv (by omega)]
    exact no_end_of_no_packet hh he hrest ho'

/-- What a call hands out and leaves, when at most one packet is complete. -/
theorem Bytes.call (hb : u.Bytes) (hone : OnePacket u.headKey u.endKey u.extra u.content) :
    ∃ n v, v = u.commit n ∧ u.Packs (packetsOf u.headKey u.endKey u.extra u.content, v) ∧ v.Bytes ∧
      v.content = leftover u.headKey u.endKey u.extra u.content := by
  have hcall := clean_call hb.keyed hb.inv (hb.clean hone)
  cases hf : firstPacket u.headKey u.endKey u.content with
  | none =>
    rw [hf] at hcall
    rw [packetsOf_none hf, leftover, hf]
    exact ⟨0, u, (commit_zero hb.inv).symm, hcall, hb, rfl⟩
  | some p =>
    obtain ⟨o, e⟩ := p
    rw [hf] at hcall
    rw [packetsOf_some hf, leftover, hf]
    have hle := first_bound hb.keyed.endKey_ne (firstPacket_eq_some.1 hf).2
    have hx := hb.keyed.extra_le
    rw [RingBuffer.content_length] at hle
    exact ⟨_, _, rfl, hcall, ⟨hb.keyed.commit _, commit_inv hb.inv _, hb.head, hb.last⟩,
      commit_content hb.inv (by omega)⟩

/-- The same for a push. -/
theorem Bytes.push (hb : u.Bytes) {bs : List UInt8} (h0 : bs ≠ []) (hroom : u.length + bs.length ≤ u.capacity)
    (hone : OnePacket u.headKey u.endKey u.extra (u.content ++ bs)) :
    ∃ n v, v = (u.writeRing bs).commit n ∧
    u.Pushes bs (packetsOf u.headKey u.endKey u.extra (u.content ++ bs)) v ∧
      v.Bytes ∧
      v.content = leftover u.headKey u.endKey u.extra (u.content ++ bs) := by
  have hcont := writeRing_content hb.inv hroom h0
  have hw : (u.writeRing bs).Bytes := ⟨hb.keyed.writeRing bs, writeRing_inv hb.inv bs, hb.head, hb.last⟩
  obtain ⟨n, v, hv, hcall, hbv, hrest⟩ := hw.call (by rw [hcont]; exact hone)
  rw [writeRing_headKey, writeRing_endKey, writeRing_extra, hcont] at hcall hrest
  exact ⟨n, v, hv, pushes_iff.2 hcall, hbv, hrest⟩

/-- The keys `h` and `t`, and room for `c` bytes. -/
structure Keys (h t : UInt8) (c : Nat) (u : UnPacker) : Prop where
  bytes : u.Bytes
  head : u.headKey = [h]
  last : u.endKey = [t]
  extra : u.extra = 1
  capacity : u.capacity = c

theorem create_keys (h t : UInt8) {c : Nat} (hc : c ≤ maxSize) (h0 : 0 < c) :
    Keys h t c (createBasic [h] [t] c hc) :=
  ⟨⟨.inr rfl, create_inv [h] [t] none none hc h0, rfl, rfl⟩, rfl, rfl, rfl, RingBuffer.ofSize_capacity hc⟩

/-- A push, or bytes read into the window and a `Get`. -/
theorem Keys.pushed {h t : UInt8} {c : Nat} (hk : Keys h t c u) {bs : List UInt8} {packs : List (List UInt8)}
    {v : UnPacker} (h0 : bs ≠ [])
    (hroom : u.length + bs.length ≤ u.capacity) (hone : OnePacket [h] [t] 1 (u.content ++ bs))
    (hg : (u.writeRing bs).Gets packs v) :
    packs = packetsOf [h] [t] 1 (u.content ++ bs) ∧ Keys h t c v ∧
    v.content = leftover [h] [t] 1 (u.content ++ bs) ∧
      v.writeIndex = (u.writeIndex + bs.length) % c := by
  obtain ⟨hb, hhead, hlast, hextra, hcap⟩ := hk
  obtain ⟨n, w, hw, hpush, hbw, hcw⟩ := hb.push h0 hroom (by rw [hhead, hlast, hextra]; exact hone)
  rw [hhead, hlast, hextra] at hpush hcw
  obtain ⟨rfl, rfl⟩ := Prod.mk.inj ((gets_iff.1 hg).unique (pushes_iff.1 hpush))
  refine ⟨rfl, ⟨hbw, ?_, ?_, ?_, ?_⟩, hcw, ?_⟩
  · exact (congrArg headKey hw).trans hhead
  · exact (congrArg UnPacker.endKey hw).trans hlast
  · exact (congrArg UnPacker.extra hw).trans hextra
  · rw [hw, commit_capacity, writeRing_capacity hb.inv, hcap]
  · rw [hw, commit_writeIndex, writeRing_ring hb.inv hroom h0, ← hcap]
    simp [RingBuffer.append, RingBuffer.growBack, RingBuffer.capacity]

/-! ## Many pushes -/

section
variable (headKey endKey : List UInt8) (extra c : Nat)

/-- The chunks `cut`, pushed after the bytes `q`: each finds room, and completes at most one packet. -/
def Paced : List UInt8 → List (List UInt8) → Prop
  | _, [] => True
  | q, b :: cut => b ≠ [] ∧ (q ++ b).length ≤ c ∧ OnePacket headKey endKey extra (q ++ b) ∧
      Paced (leftover headKey endKey extra (q ++ b)) cut

/-- What each push hands out. -/
def handedOut : List UInt8 → List (List UInt8) → List (List (List UInt8))
  | _, [] => []
  | q, b :: cut =>
    packetsOf headKey endKey extra (q ++ b) :: handedOut (leftover headKey endKey extra (q ++ b)) cut

/-- What is left in the end. -/
def remains : List UInt8 → List (List UInt8) → List UInt8
  | q, [] => q
  | q, b :: cut => remains (leftover headKey endKey extra (q ++ b)) cut

end

theorem Bytes.run (hb : u.Bytes) (cut : List (List UInt8))
    (h : Paced u.headKey u.endKey u.extra u.capacity u.content cut) :
    ∃ v, Trace Pushes u cut (handedOut u.headKey u.endKey u.extra u.content cut) v ∧
      v.content = remains u.headKey u.endKey u.extra u.content cut := by
  induction cut generalizing u with
  | nil => exact ⟨u, .nil u, rfl⟩
  | cons b cut ih =>
    obtain ⟨h0, hroom, hone, hrest⟩ := h
    rw [List.length_append, RingBuffer.content_length] at hroom
    obtain ⟨n, v, hv, hpush, hbv, hcont⟩ := hb.push h0 hroom hone
    -- The keys and the capacity stay.
    have hcap : v.capacity = u.capacity := by rw [hv, commit_capacity, writeRing_capacity hb.inv]
    have hhead : v.headKey = u.headKey := by rw [hv]; rfl
    have hlast : v.endKey = u.endKey := by rw [hv]; rfl
    have hextra : v.extra = u.extra := by rw [hv]; rfl
    obtain ⟨w, ht, hw⟩ := ih hbv (by rw [hcap, hhead, hlast, hextra, hcont]; exact hrest)
    rw [hhead, hlast, hextra, hcont] at ht hw
    exact ⟨w, .cons hpush ht, hw⟩

/-! ## Packets of bytes -/

section
variable {h e : UInt8} {p q xs : List UInt8}

theorem occursAt_byte {i : Nat} : OccursAt [e] xs i ↔ xs[i]? = some e := by
  rw [occursAt_iff]
  constructor
  · exact fun hj => hj 0 Nat.one_pos
  · intro hi j hj
    obtain rfl : j = 0 := by simpa using hj
    exact hi

/-- A head, bytes without `e`, and an `e` behind them. -/
theorem firstPacket_bytes (hp : e ∉ p) : firstPacket [h] [e] (h :: p ++ e :: q) = some (0, p.length + 1) := by
  refine firstPacket_eq_some.2 ⟨(first_eq_some (by simp)).2 ⟨Nat.le_refl 0, occursAt_byte.2 rfl, by omega⟩,
    (first_eq_some (by simp)).2 ⟨by simp, occursAt_byte.2 (by simp), fun j h₁ h₂ ho => hp ?_⟩⟩
  rw [occursAt_byte] at ho
  obtain ⟨j, rfl⟩ : ∃ i, j = i + 1 := ⟨j - 1, by simp at h₁; omega⟩
  rw [List.cons_append, List.getElem?_cons_succ, List.getElem?_append_left (by omega)] at ho
  exact List.mem_of_getElem? ho

/-- Nothing is complete without an `e` behind the first byte. -/
theorem firstPacket_bytes_none (hx : e ∉ xs.tail) : firstPacket [h] [e] xs = none := by
  cases hf : firstPacket [h] [e] xs with
  | none => rfl
  | some p =>
    obtain ⟨o, i⟩ := p
    obtain ⟨hs, ho, -⟩ := (first_eq_some (by simp)).1 (firstPacket_eq_some.1 hf).2
    rw [occursAt_byte] at ho
    obtain ⟨i, rfl⟩ : ∃ j, i = j + 1 := ⟨i - 1, by simp at hs; omega⟩
    rw [← List.getElem?_tail] at ho
    exact absurd (List.mem_of_getElem? ho) hx

/-! ## A head and a tail key -/

/-- A payload between the two keys. -/
def framed (h t : UInt8) (p : List UInt8) : List UInt8 := h :: p ++ [t]

theorem framed_length (h t : UInt8) (p : List UInt8) : (framed h t p).length = p.length + 2 := by
  simp [framed]

/-- A push completes the next frame, or it brings no tail key. -/
theorem framed_step {h t : UInt8} {q b later : List UInt8} {ps : List (List UInt8)} (hp : ∀ p ∈ ps, t ∉ p)
    (hne : h ≠ t) (hq : t ∉ q) (hone : b.count t ≤ 1)
    (heq : q ++ b ++ later = (ps.map (framed h t)).flatten) :
    (b.count t = 0 ∧ t ∉ q ++ b) ∨
      ∃ p ps' r, ps = p :: ps' ∧ b.count t = 1 ∧ q ++ b = framed h t p ++ r ∧ t ∉ r ∧
        r ++ later = (ps'.map (framed h t)).flatten := by
  rcases Nat.le_one_iff_eq_zero_or_eq_one.1 hone with h0 | h1
  · refine .inl ⟨h0, fun hm => ?_⟩
    rcases List.mem_append.1 hm with hm | hm
    · exact hq hm
    · exact List.count_eq_zero.1 h0 hm
  · have hmem : t ∈ b := List.count_pos_iff.1 (by omega)
    cases ps with
    | nil =>
      rw [List.map_nil, List.flatten_nil, List.append_eq_nil_iff, List.append_eq_nil_iff] at heq
      rw [heq.1.2] at hmem
      cases hmem
    | cons p ps =>
      rw [List.map_cons, List.flatten_cons] at heq
      have hcount : (q ++ b).count t = 1 := by rw [List.count_append, List.count_eq_zero.2 hq, h1]
      have inside {r : List UInt8} (hr : q ++ b = framed h t p ++ r) : t ∉ r := by
        rw [hr, List.count_append, framed, List.count_append, List.count_singleton_self] at hcount
        exact List.count_eq_zero.1 (by omega)
      rcases List.append_eq_append_iff.1 heq with ⟨as, hf, hl⟩ | ⟨r, hr, hl⟩
      · rcases as.eq_nil_or_concat with rfl | ⟨as, x, rfl⟩
        · rw [List.append_nil] at hf
          have hr : q ++ b = framed h t p ++ [] := by rw [hf, List.append_nil]
          exact .inr ⟨p, ps, [], rfl, h1, hr, inside hr, by rw [hl]; rfl⟩
        · -- The frame is not complete, so the tail key would be in its payload.
          rw [List.concat_eq_append, framed, ← List.append_assoc] at hf
          have hpre := (List.append_inj' hf rfl).1
          have hm : t ∈ h :: p := hpre ▸ List.mem_append_left _ (List.mem_append_right _ hmem)
          rcases List.mem_cons.1 hm with he | hm
          · exact absurd he.symm hne
          · exact absurd hm (hp p (by simp))
      · exact .inr ⟨p, ps, r, rfl, h1, hr, inside hr, hl.symm⟩

/-- Bytes without a tail key are the beginning of one frame. -/
theorem framed_pending {h t : UInt8} {q later : List UInt8} {p : List UInt8} {ps : List (List UInt8)}
    (hq : t ∉ q) (heq : q ++ later = ((p :: ps).map (framed h t)).flatten) : q.length ≤ p.length + 1 := by
  rw [List.map_cons, List.flatten_cons] at heq
  by_contra hlt
  rcases List.append_eq_append_iff.1 heq with ⟨as, hf, -⟩ | ⟨r, hr, -⟩
  · have hlen := congrArg List.length hf
    rw [framed_length, List.length_append] at hlen
    have has : as = [] := List.length_eq_zero_iff.1 (by omega)
    rw [has, List.append_nil] at hf
    exact hq (hf ▸ by simp [framed])
  · exact hq (hr ▸ by simp [framed])

/-- What a call does with bytes that hold no tail key ... -/
theorem call_without_tail {h t : UInt8} {xs : List UInt8} (hx : t ∉ xs) :
    OnePacket [h] [t] 1 xs ∧ packetsOf [h] [t] 1 xs = [] ∧ leftover [h] [t] 1 xs = xs := by
  have hnone : firstPacket [h] [t] xs = none := firstPacket_bytes_none fun hm => hx (List.mem_of_mem_tail hm)
  refine ⟨fun p hp => ?_, packetsOf_none hnone, by rw [leftover, hnone]⟩
  rw [hnone] at hp
  cases hp

/-- So a `Get` finds nothing. -/
theorem Keys.idle {h t : UInt8} {c : Nat} {u v : UnPacker} {packs : List (List UInt8)} (hk : Keys h t c u)
    (hno : t ∉ u.content) (hg : u.Gets packs v) : packs = [] ∧ v = u := by
  have hnone : firstPacket [h] [t] u.content = none :=
    firstPacket_bytes_none fun hm => hno (List.mem_of_mem_tail hm)
  have hcall := clean_call hk.bytes.keyed hk.bytes.inv
    (hk.bytes.clean (by rw [hk.head, hk.last, hk.extra]; exact (call_without_tail hno).1))
  rw [hk.head, hk.last, hnone] at hcall
  exact Prod.mk.inj ((gets_iff.1 hg).unique hcall)

/-- ... and what a call does with a frame and the beginning of the next. -/
theorem call_with_frame {h t : UInt8} {p r : List UInt8} (hp : t ∉ p) (hr : t ∉ r) :
    OnePacket [h] [t] 1 (framed h t p ++ r) ∧ packetsOf [h] [t] 1 (framed h t p ++ r) = [framed h t p] ∧
      leftover [h] [t] 1 (framed h t p ++ r) = r := by
  have hfirst : firstPacket [h] [t] (framed h t p ++ r) = some (0, p.length + 1) := by
    rw [framed, List.append_assoc]
    exact firstPacket_bytes hp
  have hlen : (framed h t p).length = p.length + 1 + 1 := framed_length h t p
  have hdrop : (framed h t p ++ r).drop (p.length + 1 + 1) = r := List.drop_left' hlen
  refine ⟨fun x hx => ?_, ?_, ?_⟩
  · rw [hfirst] at hx
    cases hx
    exact ⟨rfl, by rw [hdrop]; exact firstPacket_bytes_none fun hm => hr (List.mem_of_mem_tail hm)⟩
  · rw [packetsOf_some hfirst]
    exact congrArg (fun x => [x]) (List.take_left' hlen)
  · rw [leftover, hfirst]
    exact hdrop

/-- Frames in chunks with at most one tail key each: every frame is handed out by the push that completes
it. -/
theorem framed_in_step {h t : UInt8} {c : Nat} (hne : h ≠ t) {cut : List (List UInt8)} {q : List UInt8}
    {ps : List (List UInt8)} (hp : ∀ p ∈ ps, t ∉ p) (hq : t ∉ q)
    (hcut : ∀ b ∈ cut, b ≠ [] ∧ b.count t ≤ 1) (hfit : ∀ p ∈ ps, ∀ b ∈ cut,
      p.length + 1 + b.length ≤ c) (heq : q ++ cut.flatten = (ps.map (framed h t)).flatten) :
    Paced [h] [t] 1 c q cut ∧ (handedOut [h] [t] 1 q cut).flatten = ps.map (framed h t) ∧
      (handedOut [h] [t] 1 q cut).map List.length = cut.map (List.count t) ∧
      remains [h] [t] 1 q cut = [] := by
  induction cut generalizing q ps with
  | nil =>
    rw [List.flatten_nil, List.append_nil] at heq
    cases ps with
    | nil => exact ⟨trivial, rfl, rfl, heq⟩
    | cons p ps => exact absurd (heq ▸ by simp [framed]) hq
  | cons b cut ih =>
    rw [List.flatten_cons, ← List.append_assoc] at heq
    obtain ⟨⟨hb0, hb1⟩, hcut'⟩ := List.forall_mem_cons.1 hcut
    have hroom : (q ++ b).length ≤ c := by
      cases ps with
      | nil =>
        rw [List.map_nil, List.flatten_nil, List.append_eq_nil_iff, List.append_eq_nil_iff] at heq
        exact absurd heq.1.2 hb0
      | cons p ps =>
        have hpend := framed_pending hq
          (heq.symm ▸ (List.append_assoc q b cut.flatten).symm : q ++ (b ++ cut.flatten) = _)
        have := hfit p (by simp) b (by simp)
        rw [List.length_append]
        omega
    have fits {ps' : List (List UInt8)} (hsub : ∀ p ∈ ps', p ∈ ps) :
      ∀ p ∈ ps', ∀ b ∈ cut, p.length + 1 + b.length ≤ c :=
      fun p hmem b hb => hfit p (hsub p hmem) b (List.mem_cons_of_mem _ hb)
    rcases framed_step hp hne hq hb1 heq with ⟨h0, hno⟩ | ⟨p, ps', r, rfl, h1, hqb, hr, hl⟩
    · obtain ⟨hone, hpacks, hleft⟩ := call_without_tail (h := h) hno
      obtain ⟨hin, hout, hlen, hkept⟩ := ih hp hno hcut' (fits fun _ => id) heq
      simp only [Paced, handedOut, remains, hleft, hpacks]
      exact ⟨⟨hb0, hroom, hone, hin⟩, hout, by rw [List.map_cons, List.map_cons, hlen, h0]; rfl, hkept⟩
    · obtain ⟨hone, hpacks, hleft⟩ := call_with_frame (h := h) (hp p (by simp)) hr
      rw [← hqb] at hone hpacks hleft
      obtain ⟨hin, hout, hlen, hkept⟩ :=
        ih (fun p hm => hp p (List.mem_cons_of_mem _ hm)) hr hcut' (fits fun _ => List.mem_cons_of_mem _) hl
      simp only [Paced, handedOut, remains, hleft, hpacks]
      refine ⟨⟨hb0, hroom, hone, hin⟩, ?_, by rw [List.map_cons, List.map_cons, hlen, h1]; rfl, hkept⟩
      rw [List.flatten_cons, hout, List.map_cons, List.singleton_append]

/-- A new unpacker with a head and a tail key of one byte. Frames whose payloads do not contain
the tail key, one behind the other and cut into chunks with at most one tail key each, are
decoded exactly, each by the push that completes it, however many they are and
however often they go round the ring; it only has to have room for a frame and a chunk. -/
theorem session_decodes (h t : UInt8) (hne : h ≠ t) (c : Nat) (hc : c ≤ maxSize) (ps cut : List (List UInt8))
    (hp : ∀ p ∈ ps, t ∉ p) (hcut : ∀ b ∈ cut, b ≠ [] ∧ b.count t ≤ 1)
    (hfit : ∀ p ∈ ps, ∀ b ∈ cut, p.length + 1 + b.length ≤ c)
    (heq : cut.flatten = (ps.map (framed h t)).flatten) :
    ∃ outs v, Trace Pushes (createBasic [h] [t] c hc) cut outs v ∧ outs.flatten = ps.map (framed h t) ∧
      outs.map List.length = cut.map (List.count t) ∧ v.content = [] := by
  obtain ⟨hin, hout, hlen, hkept⟩ := framed_in_step hne hp List.not_mem_nil hcut hfit heq
  by_cases h0 : 0 < c
  · have hb : (createBasic [h] [t] c hc).Bytes := ⟨.inr rfl, create_inv [h] [t] none none hc h0, rfl, rfl⟩
    have hcap : (createBasic [h] [t] c hc).capacity = c := RingBuffer.ofSize_capacity hc
    obtain ⟨v, ht, hv⟩ := hb.run cut (by rw [hcap]; exact hin)
    exact ⟨_, v, ht, hout, hlen, hv.trans hkept⟩
  · -- Without room there is no chunk.
    cases cut with
    | nil => exact ⟨[], _, .nil _, hout, hlen, rfl⟩
    | cons b cut =>
      obtain ⟨hb0, hroom, -⟩ := hin
      have := List.length_pos_iff.2 hb0
      rw [List.nil_append] at hroom
      omega

/-- The theorem for three frames in a ring of six bytes, each in two chunks. -/
theorem session_decodes_three :
    ∃ outs v, Trace Pushes (createBasic [1] [2] 6 (by decide)) [[1, 7], [2, 1], [8, 2], [1, 9, 2]] outs v ∧
    outs.flatten = [[1, 7, 2], [1, 8, 2], [1, 9, 2]] ∧ outs.map List.length = [0, 1, 1, 1] ∧ v.content = [] :=
  session_decodes 1 2 (by decide) 6 (by decide) [[7], [8], [9]] [[1, 7], [2, 1], [8, 2], [1, 9, 2]]
    (by decide)
    (by decide)
    (by decide) (by decide)

/-! ## A head key alone -/

/-- The beginning of a packet, or nothing yet. -/
def Pending (h : UInt8) (q : List UInt8) : Prop := q = [] ∨ ∃ p, q = h :: p ∧ h ∉ p

theorem Pending.count_le {h : UInt8} {q : List UInt8} (hq : Pending h q) : q.count h ≤ 1 := by
  rcases hq with rfl | ⟨p, rfl, hp⟩
  · exact Nat.zero_le 1
  · rw [List.count_cons_self, List.count_eq_zero.2 hp]

/-- A push leaves the packet open, or it brings the head of the next. -/
theorem head_step {h : UInt8} {q b later : List UInt8} {p : List UInt8} {ps : List (List UInt8)} (hp : h ∉ p)
    (hq : Pending h q)
    (hb : b ≠ []) (hone : b.count h ≤ 1) (heq : q ++ b ++ later = ((p :: ps).map (h :: ·)).flatten) :
    (∃ p', q ++ b = h :: p' ∧ h ∉ p') ∨
      ∃ r, q ++ b = h :: p ++ h :: r ∧ h ∉ r ∧ h :: r ++ later = (ps.map (h :: ·)).flatten := by
  rw [List.map_cons, List.flatten_cons] at heq
  have hqb : q ++ b ≠ [] := List.append_ne_nil_of_right_ne_nil _ hb
  rcases List.append_eq_append_iff.1 heq with ⟨as, hf, hl⟩ | ⟨r, hr, hl⟩
  · obtain ⟨x, p', hxp⟩ := List.exists_cons_of_ne_nil hqb
    rw [hxp, List.cons_append] at hf
    obtain ⟨rfl, hpp⟩ := List.cons.inj hf
    exact .inl ⟨p', hxp, fun hm => hp (hpp ▸ List.mem_append_left _ hm)⟩
  · cases r with
    | nil => exact .inl ⟨p, by rw [hr, List.append_nil], hp⟩
    | cons x r =>
      cases ps with
      | nil => cases hl
      | cons p' ps =>
        rw [List.map_cons, List.flatten_cons] at hl
        obtain ⟨rfl, -⟩ := List.cons.inj hl
        have hcount := congrArg (List.count h) hr
        rw [List.count_append, List.count_append, List.count_cons_self, List.count_cons_self] at hcount
        have := hq.count_le
        exact .inr ⟨r, hr, List.count_eq_zero.1 (by omega), hl.symm⟩

/-- What is pending is the beginning of the next packet. -/
theorem Pending.length_le {h : UInt8} {q later p : List UInt8} {ps : List (List UInt8)} (hq : Pending h q)
    (heq : q ++ later = ((p :: ps).map (h :: ·)).flatten) : q.length ≤ p.length + 1 := by
  rw [List.map_cons, List.flatten_cons] at heq
  rcases List.append_eq_append_iff.1 heq with ⟨as, hf, -⟩ | ⟨r, hr, hl⟩
  · have hlen := congrArg List.length hf
    rw [List.length_append, List.length_cons] at hlen
    omega
  · cases r with
    | nil => rw [hr, List.append_nil, List.length_cons]
    | cons x r =>
      cases ps with
      | nil => cases hl
      | cons p' ps =>
        rw [List.map_cons, List.flatten_cons] at hl
        obtain ⟨rfl, -⟩ := List.cons.inj hl
        have hcount := hq.count_le
        rw [hr, List.count_append, List.count_cons_self, List.count_cons_self] at hcount
        omega

/-- Packets in chunks with at most one head each: a packet is handed out by the push that brings the next
head. -/
theorem heads_in_step {h : UInt8} {c : Nat} {cut : List (List UInt8)} {q p : List UInt8}
    {ps : List (List UInt8)} (hp : ∀ x ∈ p :: ps, h ∉ x) (hq : Pending h q)
    (hcut : ∀ b ∈ cut, b ≠ [] ∧ b.count h ≤ 1)
    (hfit : ∀ x ∈ p :: ps, ∀ b ∈ cut, x.length + 1 + b.length ≤ c)
    (heq : q ++ cut.flatten = ((p :: ps).map (h :: ·)).flatten) :
    Paced [h] [h] 0 c q cut ∧
      (handedOut [h] [h] 0 q cut).flatten ++ [remains [h] [h] 0 q cut] = (p :: ps).map (h :: ·) := by
  induction cut generalizing q p ps with
  | nil =>
    rw [List.flatten_nil, List.append_nil, List.map_cons, List.flatten_cons] at heq
    rcases hq with rfl | ⟨p', rfl, hp'⟩
    · cases heq
    · obtain ⟨-, hpp⟩ := List.cons.inj heq
      cases ps with
      | nil => exact ⟨trivial, by rw [hpp.trans (List.append_nil p)]; rfl⟩
      | cons p₂ ps => exact absurd (hpp ▸ by simp) hp'
  | cons b cut ih =>
    rw [List.flatten_cons, ← List.append_assoc] at heq
    obtain ⟨⟨hb0, hb1⟩, hcut'⟩ := List.forall_mem_cons.1 hcut
    have hroom : (q ++ b).length ≤ c := by
      have hlen :=
        hq.length_le (heq.symm ▸ (List.append_assoc q b cut.flatten).symm : q ++ (b ++ cut.flatten) = _)
      have := hfit p (by simp) b (by simp)
      rw [List.length_append]
      omega
    rcases head_step (hp p (by simp)) hq hb0 hb1 heq with ⟨p', hqb, hp'⟩ | ⟨r, hqb, hr, hl⟩
    · have hnone : firstPacket [h] [h] (q ++ b) = none := firstPacket_bytes_none (by rw [hqb]; exact hp')
      have hleft : leftover [h] [h] 0 (q ++ b) = q ++ b := by rw [leftover, hnone]
      have hone : OnePacket [h] [h] 0 (q ++ b) := fun p hp => by rw [hnone] at hp; cases hp
      obtain ⟨hin, hout⟩ :=
        ih hp (.inr ⟨p', hqb, hp'⟩) hcut' (fun x hm b hb => hfit x hm b (List.mem_cons_of_mem _ hb)) heq
      simp only [Paced, handedOut, remains, hleft, packetsOf_none hnone]
      exact ⟨⟨hb0, hroom, hone, hin⟩, hout⟩
    · have hfirst : firstPacket [h] [h] (q ++ b) = some (0, p.length + 1) := by
        rw [hqb]
        exact firstPacket_bytes (hp p (by simp))
      have hdrop : (q ++ b).drop (p.length + 1) = h :: r := by rw [hqb]; exact List.drop_left' rfl
      have hleft : leftover [h] [h] 0 (q ++ b) = h :: r := by
        rw [leftover, hfirst]
        exact hdrop
      have htake : packetsOf [h] [h] 0 (q ++ b) = [h :: p] := by
        rw [packetsOf_some hfirst, hqb]
        exact congrArg (fun x => [x]) (List.take_left' rfl)
      have hone : OnePacket [h] [h] 0 (q ++ b) := by
        intro x hx
        rw [hfirst] at hx
        cases hx
        refine ⟨rfl, ?_⟩
        show firstPacket [h] [h] ((q ++ b).drop (p.length + 1)) = none
        rw [hdrop]
        exact firstPacket_bytes_none hr
      cases ps with
      | nil => cases hl
      | cons p₂ ps =>
        obtain ⟨hin, hout⟩ := ih (fun x hm => hp x (List.mem_cons_of_mem _ hm)) (.inr ⟨r, rfl, hr⟩) hcut'
          (fun x hm b hb => hfit x (List.mem_cons_of_mem _ hm) b (List.mem_cons_of_mem _ hb)) hl
        simp only [Paced, handedOut, remains, hleft, htake]
        refine ⟨⟨hb0, hroom, hone, hin⟩, ?_⟩
        rw [List.flatten_cons, List.singleton_append, List.cons_append, hout]
        rfl

end

/-- A new unpacker with a head key of one byte and no tail key. Packets that begin with it and do
not contain it again, cut into chunks with at most one head each, are all handed out
exactly but the last, which stays in the ring until another head comes. -/
theorem head_session_decodes (h : UInt8) (c : Nat) (hc : c ≤ maxSize) (p : List UInt8)
    (ps cut : List (List UInt8)) (hp : ∀ x ∈ p :: ps, h ∉ x)
    (hcut : ∀ b ∈ cut, b ≠ [] ∧ b.count h ≤ 1)
    (hfit : ∀ x ∈ p :: ps, ∀ b ∈ cut, x.length + 1 + b.length ≤ c)
    (heq : cut.flatten = ((p :: ps).map (h :: ·)).flatten) :
    ∃ outs v, Trace Pushes (createBasic [h] [] c hc) cut outs v ∧
      outs.flatten ++ [v.content] = (p :: ps).map (h :: ·) := by
  obtain ⟨hin, hout⟩ := heads_in_step hp (.inl rfl) hcut hfit heq
  have h0 : 0 < c := by
    cases cut with
    | nil => cases heq
    | cons b cut =>
      have := hfit p (by simp) b (by simp)
      omega
  have hb : (createBasic [h] [] c hc).Bytes := ⟨.inl rfl, create_inv [h] [] none none hc h0, rfl, rfl⟩
  have hcap : (createBasic [h] [] c hc).capacity = c := RingBuffer.ofSize_capacity hc
  obtain ⟨v, ht, hv⟩ := hb.run cut (by rw [hcap]; exact hin)
  exact ⟨_, v, ht, by rw [hv]; exact hout⟩

/-- The theorem for three packets in a ring of five bytes. -/
theorem head_session_decodes_three :
    ∃ outs v, Trace Pushes (createBasic [1] [] 5 (by decide)) [[1, 7], [8, 1], [9, 1], [6]] outs v ∧
    outs.flatten ++ [v.content] = [[1, 7, 8], [1, 9], [1, 6]] :=
  head_session_decodes 1 5 (by decide) [7, 8] [[9], [6]] [[1, 7], [8, 1], [9, 1], [6]] (by decide) (by decide)
    (by decide) (by decide)

end NebulaToolkit.UnPacker
