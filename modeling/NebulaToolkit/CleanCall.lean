import NebulaToolkit.Framing
/-!
# Calls that take at most one packet, off the front

In the two modes without callbacks a packet goes from a head key to the next
end key. A call is `Clean` when its searches are not misled by the layout of
the ring, the packet it finds starts with the first stored byte, and nothing
more is found behind it at the offset the loop goes on from. A clean call
hands out that packet and drops it (`clean_call`).
-/

namespace NebulaToolkit.UnPacker

open Lib

variable {u : UnPacker}

/-- The key that ends a packet. -/
def endKey (u : UnPacker) : List UInt8 := if u.unpackerModel = .kHead then u.headKey else u.tailKey

/-- How many bytes of the end key belong to the packet. -/
def extra (u : UnPacker) : Nat := if u.unpackerModel = .kHead then 0 else u.tailKey.length

/-- One of the two modes without callbacks. -/
def Keyed (u : UnPacker) : Prop := u.unpackerModel = .kHead ∨ u.unpackerModel = .kHeadTail

theorem endKey_head (hm : u.unpackerModel = .kHead) : u.endKey = u.headKey := if_pos hm

theorem endKey_tail (hm : u.unpackerModel = .kHeadTail) : u.endKey = u.tailKey := if_neg (by rw [hm]; decide)

theorem extra_head (hm : u.unpackerModel = .kHead) : u.extra = 0 := if_pos hm

theorem extra_tail (hm : u.unpackerModel = .kHeadTail) : u.extra = u.tailKey.length :=
  if_neg (by rw [hm]; decide)

@[simp] theorem commit_endKey (n : Nat) : (u.commit n).endKey = u.endKey := rfl
@[simp] theorem writeRing_endKey (bs : List UInt8) : (u.writeRing bs).endKey = u.endKey := rfl
@[simp] theorem writeRing_extra (bs : List UInt8) : (u.writeRing bs).extra = u.extra := rfl

theorem Keyed.commit (h : u.Keyed) (n : Nat) : (u.commit n).Keyed := h
theorem Keyed.writeRing (h : u.Keyed) (bs : List UInt8) : (u.writeRing bs).Keyed := h

theorem headKey_ne (h : u.unpackerModel ≠ .kNone) : u.headKey ≠ [] := by
  intro h0
  rw [u.model_eq] at h
  simp [checkModel, h0] at h

theorem model_of_no_tail (h0 : u.tailKey = []) : u.unpackerModel = .kHead ∨ u.unpackerModel = .kNone := by
  rw [u.model_eq, checkModel, if_neg (by simp [h0])]
  split
  · exact .inl rfl
  · rw [if_neg (by simp [h0])]
    exact .inr rfl

theorem tailKey_ne (h : u.unpackerModel = .kHeadTailCb) : u.tailKey ≠ [] := by
  intro h0
  rcases model_of_no_tail h0 with h' | h' <;> rw [h] at h' <;> cases h'

theorem Keyed.model_ne (h : u.Keyed) : u.unpackerModel ≠ .kNone := by
  rcases h with h | h <;> rw [h] <;> decide

theorem Keyed.endKey_ne (h : u.Keyed) : u.endKey ≠ [] := by
  rcases h with h | h
  · rw [endKey_head h]
    exact headKey_ne (by rw [h]; decide)
  · rw [endKey_tail h]
    intro h0
    rcases model_of_no_tail h0 with h' | h' <;> rw [h] at h' <;> cases h'

theorem Keyed.extra_le (_ : u.Keyed) : u.extra ≤ u.endKey.length := by
  unfold extra endKey
  split <;> omega

theorem Keyed.packs_iff (h : u.Keyed) {r : List (List UInt8) × UnPacker} :
    u.Packs r ↔ KeysRun u.endKey u.extra u 0 u.length [] r := by
  unfold Packs endKey extra
  rcases h with h | h <;> rw [h] <;> rfl

/-! ## Searches the layout does not mislead -/

/-- No stored occurrence of `key` from `start` on goes round the array's end. -/
def Unbroken (u : UnPacker) (key : List UInt8) (start : Nat) : Prop :=
  ∀ o, start ≤ o → OccursAt key u.content o → (u.readIndex + o) % u.capacity + key.length ≤ u.capacity

/-- The search is refused, or goes the planned way over unbroken occurrences, or
starts in a short part and there is something to find. -/
def SearchOk (u : UnPacker) (key : List UInt8) (start : Nat) : Prop :=
  u.length ≤ start ∨ u.length < key.length ∨
    if key.length ≤ u.part1 start then u.Unbroken key start else ∃ o, start ≤ o ∧ OccursAt key u.content o

section
variable {key : List UInt8} {start : Nat} (hi : u.Inv)
include hi

/-- From a short part the search finds the first stored occurrence too, if there is one. -/
theorem findKey_short_first (h0 : key ≠ []) (hst : start < u.length) (hp : u.part1 start < key.length)
    {o : Nat} (ho : first key u.content start = some o) : u.findKey key start = .ok o := by
  obtain ⟨hs, hocc, hmin⟩ := (first_eq_some h0).1 ho
  have hb := hocc.bound h0
  rw [RingBuffer.content_length] at hb
  have hl := hi.length_le
  have hC := u.capacity_lt
  have hm := absStart_lt hi start
  have h := findKey_short_hit hi hst (by omega) hp (i := o - start) (by omega) (by omega)
    (by rw [Nat.add_sub_cancel' hs, readsAt_iff hb]; exact hocc)
    (fun j hj => by rw [readsAt_iff (by omega)]; exact hmin _ (by omega) (by omega))
  rwa [Nat.add_sub_cancel' hs] at h

theorem findKey_ok (h0 : key ≠ []) (h : u.SearchOk key start) :
    u.findKey key start = .ok ((first key u.content start).getD u.capacity) := by
  by_cases hp : key.length ≤ u.part1 start
  · refine findKey_eq hi h0 (fun _ _ => hp) fun o hs ho => ?_
    have hb := ho.bound h0
    rw [RingBuffer.content_length] at hb
    rcases h with h | h | h
    · have := List.length_pos_iff.2 h0; omega
    · omega
    · rw [if_pos hp] at h; exact h o hs ho
  · by_cases hg : u.length ≤ start ∨ u.length < key.length
    · exact findKey_eq hi h0 (by omega) fun o hs ho => by
        have hb := ho.bound h0
        rw [RingBuffer.content_length] at hb; omega
    rcases h with h | h | h
    · exact absurd (.inl h) hg
    · exact absurd (.inr h) hg
    · rw [if_neg hp] at h
      obtain ⟨o, hs, ho⟩ := h
      cases hf : first key u.content start with
      | none => exact absurd ho ((first_eq_none h0).1 hf o hs)
      | some o => exact findKey_short_first hi h0 (by omega) (by omega) hf

/-- With the key to be read somewhere in the array, the search comes back. What it
finds can be read there, and is the first stored occurrence or reaches beyond
the stored bytes. -/
theorem findKey_after (h0 : key ≠ []) (hu : key.length ≤ u.part1 start → u.Unbroken key start) {i : Nat}
    (hik : (u.readIndex + start) % u.capacity + i + key.length ≤ 2 ^ 64) (hsi : start + i < 2 ^ 64)
    (hr : start < u.length → u.ReadsAt key (start + i)) :
    ∃ o, u.findKey key start = .ok o ∧ o ≤ max u.capacity (start + i) ∧
      (o = u.capacity ∨ start ≤ o ∧ u.ReadsAt key o ∧
        (o + key.length ≤ u.length ∨ u.part1 start < key.length)) ∧ (first key u.content start = some o ∨
        first key u.content start = none ∧ (o = u.capacity ∨ u.length < o + key.length)) := by
  have hl := hi.length_le
  by_cases hok : u.SearchOk key start
  · refine ⟨_, findKey_ok hi h0 hok, ?_⟩
    cases hf : first key u.content start with
    | none => exact ⟨Nat.le_max_left _ _, .inl rfl, .inr ⟨rfl, .inl rfl⟩⟩
    | some o =>
      obtain ⟨hs, hocc, -⟩ := (first_eq_some h0).1 hf
      have hb := hocc.bound h0
      rw [RingBuffer.content_length] at hb
      exact ⟨show o ≤ _ by omega, .inr ⟨hs, (readsAt_iff hb).2 hocc, .inl hb⟩, .inl rfl⟩
  · simp only [SearchOk, not_or] at hok
    obtain ⟨h1, h2, h3⟩ := hok
    have hp : u.part1 start < key.length := by
      by_contra hp
      rw [if_pos (by omega)] at h3
      exact h3 (hu (by omega))
    rw [if_neg (by omega)] at h3
    obtain ⟨o, ho, hs, hle, hro⟩ := findKey_short hi (by omega) (by omega) hp hik hsi (hr (by omega))
    refine ⟨o, ho, by omega, .inr ⟨hs, hro, .inr hp⟩,
      .inr ⟨(first_eq_none h0).2 fun j hj hocc => h3 ⟨j, hj, hocc⟩, ?_⟩⟩
    by_contra hlt
    exact h3 ⟨o, hs, (readsAt_iff (by omega)).1 hro⟩

end

/-! ## A ring that has not gone round yet -/

/-- The stored bytes lie in one piece, with `room` more cells behind them. -/
def Linear (u : UnPacker) (room : Nat) : Prop := u.readIndex + u.length + room ≤ u.capacity

section
variable {key : List UInt8} {start room : Nat} (hlin : u.Linear room)
include hlin

theorem Linear.start_eq (hst : start < u.length) :
    (u.readIndex + start) % u.capacity = u.readIndex + start := by
  unfold Linear at hlin
  exact Nat.mod_eq_of_lt (by omega)

theorem Linear.part1 (hst : start < u.length) : u.part1 start = u.length - start := by
  have hm := hlin.start_eq hst
  unfold Linear at hlin
  unfold UnPacker.part1
  omega

theorem Linear.unbroken (h0 : key ≠ []) : u.Unbroken key start := by
  intro o _ ho
  unfold Linear at hlin
  have hb := ho.bound h0
  have := List.length_pos_iff.2 h0
  rw [RingBuffer.content_length] at hb
  rw [Nat.mod_eq_of_lt (by omega)]
  omega

/-- Then only a search in fewer bytes than the key has can go wrong. -/
theorem Linear.searchOk (h0 : key ≠ [])
    (hs : start < u.length → key.length ≤ u.length → start + key.length ≤ u.length) :
    u.SearchOk key start := by
  by_cases hg : u.length ≤ start ∨ u.length < key.length
  · rcases hg with h | h
    exacts [.inl h, .inr (.inl h)]
  · refine .inr (.inr ?_)
    rw [if_pos (by rw [hlin.part1 (by omega)]; omega)]
    exact hlin.unbroken h0

theorem Linear.commit (hi : u.Inv) {n : Nat} (hn : n ≤ u.length) : (u.commit n).Linear room := by
  unfold Linear at *
  rw [commit_length hi hn, commit_capacity, commit_ring hi hn]
  show (u.readIndex + n) % u.capacity + (u.length - n) + room ≤ u.capacity
  have hr := hi.read_lt
  rw [mod_round hr (by omega)]
  split <;> omega

theorem Linear.of_le {room' : Nat} (h : room' ≤ room) : u.Linear room' := by
  unfold Linear at *; omega

omit hlin in
theorem Linear.writeRing (hi : u.Inv) {bs : List UInt8} (h0 : bs ≠ []) (hlin : u.Linear (bs.length + room)) :
    (u.writeRing bs).Linear room := by
  unfold Linear at *
  have hlen := congrArg List.length (writeRing_content hi (by omega) h0)
  rw [List.length_append, RingBuffer.content_length, RingBuffer.content_length] at hlen
  rw [writeRing_capacity hi, hlen, writeRing_ring hi (by omega) h0]
  show u.readIndex + _ + room ≤ _
  omega

end

/-! ## Clean calls -/

/-- From `cur` on nothing more is found, once a packet was dropped. -/
def QuietFrom (u : UnPacker) (cur : Nat) : Prop :=
  (u.headKey.length ≤ u.part1 cur → u.Unbroken u.headKey cur) ∧
    ∀ o, first u.headKey u.content cur = some o →
      u.SearchOk u.endKey (o + u.headKey.length) ∧ first u.endKey u.content (o + u.headKey.length) = none

/-- The packet found, if any, is at the front, and it is the only one. -/
def Clean (u : UnPacker) : Prop :=
  u.SearchOk u.headKey 0 ∧ ∀ o, first u.headKey u.content 0 = some o →
    u.SearchOk u.endKey (o + u.headKey.length) ∧
      ∀ e, first u.endKey u.content (o + u.headKey.length) = some e →
        o = 0 ∧ (u.commit (e + u.extra)).QuietFrom (e + u.extra)

/-- The first packet of a byte string: where it starts and where its end key stands. -/
def firstPacket (headKey endKey xs : List UInt8) : Option (Nat × Nat) :=
  (first headKey xs 0).bind fun o => (first endKey xs (o + headKey.length)).map fun e => (o, e)

section
variable (hk : u.Keyed) (hi : u.Inv)
include hk hi

/-- The pass over what is behind a packet that was just dropped. -/
theorem quiet_pass {n total : Nat} (hn : n ≤ u.length) (h0 : OccursAt u.headKey u.content 0)
    (hkn : u.headKey.length ≤ n) (hq : (u.commit n).QuietFrom n) (rd : List (List UInt8)) :
    KeysRun u.endKey u.extra (u.commit n) n total rd (rd, u.commit n) := by
  have hl := hi.length_le
  have hh := headKey_ne hk.model_ne
  have hi' := commit_inv hi n
  have hb := h0.bound hh
  rw [RingBuffer.content_length] at hb
  by_cases hlt : n < (u.commit n).length
  swap
  · exact KeysRun.noHead (findKey_refused (.inr (.inr (by omega))))
  have hC := u.capacity_lt
  have hm := absStart_lt hi' n
  rw [commit_capacity] at hm
  obtain ⟨o, ho, hle, -, hc⟩ := findKey_after hi' hh hq.1 (i := u.capacity - n - n)
    (by rw [commit_capacity]; omega) (by omega) (readsAt_dropped hi hh h0 hn)
  rw [commit_capacity, Nat.max_eq_left (by omega)] at hle
  have hadd : addSz o (u.commit n).headKey.length = o + u.headKey.length :=
    wadd_of_lt (by rw [commit_headKey]; omega)
  rcases hc with hf | ⟨-, rfl | hb'⟩
  · obtain ⟨hse, hne⟩ := hq.2 o hf
    refine KeysRun.noEnd ho ?_
    rw [hadd]
    have hend := findKey_ok hi' hk.endKey_ne hse
    simp only [commit_endKey, commit_headKey] at hne hend
    rwa [hne] at hend
  · exact KeysRun.noHead ho
  · -- What was read there reaches into the dead cells, so the end key is not searched for.
    refine KeysRun.noEnd ho ?_
    rw [hadd]
    exact findKey_refused (.inr (.inr (Nat.le_of_lt hb')))

/-- What a clean call hands out, and the unpacker after it. -/
theorem clean_call (hc : u.Clean) : u.Packs (match firstPacket u.headKey u.endKey u.content with
    | none => ([], u)
    | some (_, e) => ([u.content.take (e + u.extra)], u.commit (e + u.extra))) := by
  have hl := hi.length_le
  have hC := u.capacity_lt
  have hh := headKey_ne hk.model_ne
  rw [hk.packs_iff]
  have hs := findKey_ok hi hh hc.1
  unfold firstPacket
  cases hf : first u.headKey u.content 0 with
  | none => rw [hf] at hs; exact KeysRun.noHead hs
  | some o =>
    rw [hf] at hs
    obtain ⟨hse, hp⟩ := hc.2 o hf
    have hocc := ((first_eq_some hh).1 hf).2.1
    have hbo := hocc.bound hh
    rw [RingBuffer.content_length] at hbo
    have hse := findKey_ok hi hk.endKey_ne hse
    simp only [Option.bind_some]
    cases he : first u.endKey u.content (o + u.headKey.length) with
    | none =>
      rw [he] at hse
      exact KeysRun.stop hs (show o + _ < _ by omega) hse
    | some e =>
      rw [he] at hse
      obtain ⟨rfl, hq⟩ := hp e he
      obtain ⟨hke, heocc, -⟩ := (first_eq_some hk.endKey_ne).1 he
      have hbe := heocc.bound hk.endKey_ne
      rw [RingBuffer.content_length] at hbe
      have hx := hk.extra_le
      have hep := List.length_pos_iff.2 hk.endKey_ne
      exact KeysRun.take hi (by omega) hs hse hke (show e < _ by omega) (show e + _ ≤ _ by omega)
        (quiet_pass hk hi (n := e + u.extra) (by omega) hocc (by omega) hq [u.content.take (e + u.extra)])

end

end NebulaToolkit.UnPacker
