import NebulaToolkit.Completeness
/-!
# Bytes in front of the first head

The modes without callbacks drop bytes by committing the size of a packet and
in no other way. Bytes that hold no head key stay where they are, call after
call, until a frame arrives or the ring refuses what comes (`junk_is_kept`).
-/

namespace NebulaToolkit.UnPacker

open Lib

variable {u v : UnPacker}

/-- The bytes `xs` hold no head key, and where they are stored a search from the front
starts in a part as long as the key, or is refused. -/
structure Junk (u : UnPacker) (xs : List UInt8) : Prop where
  noHead : ∀ i, ¬ OccursAt u.headKey xs i
  planned : xs.length < u.headKey.length ∨ u.readIndex + u.headKey.length ≤ u.capacity

/-- What a ring of `c` bytes that holds `xs` has kept after the writes of `cut`. -/
def kept (c : Nat) : List UInt8 → List (List UInt8) → List UInt8
  | xs, [] => xs
  | xs, bs :: cut => if xs.length + bs.length ≤ c then kept c (xs ++ bs) cut else kept c xs cut

/-- A frame is written behind the stored bytes: it fits, no head begins before it, its
end key ends it, and the searches for its two keys are not misled. -/
structure FrameBehind (u : UnPacker) (bs : List UInt8) (e : Nat) : Prop where
  fits : u.length + bs.length ≤ u.capacity
  packet : firstPacket u.headKey u.endKey (u.content ++ bs) = some (u.length, e)
  ends : e + u.endKey.length = u.length + bs.length
  head : (u.writeRing bs).SearchOk u.headKey 0
  endKey : (u.writeRing bs).SearchOk u.endKey (u.length + u.headKey.length)

theorem kept_grows (c : Nat) (xs : List UInt8) (cut : List (List UInt8)) : xs <+: kept c xs cut := by
  induction cut generalizing xs with
  | nil => exact List.prefix_rfl
  | cons bs cut ih =>
    rw [kept]
    split
    · exact (List.prefix_append xs bs).trans (ih _)
    · exact ih xs

theorem Junk.front {xs ys : List UInt8} (h : u.Junk ys) (hp : xs <+: ys) : u.Junk xs := by
  obtain ⟨zs, rfl⟩ := hp
  obtain ⟨hno, hplan⟩ := h
  rw [List.length_append] at hplan
  exact ⟨fun i ho => hno i (ho.append zs), hplan.imp_left fun h => by omega⟩

/-- A write that fits is appended and moves no read index; one that does not is refused. -/
theorem writeRing_cases (hi : u.Inv) (bs : List UInt8) :
    (u.length + bs.length ≤ u.capacity → (u.writeRing bs).content = u.content ++ bs) ∧
      (¬ u.length + bs.length ≤ u.capacity → u.writeRing bs = u) ∧
      (u.writeRing bs).readIndex = u.readIndex := by
  have hw := RingBuffer.write_eq hi bs
  by_cases h0 : bs.length = 0
  · rw [if_pos h0] at hw
    have hsame : u.writeRing bs = u := by
      show ({ u with toRingBuffer := (u.write bs).2 } : UnPacker) = u
      rw [hw]
    rw [hsame, List.eq_nil_of_length_eq_zero h0, List.append_nil]
    exact ⟨fun _ => rfl, fun _ => rfl, rfl⟩
  rw [if_neg h0] at hw
  by_cases hfit : u.length + bs.length ≤ u.capacity
  · have hne : bs ≠ [] := fun h => h0 (by rw [h]; rfl)
    refine ⟨fun _ => writeRing_content hi hfit hne, fun h => absurd hfit h, ?_⟩
    rw [writeRing_ring hi hfit hne]
    rfl
  · rw [if_neg hfit] at hw
    have hsame : u.writeRing bs = u := by
      show ({ u with toRingBuffer := (u.write bs).2 } : UnPacker) = u
      rw [hw]
    exact ⟨fun h => absurd h hfit, fun _ => hsame, by rw [hsame]⟩

/-! ## Calls on junk -/

/-- A call on junk hands out nothing and changes nothing. -/
theorem Junk.packs (hk : u.Keyed) (hi : u.Inv) (hj : u.Junk u.content) : u.Packs ([], u) := by
  have hh := headKey_ne hk.model_ne
  have hplan := hj.planned
  rw [RingBuffer.content_length] at hplan
  have hfind : u.findKey u.headKey 0 = .ok u.capacity := by
    rw [findKey_eq hi hh (fun h0 hkl => ?_) fun o _ ho => absurd ho (hj.noHead o),
      (first_eq_none hh).2 fun i _ => hj.noHead i]
    · rfl
    · have hr := hi.read_lt
      rw [part1, Nat.add_zero, Nat.mod_eq_of_lt hr]
      omega
  rw [hk.packs_iff]
  exact KeysRun.noHead hfind

/-- Junk pushed on junk. -/
theorem Junk.pushes (hk : u.Keyed) (hi : u.Inv) {bs : List UInt8}
    (hj : (u.writeRing bs).Junk (u.writeRing bs).content) :
    u.Pushes bs [] (u.writeRing bs) := pushes_iff.2 (hj.packs (hk.writeRing bs) (writeRing_inv hi bs))

/-- A stream of junk is kept chunk by chunk, as long as the chunks fit. -/
theorem junk_stream (cut : List (List UInt8)) (hk : u.Keyed) (hi : u.Inv)
    (hj : u.Junk (kept u.capacity u.content cut)) :
    ∃ v, Trace Pushes u cut (cut.map fun _ => []) v ∧ v.content = kept u.capacity u.content cut := by
  induction cut generalizing u with
  | nil => exact ⟨u, .nil u, rfl⟩
  | cons bs cut ih =>
    obtain ⟨hfits, hrefused, hread⟩ := writeRing_cases hi bs
    have hstep : kept u.capacity u.content (bs :: cut) =
        kept (u.writeRing bs).capacity (u.writeRing bs).content cut := by
      rw [kept, RingBuffer.content_length, writeRing_capacity hi]
      split
      · rw [hfits ‹_›]
      · rw [hrefused ‹_›]
    have hj' : (u.writeRing bs).Junk (kept (u.writeRing bs).capacity (u.writeRing bs).content cut) := by
      rw [← hstep]
      exact ⟨hj.noHead, by rw [hread, writeRing_capacity hi]; exact hj.planned⟩
    obtain ⟨v, ht, hv⟩ := ih (hk.writeRing bs) (writeRing_inv hi bs) hj'
    rw [hstep]
    exact ⟨v, .cons (Junk.pushes hk hi (hj'.front (kept_grows _ _ _))) ht, hv⟩

/-- A full ring of junk refuses every chunk for good. -/
theorem junk_full (cut : List (List UInt8)) (hne : ∀ bs ∈ cut, bs ≠ []) (hk : u.Keyed) (hi : u.Inv)
    (hj : u.Junk u.content) (hfull : u.length = u.capacity) : Trace Pushes u cut (cut.map fun _ => []) u := by
  induction cut with
  | nil => exact .nil u
  | cons bs cut ih =>
    have hpos := List.length_pos_iff.2 (hne bs List.mem_cons_self)
    have hsame : u.writeRing bs = u := (writeRing_cases hi bs).2.1 (by omega)
    have hpush : u.Pushes bs [] (u.writeRing bs) := Junk.pushes hk hi (by rw [hsame]; exact hj)
    rw [hsame] at hpush
    exact .cons hpush (ih fun cs hcs => hne cs (List.mem_cons_of_mem _ hcs))

/-- A frame behind the stored bytes is handed out. -/
theorem FrameBehind.pushes (hk : u.Keyed) (hi : u.Inv) {bs : List UInt8} {e : Nat} (hf : u.FrameBehind bs e) :
    ∃ v, u.Pushes bs [bs.take (e + u.extra - u.length)] v := by
  have hh := headKey_ne hk.model_ne
  have hx := hk.extra_le
  have hends := hf.ends
  have hi' := writeRing_inv hi bs
  have hcont := (writeRing_cases hi bs).1 hf.fits
  have hlen : (u.writeRing bs).length = u.length + bs.length := by
    rw [← RingBuffer.content_length, hcont, List.length_append, RingBuffer.content_length]
  obtain ⟨hhead, hend⟩ := firstPacket_eq_some.1 hf.packet
  have hse : u.length + u.headKey.length ≤ e := ((first_eq_some hk.endKey_ne).1 hend).1
  have hep := List.length_pos_iff.2 hk.endKey_ne
  have hrest : u.endKey.length ≤ u.extra + u.headKey.length := by
    rcases hk with hm | hm
    · rw [endKey_head hm, extra_head hm]
      omega
    · rw [endKey_tail hm, extra_tail hm]
      omega
  have hfirst : (u.writeRing bs).findKey u.headKey 0 = .ok u.length := by
    rw [findKey_ok hi' hh hf.head, hcont, hhead]
    rfl
  have hsecond : (u.writeRing bs).findKey u.endKey (u.length + u.headKey.length) = .ok e := by
    rw [findKey_ok hi' hk.endKey_ne hf.endKey, hcont, hend]
    rfl
  refine ⟨(u.writeRing bs).commit (e + u.extra - u.length), pushes_iff.2 ((hk.writeRing bs).packs_iff.2 ?_)⟩
  refine KeysRun.take hi' (by omega) hfirst hsecond hse (by omega) (show e + u.extra ≤ _ by omega) ?_
  show KeysRun _ _ ((u.writeRing bs).commit (e + u.extra - u.length)) (e + u.extra) _
    ([] ++ [((u.writeRing bs).content.drop u.length).take (e + u.extra - u.length)]) _
  rw [hcont, ← RingBuffer.content_length, List.drop_left, RingBuffer.content_length, List.nil_append]
  -- What is left is too short for another search.
  refine KeysRun.noHead (findKey_refused (.inr (.inr ?_)))
  rw [commit_length hi' (by omega), hlen]
  omega

/-- Junk is handed out neither nor dropped: a call leaves it, a stream of it is kept as
far as it fits, and a ring full of it refuses every write for good. A frame
behind it that still fits is handed out. -/
theorem junk_is_kept (hk : u.Keyed) (hi : u.Inv) (hj : u.Junk u.content) : u.Gets [] u ∧
    (∀ cut, u.Junk (kept u.capacity u.content cut) →
      ∃ v, Trace Pushes u cut (cut.map fun _ => []) v ∧ v.content = kept u.capacity u.content cut) ∧
    (u.length = u.capacity → ∀ cut, (∀ bs ∈ cut, bs ≠ []) →
      Trace Pushes u cut (cut.map fun _ => []) u) ∧ ∀ bs e, u.FrameBehind bs e →
    ∃ v, u.Pushes bs [bs.take (e + u.extra - u.length)] v :=
  ⟨gets_iff.2 (hj.packs hk hi), fun cut h => junk_stream cut hk hi h,
    fun hfull cut hne => junk_full cut hne hk hi hj hfull, fun _ _ h => h.pushes hk hi⟩

/-- The theorem at two bytes of junk, and a frame behind them. -/
theorem junk_is_kept_nines :
    let u := (createBasic [1] [2] 8 (by decide)).writeRing [9, 9]
    u.Inv ∧ u.Junk u.content ∧ u.Gets [] u ∧ ∃ v, u.Pushes [1, 7, 2] [[1, 7, 2]] v := by
  intro u
  obtain ⟨hi, hlin⟩ := first_write [1] [2] 8 (by decide) [9, 9] (by decide) (by decide)
  have hj : u.Junk u.content :=
    ⟨fun i => (first_eq_none (by decide)).1 (by decide) i (Nat.zero_le i), .inr (by decide)⟩
  obtain ⟨hget, -, -, hframe⟩ := junk_is_kept (u := u) (.inr rfl) hi hj
  have hlin' : (u.writeRing [1, 7, 2]).Linear 0 := Linear.writeRing hi (by decide) (by unfold Linear; decide)
  refine ⟨hi, hj, hget,
    hframe [1, 7, 2] 4 ⟨by decide, by decide, by decide, hlin'.searchOk (by decide) fun _ _ => by decide,
    hlin'.searchOk (by decide) fun _ _ => by decide⟩⟩

/-- What a call on junk would leave if it dropped it: bytes off the end that begin a head key. -/
def OnlyPartialHead (u v : UnPacker) : Prop :=
  v.content <:+ u.content ∧ v.content <+: u.headKey ∧ v.content ≠ u.headKey

/-- Eight bytes without a head in a ring of eight: none is dropped, and a frame is refused. -/
theorem junk_wedges :
    let u := (createBasic [1] [2] 8 (by decide)).writeRing (List.replicate 8 9)
    u.Inv ∧ (∀ i, ¬ OccursAt u.headKey u.content i) ∧ u.Gets [] u ∧ ¬ OnlyPartialHead u u ∧
      u.Pushes [1, 2] [] u := by
  intro u
  have hi : u.Inv := (first_write [1] [2] 8 (by decide) (List.replicate 8 9) (by decide) (by decide)).1
  have hj : u.Junk u.content :=
    ⟨fun i => (first_eq_none (by decide)).1 (by decide) i (Nat.zero_le i), .inr (by decide)⟩
  have hsame : u.writeRing [1, 2] = u := (writeRing_cases hi [1, 2]).2.1 (by decide)
  have hpush : u.Pushes [1, 2] [] (u.writeRing [1, 2]) := Junk.pushes (.inr rfl) hi (by rw [hsame]; exact hj)
  rw [hsame] at hpush
  refine ⟨hi, hj.noHead, gets_iff.2 (hj.packs (.inr rfl) hi), fun h => absurd h.2.1 (by decide), hpush⟩

end NebulaToolkit.UnPacker
