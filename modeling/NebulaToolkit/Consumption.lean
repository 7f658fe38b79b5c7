import NebulaToolkit.Passes
/-!
# What a call takes off the ring

A call of `Get` only reads the array, and moves the read index by commits that
the ring may refuse. So whatever its searches find and its callbacks report, it
drops stored bytes off the front, as many as the packets whose commits
were not refused have (`get_takes_packets`).
-/

namespace NebulaToolkit.UnPacker

variable {u v : UnPacker}

/-- Where a call on `u` has come to, with a list of its commits: the unpacker that
`CommitReadSize` met, and the packet it was called for. -/
inductive Committed (u : UnPacker) : List (UnPacker × List UInt8) → Loop → Prop
  | start : Committed u [] (Loop.start u)
  | skip {cs : List (UnPacker × List UInt8)} {s s' : Loop} : Committed u cs s →
      pass s = .ok (.next none s') → Committed u cs s'
  | packet {cs : List (UnPacker × List UInt8)} {s s' : Loop} {p : List UInt8} : Committed u cs s →
      pass s = .ok (.next (some p) s') → Committed u (cs ++ [(s.unpacker, p)]) s'

/-- What the commits that were not refused have dropped. -/
def taken (cs : List (UnPacker × List UInt8)) : Nat :=
  ((cs.filter fun c => c.2.length ≤ c.1.length).map fun c => c.2.length).sum

/-- `v` is `u` without some bytes of its front. -/
structure Consumed (u v : UnPacker) : Prop where
  buffer : v.buffer = u.buffer
  writeIndex : v.writeIndex = u.writeIndex
  capacity : v.capacity = u.capacity
  inv : v.Inv
  suffix : v.content <:+ u.content

theorem taken_concat (cs : List (UnPacker × List UInt8)) (v : UnPacker) (p : List UInt8) :
    taken (cs ++ [(v, p)]) = taken cs + if p.length ≤ v.length then p.length else 0 := by
  unfold taken
  rw [List.filter_append, List.map_append, List.sum_append]
  split <;> simp [*]

/-! ## One commit -/

theorem commit_writeIndex (n : Nat) : (u.commit n).writeIndex = u.writeIndex := by
  show (u.commitReadSize n).2.writeIndex = _
  unfold RingBuffer.commitReadSize
  split <;> rfl

theorem Consumed.refl (hi : u.Inv) : Consumed u u := ⟨rfl, rfl, rfl, hi, List.suffix_refl _⟩

theorem Consumed.commit (h : Consumed u v) (n : Nat) : Consumed u (v.commit n) := by
  refine ⟨(commit_buffer n).trans h.buffer, (commit_writeIndex n).trans h.writeIndex,
    (commit_capacity n).trans h.capacity, commit_inv h.inv n, ?_⟩
  by_cases hn : n ≤ v.length
  · rw [commit_content h.inv hn]
    exact (List.drop_suffix _ _).trans h.suffix
  · have hsame : (v.commit n).toRingBuffer = v.toRingBuffer := by
      show (v.commitReadSize n).2 = _
      rw [RingBuffer.commitReadSize_eq h.inv, if_neg hn]
    show (v.commit n).toRingBuffer.content <:+ _
    rw [hsame]
    exact h.suffix

/-- A commit drops its bytes, or none if there are too few. -/
theorem commit_length_add (hi : u.Inv) (n : Nat) :
    (u.commit n).length + (if n ≤ u.length then n else 0) = u.length := by
  split
  · rename_i hn
    rw [commit_length hi hn, Nat.sub_add_cancel hn]
  · rename_i hn
    rw [commit_too_much hi hn, Nat.add_zero]

/-! ## One pass -/

theorem pass_over {s s' : Loop} (h : pass s = .ok (.next none s')) : s'.unpacker = s.unpacker := by
  obtain ⟨o, e, p, -, -, -, hp, -⟩ | ⟨dc, o, -, -, -, ⟨-, rfl⟩ | ⟨p, -, -, -, hp, -⟩⟩ := pass_next h
  · cases hp
  · rfl
  · cases hp

/-- A pass commits as many bytes as the packet it adds has. -/
theorem pass_packet_commits {s s' : Loop} {p : List UInt8} (hi : s.unpacker.Inv)
    (h : pass s = .ok (.next (some p) s')) :
    s'.unpacker = s.unpacker.commit p.length := by
  obtain ⟨o, e, q, -, -, hcopy, hq, rfl⟩ |
      ⟨dc, o, -, -, -, ⟨hnone, -⟩ | ⟨q, -, hcopy, -, hq, rfl⟩⟩ := pass_next h
  · cases hq
    rw [copyPacket_length hi hcopy]
  · cases hnone
  · cases hq
    rw [copyPacket_length hi hcopy]

/-! ## The whole call -/

/-- However far a call has come, it has only dropped bytes off the front. -/
theorem Committed.consumed {cs : List (UnPacker × List UInt8)} {s : Loop} (hi : u.Inv)
    (h : Committed u cs s) :
    Consumed u s.unpacker ∧ s.unpacker.length + taken cs = u.length := by
  induction h with
  | start => exact ⟨.refl hi, rfl⟩
  | skip _ hp ih => rwa [pass_over hp]
  | @packet cs s s' p _ hp ih =>
    obtain ⟨hc, hlen⟩ := ih
    have hdrop := commit_length_add hc.inv p.length
    rw [pass_packet_commits hc.inv hp, taken_concat]
    refine ⟨hc.commit _, ?_⟩
    omega

/-- A loop that comes back has made its commits pass by pass. -/
theorem runLoop_committed {fuel : Nat} {cs : List (UnPacker × List UInt8)} {s : Loop}
    {r : List (List UInt8) × UnPacker} (hc : Committed u cs s)
    (h : runLoop fuel s (cs.map Prod.snd) = .ok r) :
    ∃ cs' s', Committed u cs' s' ∧ pass s' = .ok .stop ∧ cs'.map Prod.snd = r.1 ∧ s'.unpacker = r.2 := by
  induction fuel generalizing cs s with
  | zero => cases h
  | succ fuel ih =>
    rw [runLoop] at h
    obtain ⟨q, hp, h⟩ := bind_ok.1 h
    cases q with
    | stop =>
      cases h
      exact ⟨cs, s, hc, hp, rfl, rfl⟩
    | next packet s' =>
      cases packet with
      | none =>
        dsimp only at h
        rw [Option.toList_none, List.append_nil] at h
        exact ih (hc.skip hp) h
      | some p =>
        refine ih (hc.packet hp) ?_
        rw [List.map_append]
        exact h

/-- So does a call. -/
theorem Gets.committed {packs : List (List UInt8)} (h : u.Gets packs v) :
    ∃ cs s, Committed u cs s ∧ pass s = .ok .stop ∧ cs.map Prod.snd = packs ∧ s.unpacker = v := by
  by_cases hm : u.unpackerModel = .kNone
  · have hnil := gets_iff.1 h
    unfold Packs at hnil
    rw [hm] at hnil
    cases hnil
    refine ⟨[], Loop.start u, .start, ?_, rfl, rfl⟩
    unfold pass
    rw [show (Loop.start u).unpacker.unpackerModel = .kNone from hm]
    rfl
  · obtain ⟨fuel, res, hget⟩ := packs_iff.1 (gets_iff.1 h)
    rw [getPack_run hm] at hget
    cases hrun : runLoop fuel (Loop.start u) [] with
    | error f =>
      rw [hrun] at hget
      cases hget
    | ok r =>
      rw [hrun] at hget
      cases hget
      exact runLoop_committed .start hrun

theorem Gets.consumed {packs : List (List UInt8)} (hi : u.Inv) (h : u.Gets packs v) : Consumed u v := by
  obtain ⟨cs, s, hc, -, -, rfl⟩ := h.committed
  exact (hc.consumed hi).1

/-- A call that comes back leaves array, write index and invariant as they were and drops
bytes off the front only: those of its packets that were no longer than what was
stored when they were committed. -/
theorem get_takes_packets {packs : List (List UInt8)} (hi : u.Inv) (h : u.Gets packs v) :
    v.buffer = u.buffer ∧ v.writeIndex = u.writeIndex ∧ v.capacity = u.capacity ∧ v.Inv ∧
    v.content <:+ u.content ∧
      ∃ cs s, Committed u cs s ∧ pass s = .ok .stop ∧ s.unpacker = v ∧ cs.map Prod.snd = packs ∧
        u.length - v.length = ((cs.filter fun c => c.2.length ≤ c.1.length).map fun c => c.2.length).sum := by
  obtain ⟨cs, s, hc, hstop, hpacks, rfl⟩ := h.committed
  obtain ⟨hk, hlen⟩ := hc.consumed hi
  refine ⟨hk.buffer, hk.writeIndex, hk.capacity, hk.inv, hk.suffix, cs, s, hc, hstop, rfl, hpacks, ?_⟩
  show _ = taken cs
  omega

/-- The theorem for a frame with a byte on each side: the junk goes, and a byte of the frame stays. -/
theorem get_takes_packets_one :
    let u := (createBasic [1] [2] 8 (by decide)).writeRing [9, 1, 7, 2, 5]
    ∃ v, u.Inv ∧ u.Gets [[1, 7, 2]] v ∧ v.content = [2, 5] ∧ v.content <:+ u.content := by
  intro u
  have hi : u.Inv := writeRing_inv (u := createBasic [1] [2] 8 (by decide))
    (RingBuffer.ofSize_inv (by decide) (by decide)) _
  have hplay : (getPack 2 u []).map (fun r => (r.2.1, r.2.2.content)) = .ok ([[1, 7, 2]], [2, 5]) := by decide
  obtain ⟨res, packs, v, hgets, hplay⟩ := gets_of_getPack hplay
  simp only [Prod.mk.injEq] at hplay
  obtain ⟨rfl, hv⟩ := hplay
  obtain ⟨-, -, -, -, hsuffix, -⟩ := get_takes_packets hi hgets
  exact ⟨v, hi, hgets, hv, hsuffix⟩

end NebulaToolkit.UnPacker
