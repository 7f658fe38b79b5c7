import NebulaToolkit.CleanCall
import NebulaToolkit.Lib.Machine
/-!
# The packet loops, pass by pass

One iteration of a packet loop as a function of its own (`pass`), and the call
as the run of its passes (`getPack_run`). What holds of every iteration of a
call is then stated about the places its passes reach (`Reached`), whether
the call comes back or not.
-/

namespace NebulaToolkit.UnPacker

open Lib

variable {u : UnPacker}

/-- Where a packet loop stands at the top of an iteration. -/
structure Loop where
  unpacker : UnPacker
  currentPos : Nat
  totalSize : Nat

/-- How an iteration ends: with the loop, or where the next one begins and with the
packet it has added to `read_data`, if any. -/
inductive Pass where
  | stop
  | next (packet : Option (List UInt8)) (loop : Loop)

/-- The body of the loop of the two modes without callbacks. -/
def keysPass (s : Loop) : Except Fault Pass :=
  if s.currentPos < s.totalSize then do
    let headOffset ← s.unpacker.findKey s.unpacker.headKey s.currentPos
    if headOffset = s.unpacker.capacity then return .stop
    let endOffset ← s.unpacker.findKey s.unpacker.endKey (addSz headOffset s.unpacker.headKey.length)
    if endOffset = s.unpacker.capacity then return .stop
    let packetEnd := addSz endOffset s.unpacker.extra
    let packetSize := subSz packetEnd headOffset
    let packet ← s.unpacker.copyPacket headOffset packetSize
    return .next (some packet) ⟨s.unpacker.commit packetSize, packetEnd, s.totalSize⟩
  else return .stop

/-- The body of the loop of the mode with callbacks. -/
def cbPass (dataSzCb : DataSzCb) (s : Loop) : Except Fault Pass :=
  if s.currentPos < s.totalSize then do
    let headOffset ← s.unpacker.findKey s.unpacker.headKey s.currentPos
    if headOffset = s.unpacker.capacity then return .stop
    let sizes := s.unpacker.sizesAt dataSzCb headOffset
    if ¬ SizesFit s.unpacker sizes headOffset s.totalSize then
      return .next none ⟨s.unpacker, addSz headOffset 1, s.totalSize⟩
    else
      let tailOffset ← s.unpacker.findKey s.unpacker.tailKey (tailAt sizes headOffset)
      if tailOffset ≠ tailAt sizes headOffset then
        return .next none ⟨s.unpacker, addSz headOffset 1, s.totalSize⟩
      else
        let packet ← s.unpacker.copyPacket headOffset (packetSize sizes)
        if s.unpacker.checkSzCb.all (· packet) then
          return .next (some packet)
            ⟨s.unpacker.commit (packetSize sizes), addSz headOffset (packetSize sizes), s.totalSize⟩
        else return .next none ⟨s.unpacker, addSz headOffset 1, s.totalSize⟩
  else return .stop

/-- One iteration, in the mode of the unpacker. -/
def pass (s : Loop) : Except Fault Pass :=
  match s.unpacker.unpackerModel with
  | .kHead | .kHeadTail => keysPass s
  | .kHeadTailCb =>
    match s.unpacker.dataSzCb with
    | some dataSzCb => cbPass dataSzCb s
    | none => return .stop
  | .kNone => return .stop

/-- At most `fuel` iterations. -/
def runLoop : Nat → Loop → List (List UInt8) → Except Fault (List (List UInt8) × UnPacker)
  | 0, _, _ => .error .running
  | fuel + 1, s, readData => do
    match ← pass s with
    | .stop => return (readData, s.unpacker)
    | .next packet s' => runLoop fuel s' (readData ++ packet.toList)

/-- Where a call starts. -/
def Loop.start (u : UnPacker) : Loop := ⟨u, 0, u.length⟩

/-- An iteration leads from one place to another. -/
def Steps (s s' : Loop) : Prop := ∃ packet, pass s = .ok (.next packet s')

/-- The places the iterations of a call on `u` start from. -/
def Reached (u : UnPacker) : Loop → Prop := Reachable (· = Loop.start u) Steps

/-! ## A call is the run of its passes -/

theorem pass_keyed {s : Loop} (hk : s.unpacker.Keyed) : pass s = keysPass s := by
  unfold pass
  rcases hk with h | h <;> rw [h]

theorem pass_cb {s : Loop} {dc : DataSzCb} (hm : s.unpacker.unpackerModel = .kHeadTailCb)
    (hdc : s.unpacker.dataSzCb = some dc) :
    pass s = cbPass dc s := by
  unfold pass
  rw [hm, hdc]

theorem processKeys_run (hk : u.Keyed) (fuel cur total : Nat) (rd : List (List UInt8)) :
    processKeys u.endKey u.extra fuel u cur total rd = runLoop fuel ⟨u, cur, total⟩ rd := by
  induction fuel generalizing u cur rd with
  | zero => rfl
  | succ fuel ih =>
    rw [processKeys, runLoop, pass_keyed hk, keysPass]
    by_cases hlt : cur < total
    · simp only [if_pos hlt, bind_assoc]
      congr 1; funext o
      split
      · rfl
      rw [bind_assoc]
      congr 1; funext e
      split
      · rfl
      rw [bind_assoc]
      congr 1; funext p
      exact ih (hk.commit _) _ _
    · rw [if_neg hlt, if_neg hlt]; rfl

theorem processCb_run {dc : DataSzCb} (hm : u.unpackerModel = .kHeadTailCb) (hdc : u.dataSzCb = some dc)
    (fuel cur total : Nat) (rd : List (List UInt8)) :
    processCb dc u.checkSzCb fuel u cur total rd = runLoop fuel ⟨u, cur, total⟩ rd := by
  induction fuel generalizing u cur rd with
  | zero => rfl
  | succ fuel ih =>
    rw [runLoop, pass_cb hm hdc, cbPass]
    by_cases hlt : cur < total
    swap
    · rw [processCb, if_neg hlt, if_neg hlt]; rfl
    have hskip (o : Nat) : processCb dc u.checkSzCb fuel u (addSz o 1) total rd =
        runLoop fuel ⟨u, addSz o 1, total⟩ (rd ++ Option.toList none) := by
      rw [Option.toList_none, List.append_nil]
      exact ih hm hdc _ _
    cases hh : u.findKey u.headKey cur with
    | error f =>
      rw [if_pos hlt, processCb, if_pos hlt, hh]
      rfl
    | ok o =>
      rw [if_pos hlt]
      by_cases ho : o = u.capacity
      · rw [processCb, if_pos hlt, hh]
        simp only [bind, Except.bind, if_pos ho]
        rfl
      rw [processCb_head hlt hh ho]
      simp only [bind, Except.bind, if_neg ho]
      by_cases hs : SizesFit u (u.sizesAt dc o) o total
      swap
      · simp only [if_pos hs]
        exact hskip o
      simp only [if_neg (not_not.2 hs)]
      cases u.findKey u.tailKey (tailAt (u.sizesAt dc o) o) with
      | error f => rfl
      | ok t =>
        dsimp only
        by_cases ht : t ≠ tailAt (u.sizesAt dc o) o
        · simp only [if_pos ht]
          exact hskip o
        simp only [if_neg ht]
        cases u.copyPacket o (packetSize (u.sizesAt dc o)) with
        | error f => rfl
        | ok p =>
          dsimp only
          by_cases hc : u.checkSzCb.all (· p) = true
          · simp only [if_pos hc]
            exact ih (u := u.commit _) hm hdc _ _
          · simp only [if_neg hc]
            exact hskip o

/-- In the three modes a call is the run of its passes. -/
theorem getPack_run (hm : u.unpackerModel ≠ .kNone) (fuel : Nat) (rd : List (List UInt8)) :
    getPack fuel u rd = (runLoop fuel (Loop.start u) rd).map fun r => (.kSuccess, r) := by
  have hkeys (hk : u.Keyed) :
      processKeys u.endKey u.extra fuel u 0 u.length rd = runLoop fuel (Loop.start u) rd :=
    processKeys_run hk fuel 0 u.length rd
  unfold getPack
  cases hmode : u.unpackerModel with
  | kNone => exact absurd hmode hm
  | kHead =>
    rw [← hkeys (.inl hmode), endKey_head hmode, extra_head hmode]
    rfl
  | kHeadTail =>
    rw [← hkeys (.inr hmode), endKey_tail hmode, extra_tail hmode]
    rfl
  | kHeadTailCb =>
    obtain ⟨dc, hdc⟩ := dataSzCb_of_model hmode
    simp only [processHeadTailAndCbMode, hdc]
    rw [show Loop.start u = ⟨u, 0, u.length⟩ from rfl, ← processCb_run hmode hdc]
    rfl

/-! ## What a pass can do -/

section
variable {s s' : Loop} {packet : Option (List UInt8)}

/-- A pass finds a head. -/
def HeadAt (s : Loop) (o : Nat) : Prop :=
  s.currentPos < s.totalSize ∧ s.unpacker.findKey s.unpacker.headKey s.currentPos = .ok o ∧
  o ≠ s.unpacker.capacity

/-- Without callbacks: a pass finds a head at `o` and the end key behind it at `e`. -/
def KeysAt (s : Loop) (o e : Nat) : Prop :=
  HeadAt s o ∧ s.unpacker.findKey s.unpacker.endKey (addSz o s.unpacker.headKey.length) = .ok e ∧
  e ≠ s.unpacker.capacity

/-- With callbacks: a pass finds a head at `o`, and the sizes it reports and the tail
key pass their tests. -/
def FrameAt (dc : DataSzCb) (s : Loop) (o : Nat) : Prop :=
  HeadAt s o ∧ SizesFit s.unpacker (s.unpacker.sizesAt dc o) o s.totalSize ∧
    s.unpacker.findKey s.unpacker.tailKey (tailAt (s.unpacker.sizesAt dc o) o) =
    .ok (tailAt (s.unpacker.sizesAt dc o) o)

theorem keysPass_next (h : keysPass s = .ok (.next packet s')) : ∃ o e p, KeysAt s o e ∧
    s.unpacker.copyPacket o (subSz (addSz e s.unpacker.extra) o) = .ok p ∧ packet = some p ∧
    s' = ⟨s.unpacker.commit (subSz (addSz e s.unpacker.extra) o), addSz e s.unpacker.extra, s.totalSize⟩ := by
  unfold keysPass at h
  split at h
  swap
  · cases h
  obtain ⟨o, hh, h⟩ := bind_ok.1 h
  split at h
  · cases h
  obtain ⟨e, he, h⟩ := bind_ok.1 h
  split at h
  · cases h
  obtain ⟨p, hp, h⟩ := bind_ok.1 h
  cases h
  exact ⟨o, e, p, ⟨⟨‹_›, hh, ‹_›⟩, he, ‹_›⟩, hp, rfl, rfl⟩

theorem cbPass_next {dc : DataSzCb} (h : cbPass dc s = .ok (.next packet s')) : ∃ o, HeadAt s o ∧
    (packet = none ∧ s' = ⟨s.unpacker, addSz o 1, s.totalSize⟩ ∨
      ∃ p, FrameAt dc s o ∧ s.unpacker.copyPacket o (packetSize (s.unpacker.sizesAt dc o)) = .ok p ∧
        s.unpacker.checkSzCb.all (· p) = true ∧ packet = some p ∧
        s' = ⟨s.unpacker.commit (packetSize (s.unpacker.sizesAt dc o)),
          addSz o (packetSize (s.unpacker.sizesAt dc o)), s.totalSize⟩) := by
  unfold cbPass at h
  split at h
  swap
  · cases h
  obtain ⟨o, hh, h⟩ := bind_ok.1 h
  split at h
  · cases h
  have hhead : HeadAt s o := ⟨‹_›, hh, ‹_›⟩
  refine ⟨o, hhead, ?_⟩
  dsimp only at h
  by_cases hs : SizesFit s.unpacker (s.unpacker.sizesAt dc o) o s.totalSize
  swap
  · rw [if_pos hs] at h
    cases h
    exact .inl ⟨rfl, rfl⟩
  rw [if_neg (not_not.2 hs)] at h
  obtain ⟨t, ht, h⟩ := bind_ok.1 h
  by_cases hte : t = tailAt (s.unpacker.sizesAt dc o) o
  swap
  · rw [if_pos hte] at h
    cases h
    exact .inl ⟨rfl, rfl⟩
  rw [if_neg (not_not.2 hte)] at h
  obtain ⟨p, hp, h⟩ := bind_ok.1 h
  split at h
  · cases h
    exact .inr ⟨p, ⟨hhead, hs, by rw [ht, hte]⟩, hp, ‹_›, rfl, rfl⟩
  · cases h
    exact .inl ⟨rfl, rfl⟩

/-- What follows once the head and its sizes and tail have passed. -/
theorem cbPass_frame {dc : DataSzCb} {o : Nat} (h : FrameAt dc s o) : cbPass dc s =
    s.unpacker.copyPacket o (packetSize (s.unpacker.sizesAt dc o)) >>= fun p =>
      if s.unpacker.checkSzCb.all (· p) then
        pure (.next (some p) ⟨s.unpacker.commit (packetSize (s.unpacker.sizesAt dc o)),
          addSz o (packetSize (s.unpacker.sizesAt dc o)), s.totalSize⟩)
      else pure (.next none ⟨s.unpacker, addSz o 1, s.totalSize⟩) := by
  obtain ⟨⟨hlt, hh, ho⟩, hs, ht⟩ := h
  rw [cbPass, if_pos hlt, hh]
  simp only [bind, Except.bind, if_neg ho, if_neg (not_not.2 hs), ht, ne_eq, not_true, if_false]

/-- What a pass can have done when another one follows it. -/
theorem pass_next (h : pass s = .ok (.next packet s')) :
    (∃ o e p, s.unpacker.Keyed ∧ KeysAt s o e ∧
      s.unpacker.copyPacket o (subSz (addSz e s.unpacker.extra) o) = .ok p ∧ packet = some p ∧
      s' = ⟨s.unpacker.commit (subSz (addSz e s.unpacker.extra) o), addSz e s.unpacker.extra, s.totalSize⟩) ∨
    ∃ dc o, s.unpacker.unpackerModel = .kHeadTailCb ∧ s.unpacker.dataSzCb = some dc ∧ HeadAt s o ∧
      (packet = none ∧ s' = ⟨s.unpacker, addSz o 1, s.totalSize⟩ ∨
        ∃ p, FrameAt dc s o ∧ s.unpacker.copyPacket o (packetSize (s.unpacker.sizesAt dc o)) = .ok p ∧
          s.unpacker.checkSzCb.all (· p) = true ∧ packet = some p ∧
          s' = ⟨s.unpacker.commit (packetSize (s.unpacker.sizesAt dc o)),
            addSz o (packetSize (s.unpacker.sizesAt dc o)), s.totalSize⟩) := by
  cases hmode : s.unpacker.unpackerModel with
  | kNone =>
    rw [pass, hmode] at h
    cases h
  | kHead | kHeadTail =>
    have hk : s.unpacker.Keyed := by unfold Keyed; rw [hmode]; simp
    rw [pass_keyed hk] at h
    obtain ⟨o, e, p, hnext⟩ := keysPass_next h
    exact .inl ⟨o, e, p, hk, hnext⟩
  | kHeadTailCb =>
    obtain ⟨dc, hdc⟩ := dataSzCb_of_model hmode
    rw [pass_cb hmode hdc] at h
    obtain ⟨o, hnext⟩ := cbPass_next h
    exact .inr ⟨dc, o, rfl, hdc, hnext⟩

/-- What an iteration can have done when another one follows it. -/
theorem Steps.cases (h : Steps s s') :
    (∃ o e p, s.unpacker.Keyed ∧ KeysAt s o e ∧
      s.unpacker.copyPacket o (subSz (addSz e s.unpacker.extra) o) = .ok p ∧
      s' = ⟨s.unpacker.commit (subSz (addSz e s.unpacker.extra) o), addSz e s.unpacker.extra, s.totalSize⟩) ∨
    ∃ dc o, s.unpacker.unpackerModel = .kHeadTailCb ∧ s.unpacker.dataSzCb = some dc ∧ HeadAt s o ∧
      (s' = ⟨s.unpacker, addSz o 1, s.totalSize⟩ ∨
        ∃ p, FrameAt dc s o ∧ s.unpacker.copyPacket o (packetSize (s.unpacker.sizesAt dc o)) = .ok p ∧
          s.unpacker.checkSzCb.all (· p) = true ∧
          s' = ⟨s.unpacker.commit (packetSize (s.unpacker.sizesAt dc o)),
            addSz o (packetSize (s.unpacker.sizesAt dc o)), s.totalSize⟩) := by
  obtain ⟨packet, h⟩ := h
  rcases pass_next h with ⟨o, e, p, hk, hkeys, hp, -, hs'⟩ | ⟨dc, o, hmode, hdc, hhead, hnext⟩
  · exact .inl ⟨o, e, p, hk, hkeys, hp, hs'⟩
  · refine .inr ⟨dc, o, hmode, hdc, hhead, ?_⟩
    rcases hnext with ⟨-, hs'⟩ | ⟨p, hframe, hp, hc, -, hs'⟩
    · exact .inl hs'
    · exact .inr ⟨p, hframe, hp, hc, hs'⟩

/-- The unpacker of the next iteration: the same, or with a packet dropped. -/
theorem Steps.unpacker (h : Steps s s') :
    (s'.unpacker = s.unpacker ∨ ∃ n, s'.unpacker = s.unpacker.commit n) ∧ s'.totalSize = s.totalSize := by
  obtain ⟨o, e, p, -, -, -, rfl⟩ | ⟨dc, o, -, -, -, rfl | ⟨p, -, -, -, rfl⟩⟩ := h.cases
  · exact ⟨.inr ⟨_, rfl⟩, rfl⟩
  · exact ⟨.inl rfl, rfl⟩
  · exact ⟨.inr ⟨_, rfl⟩, rfl⟩

theorem Steps.lt (h : Steps s s') : s.currentPos < s.totalSize := by
  obtain ⟨o, e, p, -, hkeys, -⟩ | ⟨dc, o, -, -, hhead, -⟩ := h.cases
  · exact hkeys.1.1
  · exact hhead.1

end

/-- What does not change during a call on `u`. -/
structure During (u : UnPacker) (s : Loop) : Prop where
  inv : s.unpacker.Inv
  model : s.unpacker.unpackerModel = u.unpackerModel
  headKey : s.unpacker.headKey = u.headKey
  tailKey : s.unpacker.tailKey = u.tailKey
  dataSzCb : s.unpacker.dataSzCb = u.dataSzCb
  checkSzCb : s.unpacker.checkSzCb = u.checkSzCb
  buffer : s.unpacker.buffer = u.buffer
  length_le : s.unpacker.length ≤ u.length
  totalSize : s.totalSize = u.length

theorem During.commit {s : Loop} (h : During u s) (n cur : Nat) :
    During u ⟨s.unpacker.commit n, cur, s.totalSize⟩ where
  inv := commit_inv h.inv n
  model := h.model
  headKey := h.headKey
  tailKey := h.tailKey
  dataSzCb := h.dataSzCb
  checkSzCb := h.checkSzCb
  buffer := (commit_buffer n).trans h.buffer
  length_le := (commit_length_le h.inv n).trans h.length_le
  totalSize := h.totalSize

theorem Reached.during {s : Loop} (hi : u.Inv) (h : Reached u s) : During u s := by
  apply Reachable.inv (I := During u) _ _ h
  · rintro _ rfl
    exact ⟨hi, rfl, rfl, rfl, rfl, rfl, rfl, Nat.le_refl _, rfl⟩
  · intro s s' _ hs hstep
    obtain ⟨hu, ht⟩ := hstep.unpacker
    obtain ⟨v, cur, total⟩ := s'
    obtain rfl : total = s.totalSize := ht
    rcases hu with rfl | ⟨n, rfl⟩
    · exact ⟨hs.inv, hs.model, hs.headKey, hs.tailKey, hs.dataSzCb, hs.checkSzCb, hs.buffer, hs.length_le,
        hs.totalSize⟩
    · exact hs.commit n cur

/-- What a call has dropped by now, it dropped off the front. -/
theorem Reached.commit {s : Loop} (hi : u.Inv) (h : Reached u s) :
    ∃ d ≤ u.length, s.unpacker = u.commit d := by
  refine h.inv (I := fun s => ∃ d ≤ u.length, s.unpacker = u.commit d) ?_ ?_
  · rintro _ rfl
    exact ⟨0, Nat.zero_le _, (commit_zero hi).symm⟩
  · rintro s s' - ⟨d, hd, hs⟩ hstep
    rcases hstep.unpacker.1 with hsame | ⟨n, hn⟩
    · exact ⟨d, hd, hsame.trans hs⟩
    rw [hs] at hn
    by_cases hle : n ≤ (u.commit d).length
    · rw [commit_length hi hd] at hle
      exact ⟨d + n, by omega, hn.trans (commit_commit hi (by omega))⟩
    · exact ⟨d, hd, hn.trans (commit_too_much (commit_inv hi d) hle)⟩

/-! ## Whether the loop ends -/

theorem findKey_ne_running (key : List UInt8) (start : Nat) : u.findKey key start ≠ .error .running := by
  have hscan (bound : Nat) (hit : Nat → Bool) : scan bound hit ≠ .error .running := by
    unfold scan
    split <;> exact fun h => by cases h
  intro h
  unfold findKey at h
  split at h
  · cases h
  rcases bind_error.1 h with h | ⟨r, -, h⟩
  · exact hscan _ _ h
  cases r with
  | some i => cases h
  | none =>
    dsimp only at h
    split at h
    swap
    · cases h
    rcases bind_error.1 h with h | ⟨r, -, h⟩
    · exact hscan _ _ h
    · cases r <;> cases h

theorem copyPacket_ne_running (o n : Nat) : u.copyPacket o n ≠ .error .running := by
  intro h
  unfold copyPacket at h
  split at h
  · cases h
  dsimp only at h
  split at h
  · split at h <;> cases h
  · cases h

/-- An iteration is never what has not ended. -/
theorem pass_ne_running (s : Loop) : pass s ≠ .error .running := by
  have hkeys : keysPass s ≠ .error .running := by
    intro h
    unfold keysPass at h
    split at h
    swap
    · cases h
    rcases bind_error.1 h with h | ⟨o, -, h⟩
    · exact findKey_ne_running _ _ h
    split at h
    · cases h
    rcases bind_error.1 h with h | ⟨e, -, h⟩
    · exact findKey_ne_running _ _ h
    split at h
    · cases h
    rcases bind_error.1 h with h | ⟨p, -, h⟩
    · exact copyPacket_ne_running _ _ h
    · cases h
  have hcb (dc : DataSzCb) : cbPass dc s ≠ .error .running := by
    intro h
    unfold cbPass at h
    split at h
    swap
    · cases h
    rcases bind_error.1 h with h | ⟨o, -, h⟩
    · exact findKey_ne_running _ _ h
    split at h
    · cases h
    dsimp only at h
    split at h
    · cases h
    rcases bind_error.1 h with h | ⟨t, -, h⟩
    · exact findKey_ne_running _ _ h
    split at h
    · cases h
    rcases bind_error.1 h with h | ⟨p, -, h⟩
    · exact copyPacket_ne_running _ _ h
    · split at h <;> cases h
  unfold pass
  split
  · exact hkeys
  · exact hkeys
  · split
    · exact hcb _
    · exact fun h => by cases h
  · exact fun h => by cases h

/-- Where every iteration of a call goes on further behind, its loop ends. -/
theorem runLoop_ends (hadv : ∀ s s', Reached u s → Steps s s' → s.currentPos < s'.currentPos) :
    ∃ fuel, runLoop fuel (Loop.start u) [] ≠ .error .running := by
  have main (d : Nat) : ∀ s, Reached u s → s.totalSize - s.currentPos = d →
      ∃ fuel, ∀ rd, runLoop fuel s rd ≠ .error .running := by
    -- The induction is on the bytes still to be looked at.
    induction d using Nat.strong_induction_on with
    | _ d ih =>
    intro s hs hd
    cases hp : pass s with
    | error f =>
      refine ⟨1, fun rd h => ?_⟩
      rw [runLoop, hp] at h
      have hf : f = .running := Except.error.inj h
      exact pass_ne_running s (hf ▸ hp)
    | ok r =>
      cases r with
      | stop =>
        refine ⟨1, fun rd h => ?_⟩
        rw [runLoop, hp] at h
        cases h
      | next packet s' =>
        have hstep : Steps s s' := ⟨packet, hp⟩
        have hlt := hstep.lt
        have hadv' := hadv s s' hs hstep
        obtain ⟨-, htotal⟩ := hstep.unpacker
        obtain ⟨fuel, hf⟩ := ih (s'.totalSize - s'.currentPos) (by omega) s' (hs.next hstep) rfl
        refine ⟨fuel + 1, fun rd h => ?_⟩
        rw [runLoop, hp] at h
        exact hf _ h
  obtain ⟨fuel, hf⟩ := main _ (Loop.start u) (Reachable.start rfl) rfl
  exact ⟨fuel, hf []⟩

/-- An iteration that leads back to where it started is repeated for good. -/
theorem Reached.spins {s : Loop} {packet : Option (List UInt8)} (h : Reached u s)
    (hp : pass s = .ok (.next packet s)) (fuel : Nat) (rd : List (List UInt8)) :
    runLoop fuel (Loop.start u) rd = .error .running := by
  obtain ⟨s₀, hs₀, hr⟩ := h
  rw [← hs₀]
  clear hs₀
  induction hr using Relation.ReflTransGen.head_induction_on generalizing fuel rd with
  | refl =>
    induction fuel generalizing rd with
    | zero => rfl
    | succ fuel ih =>
      rw [runLoop, hp]
      exact ih _
  | head hstep _ ih =>
    obtain ⟨q, hq⟩ := hstep
    cases fuel with
    | zero => rfl
    | succ fuel =>
      rw [runLoop, hq]
      exact ih fuel _

end NebulaToolkit.UnPacker
