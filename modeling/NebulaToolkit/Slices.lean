import NebulaToolkit.Chunking
/-!
# The packets are slices of the stream

Over a run of `PushAndGet` and `Get` calls, the packets handed out against the
bytes accepted. They are disjoint slices in stream order as long as every call
takes at most one packet, and that off the front of the ring: a commit drops
as many bytes as the packet has, wherever the packet was.
-/

namespace NebulaToolkit.UnPacker

open Lib

variable {u u' : UnPacker}

/-- `ps` are non-empty slices of `xs`, one behind the other, the first at or after `start`. -/
def Slices (xs : List UInt8) : Nat → List (List UInt8) → Prop
  | _, [] => True
  | start, p :: ps =>
    ∃ a ≤ xs.length, ∃ b ≤ xs.length, start ≤ a ∧ a < b ∧ slice xs a (b - a) = p ∧ Slices xs b ps

instance decSlices (xs : List UInt8) : ∀ start ps, Decidable (Slices xs start ps)
  | _, [] => .isTrue trivial
  | start, _ :: ps =>
    have (b : Nat) : Decidable (Slices xs b ps) := decSlices xs b ps
    inferInstanceAs (Decidable (∃ a ≤ xs.length, ∃ b ≤ xs.length, start ≤ a ∧ a < b ∧ _ ∧ _))

theorem Slices.of_drop {xs : List UInt8} {d : Nat} (hd : d ≤ xs.length) {ps : List (List UInt8)} {start : Nat}
    (h : Slices (xs.drop d) start ps) : Slices xs (d + start) ps := by
  induction ps generalizing start with
  | nil => trivial
  | cons p ps ih =>
    obtain ⟨a, ha, b, hb, hs, hab, hp, h⟩ := h
    rw [List.length_drop] at ha hb
    refine ⟨d + a, by omega, d + b, by omega, by omega, by omega, ?_, ih h⟩
    rw [← hp, Nat.add_sub_add_left, slice, slice, List.drop_drop]

/-! ## Calls with callbacks that take at most one packet, off the front -/

/-- `FindKey` can find a head at `o`. -/
def Probes (u : UnPacker) (o : Nat) : Prop := ∃ cur, u.findKey u.headKey cur = .ok o ∧ o ≠ u.capacity

/-- A head at `o` passes the checks of the mode with callbacks: the reported sizes
fit, the tail key stands where they say, and the packet is valid. -/
def Accepts (u : UnPacker) (dc : DataSzCb) (o total : Nat) : Prop :=
  SizesFit u (u.sizesAt dc o) o total ∧
    u.findKey u.tailKey (tailAt (u.sizesAt dc o) o) = .ok (tailAt (u.sizesAt dc o) o) ∧
    ∃ p, u.copyPacket o (packetSize (u.sizesAt dc o)) = .ok p ∧ u.checkSzCb.all (· p) = true

/-- No head passes; or the first stored byte begins one that does, with sizes that
are stored and have not wrapped, and behind it none passes where the loop goes on. -/
def CleanCb (u : UnPacker) (dc : DataSzCb) : Prop :=
  (∀ o, u.Probes o → ¬ u.Accepts dc o u.length) ∨
    OccursAt u.headKey u.content 0 ∧ u.Accepts dc 0 u.length ∧
      u.headKey.length ≤ packetSize (u.sizesAt dc 0) ∧ packetSize (u.sizesAt dc 0) ≤ u.length ∧
      ∀ o, packetSize (u.sizesAt dc 0) ≤ o → (u.commit (packetSize (u.sizesAt dc 0))).Probes o →
        ¬ (u.commit (packetSize (u.sizesAt dc 0))).Accepts dc o u.length

section
variable {dc : DataSzCb} {rd : List (List UInt8)} {r : List (List UInt8) × UnPacker}

/-- Where no head passes, the loop changes nothing. -/
theorem processCb_quiet {lo total : Nat} (hno : ∀ o, lo ≤ o → u.Probes o → ¬ u.Accepts dc o total)
    (hge : ∀ cur o, lo ≤ cur → u.findKey u.headKey cur = .ok o → o ≠ u.capacity →
      lo ≤ o ∧ lo ≤ addSz o 1)
    {fuel cur : Nat} (hcur : lo ≤ cur) (h : processCb dc u.checkSzCb fuel u cur total rd = .ok r) :
    r = (rd, u) := by
  induction fuel generalizing cur with
  | zero => cases h
  | succ fuel ih =>
    rcases processCb_cases h with h | ⟨o, -, ho, hne, h | ⟨p, hs, ht, hp, hc, -⟩⟩
    · exact h
    · exact ih (hge cur o hcur ho hne).2 h
    · exact absurd ⟨hs, ht, p, hp, hc⟩ (hno o (hge cur o hcur ho hne).1 ⟨cur, ho, hne⟩)

variable (hi : u.Inv)
include hi

/-- What a call on a ring with `CleanCb` can hand out. -/
theorem cleanCb_call (hh : u.headKey ≠ []) (hc : u.CleanCb dc) (h : CbRun dc u.checkSzCb u 0 u.length [] r) :
    r = ([], u) ∨ ∃ n, 0 < n ∧ n ≤ u.length ∧ r = ([u.content.take n], u.commit n) := by
  have hl := hi.length_le
  have hC := u.capacity_lt
  obtain ⟨fuel, h⟩ := h
  rcases hc with hno | ⟨hocc, hacc, hk, hn, hno⟩
  · exact .inl (processCb_quiet (fun o _ => hno o) (fun _ _ _ _ _ => ⟨Nat.zero_le _, Nat.zero_le _⟩)
      (Nat.zero_le _) h)
  have hkp := List.length_pos_iff.2 hh
  have hhead := findKey_here hi hh hocc
  obtain ⟨hs, ht, q, hq, hqc⟩ := hacc
  have hcopy : u.copyPacket 0 (packetSize (u.sizesAt dc 0)) =
      .ok (u.content.take (packetSize (u.sizesAt dc 0))) := by
    rw [copyPacket_eq hi (by omega) (by omega), List.drop_zero]
  have hadd : addSz 0 (packetSize (u.sizesAt dc 0)) = packetSize (u.sizesAt dc 0) := by
    rw [show addSz 0 (packetSize (u.sizesAt dc 0)) = 0 + _ from wadd_of_lt (by omega), Nat.zero_add]
  have hq' : q = u.content.take (packetSize (u.sizesAt dc 0)) := Except.ok.inj (hq.symm.trans hcopy)
  rw [hq'] at hqc
  obtain _ | fuel := fuel
  · cases h
  rw [processCb_head (by omega) hhead (by omega), if_neg (not_not.2 hs), ht] at h
  simp only [bind, Except.bind, ne_eq, not_true, if_false, hcopy, hqc, if_true, hadd] at h
  generalize packetSize (u.sizesAt dc 0) = n at *
  refine .inr ⟨n, by omega, hn,
    processCb_quiet (u := u.commit n) hno (fun cur o hcur ho hne => ?_) (Nat.le_refl n) h⟩
  -- The head just dropped is still there to be found, so no search runs far.
  have hlt : cur < (u.commit n).length := by
    by_contra hlt
    rw [findKey_refused (.inr (.inr (by omega)))] at ho
    exact hne (Except.ok.inj ho).symm
  have hlen := commit_length hi hn
  obtain ⟨h1, h2⟩ := findKey_ge (commit_inv hi n) ho hne (.inr ⟨u.capacity - n - cur, by
    rw [commit_capacity, commit_headKey]; omega, readsAt_dropped hi hh hocc hn hlt⟩)
  rw [commit_capacity] at h2
  rw [show addSz o 1 = o + 1 from wadd_of_lt (by omega)]
  omega

end

/-! ## Runs -/

/-- The public calls; a null pointer is `none`. -/
inductive Call where
  | pushAndGet (writeData : Option (List UInt8))
  | get

/-- The ring `GetPack` works on in a call. -/
def before (u : UnPacker) : Call → UnPacker
  | .pushAndGet (some bytes) => u.writeRing bytes
  | _ => u

/-- The bytes `Write` accepts in a call. -/
def accepted (u : UnPacker) : Call → List UInt8
  | .pushAndGet (some bytes) => if bytes.length ≠ 0 ∧ bytes.length ≤ u.availableToWrite then bytes else []
  | _ => []

/-- A call comes back; `o` is the bytes it accepted and the packets it handed out. -/
def Does (u : UnPacker) (call : Call) (o : List UInt8 × List (List UInt8)) (u' : UnPacker) : Prop :=
  o.1 = u.accepted call ∧
    match call with
    | .pushAndGet none => o.2 = [] ∧ u' = u
    | .pushAndGet (some bytes) => u.Pushes bytes o.2 u'
    | .get => u.Gets o.2 u'

/-- A run of calls, computed; `fuel` bounds the iterations of each packet loop. -/
def play (fuel : Nat) : UnPacker → List Call → Except Fault (List (List UInt8 × List (List UInt8)) × UnPacker)
  | u, [] => .ok ([], u)
  | u, .pushAndGet none :: calls => (play fuel u calls).map fun r => (([], []) :: r.1, r.2)
  | u, call :: calls => do
    let (_, packs, u') ← getPack fuel (u.before call) []
    (play fuel u' calls).map fun r => ((u.accepted call, packs) :: r.1, r.2)

theorem map_ok {α β : Type} {x : Except Fault α} {f : α → β} {b : β} (h : x.map f = .ok b) :
    ∃ a, x = .ok a ∧ b = f a := by
  cases x <;> cases h
  exact ⟨_, rfl, rfl⟩

theorem play_trace {fuel : Nat} {calls : List Call} {outs : List (List UInt8 × List (List UInt8))}
    (h : play fuel u calls = .ok (outs, u')) : Trace Does u calls outs u' := by
  induction calls generalizing u outs with
  | nil => cases h; exact .nil _
  | cons call calls ih =>
    rcases call with (- | bytes) | -
    · obtain ⟨r, hr, he⟩ := map_ok h
      cases he
      exact .cons ⟨rfl, rfl, rfl⟩ (ih hr)
    · obtain ⟨⟨res, packs, v⟩, hg, h⟩ := bind_ok.1 h
      obtain ⟨r, hr, he⟩ := map_ok h
      cases he
      exact .cons ⟨rfl, pushes_iff.2 (packs_iff.2 ⟨fuel, res, hg⟩)⟩ (ih hr)
    · obtain ⟨⟨res, packs, v⟩, hg, h⟩ := bind_ok.1 h
      obtain ⟨r, hr, he⟩ := map_ok h
      cases he
      exact .cons ⟨rfl, gets_iff.2 (packs_iff.2 ⟨fuel, res, hg⟩)⟩ (ih hr)

/-- A call of `GetPack` on this ring takes at most one packet, and that off the front. -/
def CleanNow (u : UnPacker) : Prop :=
  match u.unpackerModel with
  | .kNone => True
  | .kHead | .kHeadTail => u.Clean
  | .kHeadTailCb => ∃ dc, u.dataSzCb = some dc ∧ u.CleanCb dc

/-- The call does nothing or finds such a ring. -/
def CleanStep (u : UnPacker) (call : Call) : Prop := call = .pushAndGet none ∨ (u.before call).CleanNow

/-- The invariant, for a vector of any size; the empty one stays as it is. -/
def Sound (u : UnPacker) : Prop := u.Inv ∨ u.capacity = 0 ∧ u.length = 0

theorem packs_of_empty {r : List (List UInt8) × UnPacker} (h0 : u.length = 0) (h : u.Packs r) :
    r = ([], u) := by
  unfold Packs at h
  cases hm : u.unpackerModel with rw [hm] at h
  | kNone => exact h
  | kHead | kHeadTail => exact KeysRun.unique h (KeysRun.done (Nat.le_of_eq h0))
  | kHeadTailCb =>
    obtain ⟨dc, -, h⟩ := h
    exact CbRun.unique h (CbRun.done (Nat.le_of_eq h0))

/-- What `GetPack` can do on such a ring. -/
theorem cleanNow_packs {r : List (List UInt8) × UnPacker} (hi : u.Inv) (hc : u.CleanNow) (h : u.Packs r) :
    r = ([], u) ∨ ∃ n, 0 < n ∧ n ≤ u.length ∧ r = ([u.content.take n], u.commit n) := by
  have keyed (hk : u.Keyed) (hc : u.Clean) :
      r = ([], u) ∨ ∃ n, 0 < n ∧ n ≤ u.length ∧ r = ([u.content.take n], u.commit n) := by
    have hr := h.unique (clean_call hk hi hc)
    have hh := List.length_pos_iff.2 (headKey_ne hk.model_ne)
    have hx := hk.extra_le
    cases hf : firstPacket u.headKey u.endKey u.content with
    | none => rw [hf] at hr; exact .inl hr
    | some p =>
      obtain ⟨o, e⟩ := p
      rw [hf] at hr
      obtain ⟨-, he⟩ := firstPacket_eq_some.1 hf
      have hb := first_bound hk.endKey_ne he
      have := ((first_eq_some hk.endKey_ne).1 he).1
      rw [RingBuffer.content_length] at hb
      exact .inr ⟨e + u.extra, by omega, by omega, hr⟩
  unfold CleanNow at hc
  cases hm : u.unpackerModel with rw [hm] at hc
  | kNone => unfold Packs at h; rw [hm] at h; exact .inl h
  | kHead => exact keyed (.inl hm) hc
  | kHeadTail => exact keyed (.inr hm) hc
  | kHeadTailCb =>
    obtain ⟨dc, hdc, hc⟩ := hc
    unfold Packs at h
    rw [hm] at h
    obtain ⟨dc', hdc', h⟩ := h
    rw [hdc] at hdc'
    cases hdc'
    exact cleanCb_call hi (headKey_ne (by rw [hm]; decide)) hc h

/-- A call appends what it accepts before it looks for packets. -/
theorem before_content (hi : u.Inv) (call : Call) :
    (u.before call).content = u.content ++ u.accepted call := by
  have hl := hi.length_le
  rcases call with (- | bytes) | -
  · exact (List.append_nil _).symm
  · simp only [before, accepted, hi.availableToWrite_eq]
    by_cases h : bytes.length ≠ 0 ∧ bytes.length ≤ u.capacity - u.length
    · rw [if_pos h, writeRing_content hi (by omega) (by rintro rfl; exact h.1 rfl)]
    · rw [if_neg h, List.append_nil, writeRing]
      show (u.write bytes).2.content = _
      rw [RingBuffer.write_eq hi]
      split
      · rfl
      · rw [if_neg (by omega)]
  · exact (List.append_nil _).symm

theorem Does.packs {call : Call} {o : List UInt8 × List (List UInt8)} (h : u.Does call o u')
    (hne : call ≠ .pushAndGet none) : (u.before call).Packs (o.2, u') := by
  rcases call with (- | bytes) | -
  · exact absurd rfl hne
  · exact pushes_iff.1 h.2
  · exact gets_iff.1 h.2

/-- Nothing is ever stored in an empty vector. -/
theorem before_of_empty (hcap : u.capacity = 0) (hlen : u.length = 0) (call : Call) :
    u.before call = u ∧ u.accepted call = [] := by
  have hw : u.availableToWrite = 0 := by
    unfold RingBuffer.availableToWrite; rw [hcap, hlen]; rfl
  rcases call with (- | bytes) | -
  · exact ⟨rfl, rfl⟩
  · constructor
    · have hsame : (u.write bytes).2 = u.toRingBuffer := by
        simp only [RingBuffer.write, hw]
        split
        · rfl
        · rw [if_pos (by omega)]
      show ({ u with toRingBuffer := (u.write bytes).2 } : UnPacker) = u
      rw [hsame]
    · simp only [accepted, hw]
      rw [if_neg (by rintro ⟨h1, h2⟩; exact h1 (Nat.le_zero.1 h2))]
  · exact ⟨rfl, rfl⟩

/-- One call: the packet, if there is one, is taken off the front of the bytes
stored before it and those it accepts. -/
theorem Does.slice {call : Call} {o : List UInt8 × List (List UInt8)} (hs : u.Sound) (hc : u.CleanStep call)
    (h : u.Does call o u') :
    u'.Sound ∧ ∃ n ≤ (u.content ++ o.1).length, u'.content = (u.content ++ o.1).drop n ∧
      (o.2 = [] ∧ n = 0 ∨ o.2 = [(u.content ++ o.1).take n] ∧ 0 < n) := by
  rw [h.1]
  by_cases hnull : call = .pushAndGet none
  · subst hnull
    obtain ⟨-, h2, rfl⟩ := h
    exact ⟨hs, 0, Nat.zero_le _, by simp [accepted], .inl ⟨h2, rfl⟩⟩
  have hp := h.packs hnull
  rcases hs with hi | ⟨hcap, hlen⟩
  · have hib : (u.before call).Inv := by
      rcases call with (- | bytes) | -
      exacts [hi, writeRing_inv hi bytes, hi]
    rw [← before_content hi call]
    rcases cleanNow_packs hib (hc.resolve_left hnull) hp with hr | ⟨n, h0, hn, hr⟩
    · obtain ⟨ho, rfl⟩ := Prod.ext_iff.1 hr
      exact ⟨.inl hib, 0, Nat.zero_le _, rfl, .inl ⟨ho, rfl⟩⟩
    · obtain ⟨ho, rfl⟩ := Prod.ext_iff.1 hr
      exact ⟨.inl (commit_inv hib n), n, by rwa [RingBuffer.content_length], commit_content hib hn,
        .inr ⟨ho, h0⟩⟩
  · obtain ⟨hbefore, hacc⟩ := before_of_empty hcap hlen call
    rw [hbefore] at hp
    obtain ⟨ho, rfl⟩ := Prod.ext_iff.1 (packs_of_empty hlen hp)
    rw [hacc, List.append_nil]
    exact ⟨.inr ⟨hcap, hlen⟩, 0, Nat.zero_le _, rfl, .inl ⟨ho, rfl⟩⟩

theorem slices_of_run {calls : List Call} {outs : List (List UInt8 × List (List UInt8))}
    (h : Trace (fun u call o u' => u.CleanStep call ∧ u.Does call o u') u calls outs u') (hs : u.Sound) :
    Slices (u.content ++ (outs.map (·.1)).flatten) 0 (outs.map (·.2)).flatten := by
  induction h with
  | nil u => trivial
  | @cons u u' u'' call o calls outs hd _ ih =>
    obtain ⟨hs', n, hn, hcont, ho⟩ := Does.slice hs hd.1 hd.2
    have ih := ih hs'
    simp only [List.map_cons, List.flatten_cons]
    rw [hcont, ← List.drop_append_of_le_length hn, List.append_assoc] at ih
    rcases ho with ⟨ho, rfl⟩ | ⟨ho, h0⟩
    · rw [ho]; exact ih
    · rw [ho]
      have hn' : n ≤ (u.content ++ (o.1 ++ (outs.map (·.1)).flatten)).length := by
        rw [← List.append_assoc, List.length_append]; omega
      refine ⟨0, Nat.zero_le _, n, hn', Nat.le_refl 0, h0, ?_, ih.of_drop hn'⟩
      rw [slice, List.drop_zero, ← List.append_assoc]
      exact List.take_append_of_le_length hn

/-- In every run of a new unpacker whose calls all take at most one packet, off the
front, the packets are disjoint slices of the accepted bytes, in stream order. -/
theorem packets_are_slices (headKey tailKey : List UInt8) (dc : Option DataSzCb)
    (cc : Option CheckValidCb) (c : Nat) (hc : c ≤ maxSize) (calls : List Call)
    (outs : List (List UInt8 × List (List UInt8))) (u' : UnPacker)
    (h : Trace (fun u call o u' => u.CleanStep call ∧ u.Does call o u')
      (createWithCallbacks headKey tailKey dc cc c hc) calls outs u') :
    Slices (outs.map (·.1)).flatten 0 (outs.map (·.2)).flatten := by
  refine slices_of_run h ?_
  by_cases h0 : 0 < c
  · exact .inl (create_inv _ _ _ _ hc h0)
  · obtain rfl : c = 0 := by omega
    exact .inr ⟨RingBuffer.ofSize_capacity hc, rfl⟩

section
variable (hk : u.Keyed) (hi : u.Inv) (hlin : u.Linear 0) (hs : NoShort u.headKey u.endKey u.extra u.content)
include hk hi hlin hs

/-- The one packet that is there is at the front: the call is clean and takes it. -/
theorem clean_packet {p : List UInt8} (e : Nat)
    (hf : firstPacket u.headKey u.endKey u.content = some (0, e))
    (hrest : firstPacket u.headKey u.endKey (u.content.drop (e + u.extra)) = none)
    (hp : u.content.take (e + u.extra) = p) : u.Clean ∧ u.Packs ([p], u.commit (e + u.extra)) := by
  have hclean := clean_of_linear hk hi hlin hs fun o e' he => by
    cases he.symm.trans hf
    exact ⟨rfl, fun o' ho' => no_end_of_no_packet (headKey_ne hk.model_ne) hk.endKey_ne hrest ho'⟩
  have hcall := clean_call hk hi hclean
  rw [hf] at hcall
  exact ⟨hclean, hp ▸ hcall⟩

/-- No packet is there. -/
theorem clean_nothing (hf : firstPacket u.headKey u.endKey u.content = none) :
    u.Clean ∧ u.Packs ([], u) := by
  have hclean := clean_of_linear hk hi hlin hs fun o e' he => nomatch he.symm.trans hf
  have hcall := clean_call hk hi hclean
  rw [hf] at hcall
  exact ⟨hclean, hcall⟩

end

/-- The theorem for the keys 1 and 2: a frame with the beginning of the next one behind it,
which is completed later, a null pointer, and calls that find nothing. -/
theorem packets_are_slices_two :
    ∃ u', Trace (fun u call o u' => u.CleanStep call ∧ u.Does call o u') oneTwo
      [.pushAndGet (some [1, 7, 2, 1]), .get, .pushAndGet (some [8, 2]), .pushAndGet none, .get]
      [([1, 7, 2, 1], [[1, 7, 2]]), ([], []), ([8, 2], [[1, 8, 2]]), ([], []), ([], [])] u' ∧
    Slices [1, 7, 2, 1, 8, 2] 0 [[1, 7, 2], [1, 8, 2]] := by
  have hi : oneTwo.Inv := create_inv _ _ _ _ _ (by decide)
  have hk : oneTwo.Keyed := .inr rfl
  let u₁ := (oneTwo.writeRing [1, 7, 2, 1]).commit 3
  let u₂ := (u₁.writeRing [8, 2]).commit 3
  have hi₁ : u₁.Inv := commit_inv (writeRing_inv hi _) 3
  have hk₁ : u₁.Keyed := (hk.writeRing [1, 7, 2, 1]).commit 3
  obtain ⟨hc₁, hp₁⟩ := clean_packet (hk.writeRing [1, 7, 2, 1]) (writeRing_inv hi _)
    (by show _ ≤ _; decide) (by decide) 2 (by decide) (by decide) (show _ = [1, 7, 2] by decide)
  obtain ⟨hc₂, hp₂⟩ := clean_nothing hk₁ hi₁ (by show _ ≤ _; decide) (by decide) (by decide)
  obtain ⟨hc₃, hp₃⟩ := clean_packet (hk₁.writeRing [8, 2]) (writeRing_inv hi₁ _)
    (by show _ ≤ _; decide) (by decide) 2 (by decide) (by decide) (show _ = [1, 8, 2] by decide)
  obtain ⟨hc₄, hp₄⟩ := clean_nothing ((hk₁.writeRing [8, 2]).commit 3) (commit_inv (writeRing_inv hi₁ _) 3)
    (by show _ ≤ _; decide) (by decide) (by decide)
  have h₁ : oneTwo.Does (.pushAndGet (some [1, 7, 2, 1])) ([1, 7, 2, 1], [[1, 7, 2]]) u₁ :=
    ⟨by decide, pushes_iff.2 hp₁⟩
  have h₂ : u₁.Does .get ([], []) u₁ := ⟨rfl, gets_iff.2 hp₂⟩
  have h₃ : u₁.Does (.pushAndGet (some [8, 2])) ([8, 2], [[1, 8, 2]]) u₂ := ⟨by decide, pushes_iff.2 hp₃⟩
  have h₄ : u₂.Does .get ([], []) u₂ := ⟨rfl, gets_iff.2 hp₄⟩
  have hrun : Trace (fun u call o u' => u.CleanStep call ∧ u.Does call o u') oneTwo
      [.pushAndGet (some [1, 7, 2, 1]), .get, .pushAndGet (some [8, 2]), .pushAndGet none, .get]
      [([1, 7, 2, 1], [[1, 7, 2]]), ([], []), ([8, 2], [[1, 8, 2]]), ([], []), ([], [])] u₂ :=
    .cons ⟨.inr hc₁, h₁⟩ <| .cons ⟨.inr hc₂, h₂⟩ <| .cons ⟨.inr hc₃, h₃⟩ <|
      .cons ⟨.inl rfl, rfl, rfl, rfl⟩ <| .cons ⟨.inr hc₄, h₄⟩ (.nil _)
  exact ⟨_, hrun, packets_are_slices [1] [2] none none 8 (by decide) _ _ _ hrun⟩

/-- Three bytes of junk before a frame: the frame is handed out, three bytes are
dropped, and the frame is handed out again. -/
theorem junk_redelivers :
    ¬ ∀ calls outs u', Trace Does oneTwo calls outs u' →
      Slices (outs.map (·.1)).flatten 0 (outs.map (·.2)).flatten := by
  intro hall
  have hplay : (play 3 oneTwo
      [.pushAndGet (some [9, 9, 9, 1, 2]), .get]).map (·.1) =
      .ok [([9, 9, 9, 1, 2], [[1, 2]]), ([], [[1, 2]])] := by decide
  obtain ⟨⟨outs, u'⟩, hr, he⟩ := map_ok hplay
  have hsl := hall _ outs u' (play_trace hr)
  rw [← show _ = outs from he] at hsl
  revert hsl
  decide

end NebulaToolkit.UnPacker
