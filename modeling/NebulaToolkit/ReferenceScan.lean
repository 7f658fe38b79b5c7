import NebulaToolkit.Decode
/-!
# One call against the reference scan

`Frames` cuts a byte string the way the modes without callbacks mean to: the
first head, the first end key behind it, and on with what follows. A call
counts `current_pos` from the front that its own commits move, so it takes the
same frames when there is at most one and it is at the front; and a search
that starts in fewer bytes than its key can find a key that is not there
(`Misled`).
-/

namespace NebulaToolkit.UnPacker

open Lib

variable {u u' v v' : UnPacker}

/-! ## A search in fewer bytes than its key -/

/-- The search starts in fewer bytes than the key has, runs over the whole array,
and does not come back with "not found": the key can be read at a place before
the array is gone round; or neither there nor at the front, and the loop has no
end or comes to a hit all the same. -/
def Misled (u : UnPacker) (key : List UInt8) (start : Nat) : Prop :=
  start < u.length ∧ key.length ≤ u.length ∧ u.length < start + key.length ∧
    ((∃ o, start ≤ o ∧ o < u.capacity ∧ u.ReadsAt key o) ∨
      ¬ OccursAt key u.content 0 ∧ (u.length + 1 = start + key.length ∨
        ∃ i, i + key.length ≤ 2 ^ 64 + (u.length - start) ∧ u.hit1 key start i = true))

section
variable {key : List UInt8} {start : Nat} (hi : u.Inv)
include hi

/-- Once round the array is the front again. -/
theorem readsAt_capacity (hk : key.length ≤ u.length) :
    u.ReadsAt key u.capacity ↔ OccursAt key u.content 0 := by
  have h := commit_readsAt hi (Nat.zero_le _) key 0
  rw [commit_zero hi, Nat.sub_zero, Nat.add_zero] at h
  rw [h, readsAt_iff (by omega)]

/-- A search in a short part that comes to a hit does not say "not found", when the front does not hold
the key. -/
theorem findKey_short_sees (hlin : u.Linear 0) (hst : start < u.length) (hk : key.length ≤ u.length)
    (hlt : u.length < start + key.length) (hf : ¬ OccursAt key u.content 0)
    (hhit : ∃ i, i ≤ 2 ^ 64 - (start + key.length - u.length) ∧ u.hit1 key start i = true) :
    u.findKey key start ≠ .ok u.capacity := by
  have hl := hi.length_le
  have hC := u.capacity_lt
  have hm := hlin.start_eq hst
  have hp : u.part1 start = u.length - start := hlin.part1 hst
  have h0 : key ≠ [] := List.ne_nil_of_length_pos (by omega)
  have hbound := findKey_short_bound hi (show u.part1 start < key.length by omega) hk
  obtain ⟨hle, hh⟩ := Nat.find_spec hhit
  have hmin : ∀ j < Nat.find hhit, u.hit1 key start j = false := by
    intro j hj
    by_contra hne
    exact Nat.find_min hhit hj ⟨by omega, by simpa using hne⟩
  have hfind : u.findKey key start = .ok (addSz start (Nat.find hhit)) := by
    rw [findKey_search hi h0 hst hk, hbound, scan_hit (by omega) (by omega) hh hmin]
    rfl
  rw [hfind]
  intro he
  -- The first hit is not a full turn away: there the front would be read again.
  have hfull : Nat.find hhit = u.capacity - start := by
    have he := Except.ok.inj he
    unfold addSz wadd at he
    omega
  rw [hfull] at hh
  rw [hit1_iff (by rw [hm]; unfold Linear at hlin; omega), Nat.add_sub_cancel' (by omega),
    readsAt_capacity hi hk] at hh
  exact hf hh

/-- One that comes to none says so, or has no end when it starts in one byte less than the key has. -/
theorem findKey_short_misses (hlin : u.Linear 0) (hst : start < u.length) (hk : key.length ≤ u.length)
    (hlt : u.length < start + key.length)
    (hno : ∀ i ≤ 2 ^ 64 - (start + key.length - u.length), u.hit1 key start i = false) :
    u.findKey key start = .ok u.capacity ↔ ¬ u.length + 1 = start + key.length := by
  have hp : u.part1 start = u.length - start := hlin.part1 hst
  have h0 : key ≠ [] := List.ne_nil_of_length_pos (by omega)
  have hbound := findKey_short_bound hi (show u.part1 start < key.length by omega) hk
  by_cases hone : u.length + 1 = start + key.length
  · rw [findKey_diverges hi hst hk (by omega) fun i hi' => hno i (by omega)]
    refine ⟨fun h => ?_, fun h => absurd hone h⟩
    cases h
  · have hscan : scan (2 ^ 64 - (key.length - u.part1 start)) (u.hit1 key start) = .ok none := by
      rcases scan_cases (show 2 ^ 64 - (key.length - u.part1 start) + 1 < 2 ^ 64 by omega)
        (u.hit1 key start) with
        ⟨i, hle, hh, -⟩ | ⟨-, hs⟩
      · rw [hno i (by omega)] at hh
        cases hh
      · exact hs
    have hfind : u.findKey key start = .ok u.capacity := by
      rw [findKey_search hi h0 hst hk, hbound, hscan]
      show u.search2 key start = _
      rw [search2, if_neg (by omega)]
    exact ⟨fun _ => hone, fun _ => hfind⟩

/-- A search in a short part, when nothing of the key can be read before the array is gone round nor at
the front. -/
theorem findKey_short_blind (hlin : u.Linear 0) (hst : start < u.length) (hk : key.length ≤ u.length)
    (hlt : u.length < start + key.length) (hf : ¬ OccursAt key u.content 0) :
    u.findKey key start = .ok u.capacity ↔ ¬ (u.length + 1 = start + key.length ∨
      ∃ i, i + key.length ≤ 2 ^ 64 + (u.length - start) ∧ u.hit1 key start i = true) := by
  have hl := hi.length_le
  have hC := u.capacity_lt
  rw [not_or]
  by_cases hhit : ∃ i, i ≤ 2 ^ 64 - (start + key.length - u.length) ∧ u.hit1 key start i = true
  · refine ⟨fun h => absurd h (findKey_short_sees hi hlin hst hk hlt hf hhit), fun h => ?_⟩
    obtain ⟨i, hle, hh⟩ := hhit
    exact absurd ⟨i, by omega, hh⟩ h.2
  · have hno : ∀ i ≤ 2 ^ 64 - (start + key.length - u.length), u.hit1 key start i = false := fun i hi' => by
      simpa using fun h => hhit ⟨i, hi', h⟩
    rw [findKey_short_misses hi hlin hst hk hlt hno, iff_self_and]
    rintro - ⟨i, hle, hh⟩
    rw [hno i (by omega)] at hh
    cases hh

/-- Where no occurrence is stored, the search says so unless it is misled. -/
theorem findKey_none_iff (hlin : u.Linear 0) (h0 : key ≠ []) (hnone : first key u.content start = none) :
    u.findKey key start = .ok u.capacity ↔ ¬ u.Misled key start := by
  by_cases hs : start < u.length ∧ key.length ≤ u.length ∧ u.length < start + key.length
  swap
  · have hsearch : u.SearchOk key start := hlin.searchOk h0 fun h₁ h₂ => by
      by_contra h₃
      exact hs ⟨h₁, h₂, by omega⟩
    have hok := findKey_ok hi h0 hsearch
    rw [hnone] at hok
    exact ⟨fun _ h => hs ⟨h.1, h.2.1, h.2.2.1⟩, fun _ => hok⟩
  obtain ⟨hst, hk, hlt⟩ := hs
  have hC := u.capacity_lt
  have hm := hlin.start_eq hst
  have hp : u.part1 start < key.length := by rw [hlin.part1 hst]; omega
  have hlin' := hlin
  unfold Linear at hlin'
  unfold Misled
  rw [and_iff_right hst, and_iff_right hk, and_iff_right hlt]
  by_cases hread : ∃ o, start ≤ o ∧ o < u.capacity ∧ u.ReadsAt key o
  · obtain ⟨o, hso, hoc, hro⟩ := hread
    obtain ⟨o', ho', -, hle, -⟩ := findKey_short hi hst hk hp (i := o - start) (by omega) (by omega)
      (by rwa [Nat.add_sub_cancel' hso])
    rw [ho']
    refine ⟨fun h => absurd (Except.ok.inj h) (by omega), fun h => absurd (.inl ⟨o, hso, hoc, hro⟩) h⟩
  rw [or_iff_right hread]
  by_cases hf : OccursAt key u.content 0
  · -- The front is found a full turn later, at the offset that means "not found".
    have hfull := findKey_short_hit hi hst hk hp (i := u.capacity - start) (by omega) (by omega)
      (by rw [Nat.add_sub_cancel' (by omega)]; exact (readsAt_capacity hi hk).2 hf)
      fun j hj hr => hread ⟨start + j, by omega, by omega, hr⟩
    rw [Nat.add_sub_cancel' (by omega)] at hfull
    exact ⟨fun _ h => h.1 hf, fun _ => hfull⟩
  · rw [and_iff_right hf]
    exact findKey_short_blind hi hlin hst hk hlt hf

end

/-! ## The reference -/

/-- The frames of a byte string, and what follows the last of them. -/
inductive Frames (headKey endKey : List UInt8) (extra : Nat) : List UInt8 → List (List UInt8) →
    List UInt8 → Prop
  | stop {xs} : firstPacket headKey endKey xs = none → Frames headKey endKey extra xs [] xs
  | frame {xs fs rest o e} : firstPacket headKey endKey xs = some (o, e) →
      Frames headKey endKey extra (xs.drop (e + extra)) fs rest →
      Frames headKey endKey extra xs ((xs.drop o).take (e + extra - o) :: fs) rest

section
variable {headKey endKey xs rest : List UInt8} {extra : Nat} {fs : List (List UInt8)}

/-- A byte string is cut in one way only ... -/
theorem Frames.unique (h : Frames headKey endKey extra xs fs rest) {fs' : List (List UInt8)}
    {rest' : List UInt8} (h' : Frames headKey endKey extra xs fs' rest') : fs = fs' ∧ rest = rest' := by
  induction h generalizing fs' with
  | stop hn =>
    cases h' with
    | stop => exact ⟨rfl, rfl⟩
    | frame hs => rw [hn] at hs; cases hs
  | frame hs _ ih =>
    cases h' with
    | stop hn => rw [hn] at hs; cases hs
    | frame hs' h' =>
      rw [hs] at hs'
      cases hs'
      obtain ⟨rfl, rfl⟩ := ih h'
      exact ⟨rfl, rfl⟩

theorem Frames.length_le (h : Frames headKey endKey extra xs fs rest) :
    fs.flatten.length + rest.length ≤ xs.length := by
  induction h with
  | stop => simp
  | frame hs _ ih =>
    simp only [List.flatten_cons, List.length_append, List.length_take, List.length_drop] at ih ⊢
    omega

variable (hh : headKey ≠ []) (he : endKey ≠ []) (hx : extra ≤ endKey.length)
include hh he hx

omit hh in
theorem firstPacket_bound {o e : Nat} (h : firstPacket headKey endKey xs = some (o, e)) :
    o + headKey.length ≤ e ∧ e + extra ≤ xs.length := by
  obtain ⟨-, h₂⟩ := firstPacket_eq_some.1 h
  obtain ⟨hoe, hocc, -⟩ := (first_eq_some he).1 h₂
  have := hocc.bound he
  omega

/-- ... and there is such a cut: each frame leaves fewer bytes. -/
theorem exists_frames (xs : List UInt8) : ∃ fs rest, Frames headKey endKey extra xs fs rest := by
  induction hn : xs.length using Nat.strong_induction_on generalizing xs with
  | h n ih =>
    cases hp : firstPacket headKey endKey xs with
    | none => exact ⟨[], xs, .stop hp⟩
    | some p =>
      obtain ⟨o, e⟩ := p
      have hb := firstPacket_bound he hx hp
      have hhp := List.length_pos_iff.2 hh
      obtain ⟨fs, rest, hf⟩ := ih _ (by rw [← hn, List.length_drop]; omega) (xs.drop (e + extra)) rfl
      exact ⟨_, rest, .frame hp hf⟩

omit hh in
/-- When the frames and what follows them are all there is, the first frame is at the front. -/
theorem Frames.front {f : List UInt8} (h : Frames headKey endKey extra xs (f :: fs) rest)
    (hlen : xs.length ≤ rest.length + (f :: fs).flatten.length) :
    ∃ e, firstPacket headKey endKey xs = some (0, e) ∧ f = xs.take (e + extra) ∧
      Frames headKey endKey extra (xs.drop (e + extra)) fs rest := by
  cases h with
  | @frame _ _ _ o e hs hf =>
    have hb := firstPacket_bound he hx hs
    have hle := hf.length_le
    simp only [List.flatten_cons, List.length_append, List.length_take, List.length_drop] at hlen hle
    obtain rfl : o = 0 := by omega
    exact ⟨e, hs, rfl, hf⟩

omit hx in
/-- The next frame found further on cannot be the one at the front: the tail would be found
before it, or the head stands on the tail of the frame, or there would be one more. -/
theorem keys_overlap {e₀ o e cur : Nat} (hfront : firstPacket headKey endKey xs = some (0, e₀))
    (hnone : firstPacket headKey endKey (xs.drop (e₀ + endKey.length)) = none) (hcur : 0 < cur)
    (ho : first headKey xs cur = some o) (hoe : first endKey xs (o + headKey.length) = some e)
    (hsize : e + endKey.length - o = e₀ + endKey.length) : ∃ b ∈ headKey, b ∈ endKey := by
  have hhp := List.length_pos_iff.2 hh
  have hep := List.length_pos_iff.2 he
  obtain ⟨hco, hocc, -⟩ := (first_eq_some hh).1 ho
  obtain ⟨hle, hocce, hmin⟩ := (first_eq_some he).1 hoe
  obtain ⟨-, he₀⟩ := firstPacket_eq_some.1 hfront
  obtain ⟨-, hocc₀, -⟩ := (first_eq_some he).1 he₀
  by_cases hbehind : e₀ + endKey.length ≤ o
  · -- A head and a tail behind the frame make a second frame.
    have hhead : first headKey (xs.drop (e₀ + endKey.length)) (o - (e₀ + endKey.length)) =
        some (o - (e₀ + endKey.length)) := by
      rw [first_drop hh, Nat.add_sub_cancel' hbehind]
      exact (first_eq_some hh).2 ⟨Nat.le_refl o, hocc, fun j h₁ h₂ => by omega⟩
    have hno := (first_eq_none he).1 (no_end_of_no_packet hh he hnone hhead) (e - (e₀ + endKey.length))
      (by omega)
    rw [occursAt_drop, Nat.add_sub_cancel' (by omega)] at hno
    exact absurd hocce hno
  by_cases hinside : o + headKey.length ≤ e₀
  · exact absurd hocc₀ (hmin e₀ hinside (by omega))
  · -- The head's bytes and the tail's meet at the later of their starts.
    have h₁ := occursAt_iff.1 hocc (max o e₀ - o) (by omega)
    have h₂ := occursAt_iff.1 hocc₀ (max o e₀ - e₀) (by omega)
    rw [Nat.add_sub_cancel' (Nat.le_max_left _ _)] at h₁
    rw [Nat.add_sub_cancel' (Nat.le_max_right _ _), h₁, List.getElem?_eq_getElem (by omega)] at h₂
    exact ⟨_, List.getElem_mem _, List.mem_of_getElem? h₂.symm⟩

omit he hx in
/-- Where a packet ends at the next head, the one found further on ends too late. -/
theorem heads_apart {m o e cur : Nat} (hfront : firstPacket headKey headKey xs = some (0, m))
    (hnone : firstPacket headKey headKey (xs.drop m) = none) (hcur : headKey.length ≤ cur)
    (ho : first headKey xs cur = some o) (hoe : first headKey xs (o + headKey.length) = some e) :
    e - o ≠ m := by
  intro hsize
  obtain ⟨hco, hocc, -⟩ := (first_eq_some hh).1 ho
  obtain ⟨hle, hocce, -⟩ := (first_eq_some hh).1 hoe
  obtain ⟨-, he₀⟩ := firstPacket_eq_some.1 hfront
  have hhead := first_drop_self hh he₀
  have hno := (first_eq_none hh).1 (no_end_of_no_packet hh hh hnone hhead) (e - m) (by omega)
  rw [occursAt_drop, Nat.add_sub_cancel' (by omega)] at hno
  exact hno hocce

end

/-! ## Passes of the loop -/

/-- No more is dropped off the front than the packets handed out are long. -/
theorem KeysRun.length_le {endKey : List UInt8} {extra cur total : Nat} {rd : List (List UInt8)}
    {r : List (List UInt8) × UnPacker} (hi : u.Inv) (h : KeysRun endKey extra u cur total rd r) :
    u.length + rd.flatten.length ≤ r.2.length + r.1.flatten.length := by
  obtain ⟨fuel, h⟩ := h
  induction fuel generalizing u cur rd with
  | zero => cases h
  | succ fuel ih =>
    rcases processKeys_cases h with ⟨rfl, -⟩ | ⟨o, e, p, -, -, -, -, -, hp, h⟩
    · exact Nat.le_refl _
    · have hrec := ih (commit_inv hi _) h
      have hsize := copyPacket_length hi hp
      have hdrop := commit_length_ge hi (subSz (addSz e extra) o)
      rw [List.flatten_append, List.length_append, List.flatten_singleton] at hrec
      omega

/-- What the search for a head from `cur` on gives: the first stored one, or a place behind
which no end key is looked for. -/
def HeadFound (u : UnPacker) (cur o : Nat) : Prop :=
  u.findKey u.headKey cur = .ok o ∧ (first u.headKey u.content cur = some o ∨
    first u.headKey u.content cur = none ∧
      (o = u.capacity ∨ u.length < o + u.headKey.length ∧ o + u.headKey.length < 2 ^ 64))

section
variable {cur total o : Nat} {rd fs : List (List UInt8)} {f : List UInt8} (hk : u.Keyed) (hi : u.Inv)
include hk hi

theorem headFound_front (hlin : u.Linear 0) : ∃ o, u.HeadFound 0 o := by
  have hh := headKey_ne hk.model_ne
  have hsearch : u.SearchOk u.headKey 0 := hlin.searchOk hh fun _ hle => by omega
  have hok := findKey_ok hi hh hsearch
  refine ⟨_, hok, ?_⟩
  cases first u.headKey u.content 0 with
  | none => exact .inr ⟨rfl, .inl rfl⟩
  | some o => exact .inl rfl

theorem headFound_behind (hlin : u.Linear 0) (hf : u.Findable u.headKey) (cur : Nat) :
    ∃ o, u.HeadFound cur o := by
  have hh := headKey_ne hk.model_ne
  have hhp := List.length_pos_iff.2 hh
  have hC := u.capacity_lt
  by_cases hg : u.length < u.headKey.length ∨ u.length ≤ cur
  · refine ⟨_, findKey_refused (.inr hg), .inr ⟨(first_eq_none hh).2 fun i hs hocc => ?_, .inl rfl⟩⟩
    have hb := hocc.bound hh
    rw [RingBuffer.content_length] at hb
    omega
  simp only [not_or, Nat.not_lt, Nat.not_le] at hg
  obtain ⟨d, hld, hdc, hw, hrd⟩ := hf
  have hm := hlin.start_eq (show cur < u.length by omega)
  obtain ⟨o, ho, hle, -, hc⟩ := findKey_after hi hh (fun _ => hlin.unbroken hh) (i := d - cur)
    (by rw [hm]; omega) (by omega) (fun _ => by rwa [Nat.add_sub_cancel' (by omega)])
  exact ⟨o, ho, hc.imp_right fun ⟨hn, hc⟩ => ⟨hn, hc.imp_right fun hb => ⟨hb, by omega⟩⟩⟩

omit hk in
/-- A stored head leaves room for the offset behind it. -/
theorem HeadFound.add_eq (hh : u.headKey ≠ []) (hf : first u.headKey u.content cur = some o) :
    o + u.headKey.length ≤ u.length ∧ o ≠ u.capacity ∧ addSz o u.headKey.length = o + u.headKey.length := by
  have hb := first_bound hh hf
  have hhp := List.length_pos_iff.2 hh
  have hl := hi.length_le
  have hC := u.capacity_lt
  rw [RingBuffer.content_length] at hb
  exact ⟨hb, by omega, wadd_of_lt (by omega)⟩

/-- A pass that finds no packet: the loop ends there unless the search for the end key is misled. -/
theorem pass_none_iff (hlin : u.Linear 0) (ho : u.HeadFound cur o) (htotal : total ≤ cur → u.length ≤ cur)
    (hnone : ∀ o, first u.headKey u.content cur = some o →
      first u.endKey u.content (o + u.headKey.length) = none) :
    KeysRun u.endKey u.extra u cur total rd (rd, u') ↔
      u' = u ∧ ∀ o, first u.headKey u.content cur = some o → ¬ u.Misled u.endKey (o + u.headKey.length) := by
  have hh := headKey_ne hk.model_ne
  obtain ⟨hfind, hwhere⟩ := ho
  constructor
  · intro hrun
    rcases hrun.cases with ⟨heq, hstop⟩ | ⟨_, _, p, -, -, -, -, -, -, h⟩
    · refine ⟨(Prod.ext_iff.1 heq).2, fun o' ho' => ?_⟩
      obtain ⟨hb, hne, hadd⟩ := HeadFound.add_eq hi hh ho'
      have hco := ((first_eq_some hh).1 ho').1
      have hhp := List.length_pos_iff.2 hh
      obtain rfl : o = o' := by
        rcases hwhere with h | ⟨h, -⟩ <;> rw [ho'] at h <;> cases h
        rfl
      rcases hstop with h | h | ⟨o', h, -, he⟩
      · have := htotal h
        omega
      · rw [hfind] at h
        exact absurd (Except.ok.inj h) hne
      · rw [hfind] at h
        cases h
        rw [hadd] at he
        exact (findKey_none_iff hi hlin hk.endKey_ne (hnone o ho')).1 he
    · have hle := h.adds.length_le
      rw [List.length_append, List.length_singleton] at hle
      exact absurd hle (Nat.not_succ_le_self _)
  · rintro ⟨rfl, hquiet⟩
    rcases hwhere with hf | ⟨hf, rfl | ⟨hb, hw⟩⟩
    · obtain ⟨hb, hne, hadd⟩ := HeadFound.add_eq hi hh hf
      refine KeysRun.noEnd hfind ?_
      rw [hadd]
      exact (findKey_none_iff hi hlin hk.endKey_ne (hnone o hf)).2 (hquiet o hf)
    · exact KeysRun.noHead hfind
    · refine KeysRun.stop hfind hw ?_
      exact findKey_refused (.inr (.inr (Nat.le_of_lt hb)))

/-- A pass that hands out a packet. -/
theorem pass_packet (ho : u.HeadFound cur o)
    (hs : ∀ o, first u.headKey u.content cur = some o → u.SearchOk u.endKey (o + u.headKey.length))
    (h : KeysRun u.endKey u.extra u cur total rd (rd ++ f :: fs, u')) :
    ∃ o e, first u.headKey u.content cur = some o ∧ first u.endKey u.content (o + u.headKey.length) = some e ∧
      f = (u.content.drop o).take (e + u.extra - o) ∧
      KeysRun u.endKey u.extra (u.commit (e + u.extra - o)) (e + u.extra) total (rd ++ [f])
      (rd ++ f :: fs, u') := by
  have hh := headKey_ne hk.model_ne
  have hl := hi.length_le
  have hC := u.capacity_lt
  obtain ⟨hfind, hwhere⟩ := ho
  rcases h.cases with ⟨heq, -⟩ | ⟨o', e', p, hlt, ho', hone, he', hne, hp, h⟩
  · have := congrArg (List.length ∘ Prod.fst) heq
    simp at this
  rw [hfind] at ho'
  cases ho'
  rcases hwhere with hf | ⟨hf, rfl | ⟨hb, hw⟩⟩
  · obtain ⟨hb, -, hadd⟩ := HeadFound.add_eq hi hh hf
    have hend := findKey_ok hi hk.endKey_ne (hs o hf)
    rw [hadd, hend] at he'
    cases hfe : first u.endKey u.content (o + u.headKey.length) with
    | none =>
      rw [hfe] at he'
      exact absurd (Except.ok.inj he').symm hne
    | some e =>
      rw [hfe] at he'
      cases he'
      have hbe := first_bound hk.endKey_ne hfe
      have hle := ((first_eq_some hk.endKey_ne).1 hfe).1
      have hx := hk.extra_le
      rw [RingBuffer.content_length] at hbe
      have hhp := List.length_pos_iff.2 hh
      have hsum : addSz e u.extra = e + u.extra := wadd_of_lt (by omega)
      have hsize : subSz (e + u.extra) o = e + u.extra - o := wsub_of_le (by omega) (by omega)
      simp only [Option.getD_some, hsum, hsize] at h hp
      rw [copyPacket_eq hi (by omega) (by omega)] at hp
      cases hp
      have hadds := h.adds
      rw [List.prefix_append_right_inj] at hadds
      obtain ⟨rfl, -⟩ := List.cons_prefix_cons.1 hadds
      exact ⟨o, e, hf, hfe, rfl, h⟩
  · exact absurd rfl hone
  · rw [show addSz o u.headKey.length = _ from wadd_of_lt hw,
      findKey_refused (.inr (.inr (Nat.le_of_lt hb)))] at he'
    exact absurd (Except.ok.inj he').symm hne

end

end NebulaToolkit.UnPacker
