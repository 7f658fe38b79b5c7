import NebulaToolkit.ReferenceScan
/-!
# When a call is complete

In the two modes without callbacks a call hands out all frames of the reference
scan, and keeps what follows them, exactly when there is at most one frame, it
is at the front, and no search is misled. With more frames it fails: behind the
first one the loop goes on at an offset counted from the old front.
-/

namespace NebulaToolkit.UnPacker

open Lib

variable {u u' : UnPacker}

/-! ## At most one frame -/

section
variable {rest f : List UInt8} {fs : List (List UInt8)} {e : Nat} (hk : u.Keyed) (hi : u.Inv)
    (hlin : u.Linear 0)
include hk hi hlin

/-- A call on bytes that hold no frame. -/
theorem gets_nil_iff (hnone : firstPacket u.headKey u.endKey u.content = none) :
    u.Gets [] u' ↔ u' = u ∧ ∀ o, first u.headKey u.content 0 = some o →
    ¬ u.Misled u.endKey (o + u.headKey.length) := by
  obtain ⟨o, ho⟩ := headFound_front hk hi hlin
  rw [gets_iff, hk.packs_iff]
  exact pass_none_iff hk hi hlin ho id fun o ho =>
    no_end_of_no_packet (headKey_ne hk.model_ne) hk.endKey_ne hnone ho

omit hlin in
/-- The head of a frame at the front is still in the array when the frame is dropped. -/
theorem findable_front (hp : firstPacket u.headKey u.endKey u.content = some (0, e)) :
    e + u.extra ≤ u.length ∧ u.headKey.length ≤ e ∧ (u.commit (e + u.extra)).Findable u.headKey := by
  have hh := headKey_ne hk.model_ne
  obtain ⟨hhe, hle⟩ := firstPacket_bound hk.endKey_ne hk.extra_le hp
  rw [RingBuffer.content_length] at hle
  have hocc := ((first_eq_some hh).1 (firstPacket_eq_some.1 hp).1).2.1
  exact ⟨hle, by omega, findable_dropped hi hle hocc (by omega)⟩

/-- The pass over what is behind a frame at the front, when that holds no frame. -/
theorem behind_iff (hp : firstPacket u.headKey u.endKey u.content = some (0, e))
    (hrest : firstPacket u.headKey u.endKey (u.content.drop (e + u.extra)) = none) {rd : List (List UInt8)} :
    KeysRun u.endKey u.extra (u.commit (e + u.extra)) (e + u.extra) u.length rd (rd, u') ↔
    u' = u.commit (e + u.extra) ∧
      ∀ o, first u.headKey (u.content.drop (e + u.extra)) (e + u.extra) = some o →
        ¬ (u.commit (e + u.extra)).Misled u.endKey (o + u.headKey.length) := by
  obtain ⟨hle, -, hfind⟩ := findable_front hk hi hp
  obtain ⟨o, ho⟩ :=
    headFound_behind (hk.commit (e + u.extra)) (commit_inv hi _) (hlin.commit hi hle) hfind (e + u.extra)
  rw [← commit_content hi hle] at hrest ⊢
  refine pass_none_iff (hk.commit (e + u.extra)) (commit_inv hi _) (hlin.commit hi hle) ho (fun htotal => ?_)
    fun o ho => no_end_of_no_packet (headKey_ne hk.model_ne) hk.endKey_ne hrest ho
  rw [commit_length hi hle]
  omega

/-- A call on bytes with a frame at the front and no other. -/
theorem gets_front_iff (hp : firstPacket u.headKey u.endKey u.content = some (0, e))
    (hrest : firstPacket u.headKey u.endKey (u.content.drop (e + u.extra)) = none) :
    u.Gets [f] u' ↔ f = u.content.take (e + u.extra) ∧ u' = u.commit (e + u.extra) ∧
      ∀ o, first u.headKey (u.content.drop (e + u.extra)) (e + u.extra) = some o →
        ¬ (u.commit (e + u.extra)).Misled u.endKey (o + u.headKey.length) := by
  obtain ⟨hhead, hend⟩ := firstPacket_eq_some.1 hp
  have hh := headKey_ne hk.model_ne
  have hep := List.length_pos_iff.2 hk.endKey_ne
  have hbe := first_bound hk.endKey_ne hend
  have hle := ((first_eq_some hk.endKey_ne).1 hend).1
  have hx := hk.extra_le
  rw [RingBuffer.content_length] at hbe
  have hsearch : u.SearchOk u.endKey (0 + u.headKey.length) := hlin.searchOk hk.endKey_ne fun _ _ => by omega
  have hbehind : KeysRun _ _ _ _ _ [f] ([f], u') ↔ _ := behind_iff hk hi hlin hp hrest
  rw [gets_iff, hk.packs_iff]
  constructor
  · intro hrun
    obtain ⟨o, ho⟩ := headFound_front hk hi hlin
    rw [← List.nil_append [f]] at hrun
    obtain ⟨o, e', hf, hfe, rfl, hrun⟩ := pass_packet hk hi ho
      (fun o' ho' => by rw [hhead] at ho'; cases ho'; exact hsearch) hrun
    rw [hhead] at hf
    cases hf
    rw [hend] at hfe
    cases hfe
    exact ⟨rfl, hbehind.1 hrun⟩
  · rintro ⟨rfl, hquiet⟩
    obtain ⟨o, hfind, hwhere⟩ := headFound_front hk hi hlin
    have hfirst := findKey_ok hi hh (hlin.searchOk hh fun _ hle => by omega : u.SearchOk u.headKey 0)
    have hsecond := findKey_ok hi hk.endKey_ne hsearch
    rw [hhead] at hfirst
    rw [hend] at hsecond
    exact KeysRun.take hi (by omega) hfirst hsecond hle (show e < _ by omega) (show e + _ ≤ _ by omega)
      (hbehind.2 hquiet)

end

/-! ## More than one frame -/

/-- No head key is followed by at least one but fewer bytes than the end key has. -/
def Unshort (u : UnPacker) : Prop := ∀ start, ¬ Short u.headKey u.endKey u.content start

theorem Unshort.searchOk (hs : u.Unshort) (hlin : u.Linear 0) (he : u.endKey ≠ []) {cur o : Nat}
    (ho : first u.headKey u.content cur = some o) : u.SearchOk u.endKey (o + u.headKey.length) := by
  refine hlin.searchOk he fun h₁ h₂ => ?_
  by_contra hlt
  refine hs cur ⟨o, ho, ?_⟩
  rw [RingBuffer.content_length]
  omega

theorem Unshort.commit (hs : u.Unshort) (hi : u.Inv) (hh : u.headKey ≠ []) {n : Nat} (hn : n ≤ u.length) :
    (u.commit n).Unshort := by
  rintro start ⟨o, ho, h₁, h₂, h₃⟩
  simp only [commit_headKey, commit_endKey, commit_content hi hn, Option.mem_def,
    List.length_drop] at ho h₁ h₂ h₃
  rw [first_drop hh] at ho
  exact hs (n + start) ⟨n + o, ho, by omega, by omega, by omega⟩

theorem Findable.commit {key : List UInt8} (hf : u.Findable key) (hi : u.Inv) {n : Nat} (hn : n ≤ u.length) :
    (u.commit n).Findable key := by
  obtain ⟨d, hld, hdc, hw, hr⟩ := hf
  have hread : (u.commit n).readIndex ≤ u.readIndex + n := by
    rw [commit_ring hi hn]
    exact Nat.mod_le _ _
  refine ⟨d - n, ?_, ?_, ?_, fun j hj => ?_⟩
  · rw [commit_length hi hn]
    omega
  · rw [commit_capacity]
    omega
  · omega
  · rw [commit_cellAt hi hn, ← Nat.add_assoc, Nat.add_sub_cancel' (by omega)]
    exact hr j hj

/-- The two keys of a packet are one key or share no byte. -/
def KeysApart (u : UnPacker) : Prop := u.unpackerModel = .kHead ∨ ∀ b ∈ u.headKey, b ∉ u.endKey

/-- The packet found further on is not the frame at the front, when that is the last one. -/
theorem not_last_frame (hk : u.Keyed) (hkeys : u.KeysApart) {xs : List UInt8} {e₀ o e cur : Nat}
    (hfront : firstPacket u.headKey u.endKey xs = some (0, e₀))
    (hnone : firstPacket u.headKey u.endKey (xs.drop (e₀ + u.extra)) = none) (hcur : u.headKey.length ≤ cur)
    (ho : first u.headKey xs cur = some o) (hoe : first u.endKey xs (o + u.headKey.length) = some e) :
    (xs.drop o).take (e + u.extra - o) ≠ xs.take (e₀ + u.extra) := by
  intro heq
  have hh := headKey_ne hk.model_ne
  have hhp := List.length_pos_iff.2 hh
  obtain ⟨-, hb₀⟩ := firstPacket_bound hk.endKey_ne hk.extra_le hfront
  have hbe := first_bound hk.endKey_ne hoe
  have hsize := congrArg List.length heq
  rw [List.length_take, List.length_take, List.length_drop] at hsize
  rcases hk with hm | hm
  · rw [endKey_head hm] at hfront hnone hoe
    rw [extra_head hm] at hnone hsize hb₀
    rw [Nat.add_zero] at hnone
    exact heads_apart hh hfront hnone hcur ho hoe (by omega)
  · have hextra : u.extra = u.endKey.length := by rw [extra_tail hm, endKey_tail hm]
    have hkeys : ∀ b ∈ u.headKey, b ∉ u.endKey := hkeys.resolve_left (by rw [hm]; decide)
    have hend : u.endKey ≠ [] := Keyed.endKey_ne (.inr hm)
    rw [hextra] at hnone hsize hb₀
    obtain ⟨b, hb, hb'⟩ := keys_overlap hh hend hfront hnone (by omega) ho hoe (by omega)
    exact hkeys b hb hb'

/-- When a pass from an offset behind the front hands out the frame at the front, it drops that
frame and goes on from an offset behind the front; and there is another frame to come. -/
theorem pass_front {fs : List (List UInt8)} {f rest : List UInt8} {cur total : Nat}
    {rd : List (List UInt8)} (hk : u.Keyed) (hkeys : u.KeysApart) (hi : u.Inv) (hlin : u.Linear 0)
    (hs : u.Unshort) (hfind : u.Findable u.headKey) (hcur : u.headKey.length ≤ cur)
    (hf : Frames u.headKey u.endKey u.extra u.content (f :: fs) rest) (hrest : u'.content = rest)
    (hrun : KeysRun u.endKey u.extra u cur total rd (rd ++ f :: fs, u')) :
    fs ≠ [] ∧ ∃ n cur', n ≤ u.length ∧ u.headKey.length ≤ cur' ∧
      Frames u.headKey u.endKey u.extra (u.content.drop n) fs rest ∧
      KeysRun u.endKey u.extra (u.commit n) cur' total (rd ++ [f]) (rd ++ f :: fs, u') := by
  have hlen := hrun.length_le hi
  rw [List.flatten_append, List.length_append, ← RingBuffer.content_length, ← RingBuffer.content_length,
    hrest] at hlen
  obtain ⟨e₀, hfront, hf₀, hframes⟩ := hf.front hk.endKey_ne hk.extra_le (by omega)
  obtain ⟨o₁, ho₁⟩ := headFound_behind hk hi hlin hfind cur
  obtain ⟨o, e, ho, hoe, hfe, hrun'⟩ :=
    pass_packet hk hi ho₁ (fun o ho => hs.searchOk hlin hk.endKey_ne ho) hrun
  have hle := ((first_eq_some hk.endKey_ne).1 hoe).1
  have hbe := first_bound hk.endKey_ne hoe
  have hx := hk.extra_le
  obtain ⟨-, hb₀⟩ := firstPacket_bound hk.endKey_ne hk.extra_le hfront
  have hsize := congrArg List.length (hfe.symm.trans hf₀)
  rw [List.length_take, List.length_take, List.length_drop] at hsize
  rw [show e + u.extra - o = e₀ + u.extra by omega] at hrun'
  rw [RingBuffer.content_length] at hb₀
  refine ⟨?_, e₀ + u.extra, e + u.extra, hb₀, by omega, hframes, hrun'⟩
  rintro rfl
  cases hframes with
  | stop hnone => exact not_last_frame hk hkeys hfront hnone hcur ho hoe (hfe.symm.trans hf₀)

/-- So from there the loop cannot hand out all the frames. The induction is on the frames. -/
theorem behind_fails {fs : List (List UInt8)} {f rest : List UInt8} {cur total : Nat}
    {rd : List (List UInt8)} (hk : u.Keyed) (hkeys : u.KeysApart) (hi : u.Inv) (hlin : u.Linear 0)
    (hs : u.Unshort) (hfind : u.Findable u.headKey) (hcur : u.headKey.length ≤ cur)
    (hf : Frames u.headKey u.endKey u.extra u.content (f :: fs) rest) (hrest : u'.content = rest) :
    ¬ KeysRun u.endKey u.extra u cur total rd (rd ++ f :: fs, u') := by
  induction fs generalizing u f cur rd with
  | nil => exact fun hrun => (pass_front hk hkeys hi hlin hs hfind hcur hf hrest hrun).1 rfl
  | cons g fs ih =>
    intro hrun
    obtain ⟨-, n, cur', hn, hcur', hframes, hrun'⟩ := pass_front hk hkeys hi hlin hs hfind hcur hf hrest hrun
    rw [← commit_content hi hn] at hframes
    rw [List.append_cons rd f (g :: fs)] at hrun'
    exact ih (hk.commit n) hkeys (commit_inv hi n) (hlin.commit hi hn)
      (hs.commit hi (headKey_ne hk.model_ne) hn)
      (hfind.commit hi hn) hcur' hframes hrun'

/-- A call does not hand out two frames or more. -/
theorem many_fail {fs : List (List UInt8)} {f g rest : List UInt8} (hk : u.Keyed) (hkeys : u.KeysApart)
    (hi : u.Inv) (hlin : u.Linear 0) (hs : u.Unshort)
    (hf : Frames u.headKey u.endKey u.extra u.content (f :: g :: fs) rest)
    (hrest : u'.content = rest) : ¬ u.Gets (f :: g :: fs) u' := by
  intro hgets
  have hrun := hk.packs_iff.1 (gets_iff.1 hgets)
  have hlen := hrun.length_le hi
  rw [List.flatten_nil, List.length_nil, ← RingBuffer.content_length, ← RingBuffer.content_length,
    hrest] at hlen
  obtain ⟨e₀, hfront, hf₀, hframes⟩ := hf.front hk.endKey_ne hk.extra_le (by omega)
  obtain ⟨hn, hcur, hfind⟩ := findable_front hk hi hfront
  obtain ⟨o₁, ho₁⟩ := headFound_front hk hi hlin
  rw [← List.nil_append (f :: g :: fs)] at hrun
  obtain ⟨o, e, ho, hoe, -, hrun'⟩ :=
    pass_packet hk hi ho₁ (fun o ho => hs.searchOk hlin hk.endKey_ne ho) hrun
  obtain ⟨hhead, hend⟩ := firstPacket_eq_some.1 hfront
  rw [hhead] at ho
  cases ho
  rw [hend] at hoe
  cases hoe
  rw [← commit_content hi hn] at hframes
  rw [List.append_cons [] f (g :: fs)] at hrun'
  exact behind_fails (hk.commit _) hkeys (commit_inv hi _) (hlin.commit hi hn)
    (hs.commit hi (headKey_ne hk.model_ne) hn) hfind
    (Nat.le_add_right_of_le hcur) hframes hrest hrun'

/-! ## Complete calls -/

/-- Behind the first frame there is none. -/
def OneFrame (u : UnPacker) : Prop :=
  ∀ p ∈ firstPacket u.headKey u.endKey u.content,
    firstPacket u.headKey u.endKey (u.content.drop (p.2 + u.extra)) = none

/-- A head and a tail key: the call hands out the frames of the reference and keeps what follows
the last of them; or, where there is none, all the bytes or those from the first head on. -/
def HeadTailComplete (u : UnPacker) : Prop :=
  ∃ fs rest u', Frames u.headKey u.tailKey u.tailKey.length u.content fs rest ∧ u.Gets fs u' ∧
    (u'.content = rest ∨ fs = [] ∧ ∃ o, first u.headKey rest 0 = some o ∧ u'.content = rest.drop o)

/-- A head key only: the call hands out what lies between the heads of the reference and keeps
the bytes from the last head on. -/
def HeadComplete (u : UnPacker) : Prop :=
  ∃ fs rest u', Frames u.headKey u.headKey 0 u.content fs rest ∧ u.Gets fs u' ∧
    ∀ o, first u.headKey rest 0 = some o → u'.content = rest.drop o

/-- The frame, if there is one, is at the front; and the search for the tail of an unfinished
frame, there or behind it, is not misled. -/
structure FrontFrame (u : UnPacker) : Prop where
  front : ∀ p ∈ firstPacket u.headKey u.endKey u.content, p.1 = 0
  unfinished : firstPacket u.headKey u.endKey u.content = none → ∀ o, first u.headKey u.content 0 = some o →
    ¬ u.Misled u.endKey (o + u.headKey.length)
  behind : ∀ e, firstPacket u.headKey u.endKey u.content = some (0, e) →
    ∀ o, first u.headKey (u.content.drop (e + u.extra)) (e + u.extra) = some o →
      ¬ (u.commit (e + u.extra)).Misled u.endKey (o + u.headKey.length)

/-- The first head is at the front, and if it is the only one, the search for the next one is not misled. -/
def FrontHead (u : UnPacker) : Prop :=
  ∀ o, first u.headKey u.content 0 = some o → o = 0 ∧
    (firstPacket u.headKey u.headKey u.content = none → ¬ u.Misled u.headKey u.headKey.length)

section
variable {rest : List UInt8} {fs : List (List UInt8)} (hk : u.Keyed) (hi : u.Inv)

include hk hi in
/-- With at most one frame, a call that hands out the frames and keeps what follows has found it at the
front. -/
theorem OneFrame.frames (hone : u.OneFrame) (hf : Frames u.headKey u.endKey u.extra u.content fs rest)
    (hg : u.Gets fs u') (hc : fs ≠ [] → u'.content = rest) :
    firstPacket u.headKey u.endKey u.content = none ∧ fs = [] ∧ rest = u.content ∨
    ∃ e, firstPacket u.headKey u.endKey u.content = some (0, e) ∧
      firstPacket u.headKey u.endKey (u.content.drop (e + u.extra)) = none ∧
      fs = [u.content.take (e + u.extra)] := by
  cases hf with
  | stop hnone => exact .inl ⟨hnone, rfl, rfl⟩
  | @frame _ fs _ o e hs hf' =>
    have hnone := hone _ hs
    have hlen := (hk.packs_iff.1 (gets_iff.1 hg)).length_le hi
    rw [List.flatten_nil, List.length_nil, ← RingBuffer.content_length, ← RingBuffer.content_length,
      hc (List.cons_ne_nil _ _)] at hlen
    obtain ⟨e', hfront, hf₀, -⟩ := (Frames.frame hs hf').front hk.endKey_ne hk.extra_le (by omega)
    rw [hs] at hfront
    cases hfront
    cases hf' with
    | stop _ => exact .inr ⟨e, hs, hnone, rfl⟩
    | frame hs' _ => rw [hnone] at hs'; cases hs'

theorem frames_of_many (hmany : ¬ u.OneFrame) (hf : Frames u.headKey u.endKey u.extra u.content fs rest) :
    ∃ f g fs', fs = f :: g :: fs' := by
  cases hf with
  | stop hnone => exact absurd (fun p hp => by rw [hnone] at hp; cases hp) hmany
  | frame hs hf =>
    cases hf with
    | stop hnone => exact absurd (fun p hp => by rw [hs] at hp; cases hp; exact hnone) hmany
    | frame _ _ => exact ⟨_, _, _, rfl⟩

/-- Behind the last packet between two heads stands the second of them. -/
theorem Frames.head_rest {headKey xs : List UInt8} (hh : headKey ≠ [])
    (hf : Frames headKey headKey 0 xs fs rest) (hne : fs ≠ []) : first headKey rest 0 = some 0 := by
  induction hf with
  | stop => exact absurd rfl hne
  | @frame xs fs rest o e hs hf ih =>
    cases hf with
    | stop _ => exact first_drop_self hh (firstPacket_eq_some.1 hs).2
    | frame _ _ => exact ih (List.cons_ne_nil _ _)

end

section
variable (hm : u.unpackerModel = .kHeadTail) (hi : u.Inv) (hlin : u.Linear 0)
include hm hi hlin

/-- With at most one frame. -/
theorem head_tail_one (hone : u.OneFrame) : u.HeadTailComplete ↔ u.FrontFrame := by
  have hk : u.Keyed := .inr hm
  unfold HeadTailComplete
  rw [← extra_tail hm, ← endKey_tail hm]
  constructor
  · rintro ⟨fs, rest, u', hf, hg, hc⟩
    rcases hone.frames hk hi hf hg (fun hne => hc.resolve_right fun h => hne h.1) with
      ⟨hnone, rfl, -⟩ | ⟨e, hp, hnone, rfl⟩
    · refine ⟨fun p hp => ?_, fun _ => ((gets_nil_iff hk hi hlin hnone).1 hg).2, fun e he => ?_⟩
      · rw [hnone] at hp; cases hp
      · rw [hnone] at he; cases he
    · obtain ⟨-, -, hquiet⟩ := (gets_front_iff hk hi hlin hp hnone).1 hg
      refine ⟨fun p hp' => ?_, fun h => ?_, fun e' he' => ?_⟩
      · rw [hp] at hp'; cases hp'; rfl
      · rw [hp] at h; cases h
      · rw [hp] at he'; cases he'; exact hquiet
  · intro hfront
    cases hp : firstPacket u.headKey u.endKey u.content with
    | none => exact ⟨[], u.content, u, .stop hp,
        (gets_nil_iff hk hi hlin hp).2 ⟨rfl, hfront.unfinished hp⟩, .inl rfl⟩
    | some p =>
      obtain ⟨o, e⟩ := p
      obtain rfl : o = 0 := hfront.front _ hp
      have hnone := hone _ hp
      obtain ⟨hle, -, -⟩ := findable_front hk hi hp
      exact ⟨_, _, u.commit (e + u.extra), .frame hp (.stop hnone),
        (gets_front_iff hk hi hlin hp hnone).2 ⟨rfl, rfl, hfront.behind e hp⟩, .inl (commit_content hi hle)⟩

/-- With more, when the keys share no byte and no head is followed by too few bytes. -/
theorem head_tail_many (hmany : ¬ u.OneFrame) (hkeys : ∀ b ∈ u.headKey, b ∉ u.tailKey) (hs : u.Unshort) :
    ¬ u.HeadTailComplete := by
  have hk : u.Keyed := .inr hm
  unfold HeadTailComplete
  rw [← extra_tail hm, ← endKey_tail hm]
  rintro ⟨fs, rest, u', hf, hg, hc⟩
  obtain ⟨f, g, fs, rfl⟩ := frames_of_many hmany hf
  refine many_fail hk (.inr ?_) hi hlin hs hf (hc.resolve_right fun h => by cases h.1) hg
  rwa [endKey_tail hm]

end

section
variable (hm : u.unpackerModel = .kHead) (hi : u.Inv) (hlin : u.Linear 0)
include hm hi hlin

/-- A complete call on at most two heads found the first one at the front. -/
theorem HeadComplete.front_head (hone : u.OneFrame) (h : u.HeadComplete) : u.FrontHead := by
  have hk : u.Keyed := .inl hm
  have hh := headKey_ne hk.model_ne
  have he := endKey_head hm
  intro o ho
  obtain ⟨fs, rest, u', hf, hg, hc⟩ := h
  have hf' : Frames u.headKey u.endKey u.extra u.content fs rest := by rwa [he, extra_head hm]
  rcases hone.frames hk hi hf' hg (fun hne => hc 0 (hf.head_rest hh hne)) with
    ⟨hnone, rfl, rfl⟩ | ⟨e, hp, -, rfl⟩
  · obtain ⟨rfl, hquiet⟩ := (gets_nil_iff hk hi hlin hnone).1 hg
    -- The bytes before the first head are not dropped, so there are none.
    have hlen := congrArg List.length (hc o ho)
    have hb := first_bound hh ho
    rw [List.length_drop] at hlen
    obtain rfl : o = 0 := by omega
    refine ⟨rfl, fun _ => ?_⟩
    have hsearch := hquiet 0 ho
    rwa [he, Nat.zero_add] at hsearch
  · rw [he] at hp
    obtain ⟨hhead, -⟩ := firstPacket_eq_some.1 hp
    rw [ho] at hhead
    cases hhead
    refine ⟨rfl, fun hnone => ?_⟩
    rw [hp] at hnone
    cases hnone

/-- A first head at the front with no second one, or with one that has no third behind it. -/
theorem FrontHead.complete (hone : u.OneFrame) (hfront : u.FrontHead) : u.HeadComplete := by
  have hk : u.Keyed := .inl hm
  have hh := headKey_ne hk.model_ne
  have he := endKey_head hm
  have hx := extra_head hm
  cases hp : firstPacket u.headKey u.headKey u.content with
  | none =>
    have hp' : firstPacket u.headKey u.endKey u.content = none := by rwa [he]
    refine ⟨[], u.content, u, .stop hp, (gets_nil_iff hk hi hlin hp').2 ⟨rfl, fun o ho => ?_⟩, fun o ho => ?_⟩
    · obtain ⟨rfl, hquiet⟩ := hfront o ho
      rw [he, Nat.zero_add]
      exact hquiet hp
    · obtain ⟨rfl, -⟩ := hfront o ho
      rw [List.drop_zero]
  | some p =>
    obtain ⟨o, e⟩ := p
    obtain ⟨hhead, hend⟩ := firstPacket_eq_some.1 hp
    obtain ⟨rfl, -⟩ := hfront o hhead
    have hp' : firstPacket u.headKey u.endKey u.content = some (0, e) := by rwa [he]
    have hnone := hone _ hp'
    obtain ⟨hle, hhe, -⟩ := findable_front hk hi hp'
    have hrest : first u.headKey (u.content.drop e) 0 = some 0 := first_drop_self hh hend
    refine ⟨[u.content.take e], u.content.drop e, u.commit (e + u.extra), ?_, ?_, fun o ho => ?_⟩
    · rw [he, hx] at hnone
      exact .frame hp (.stop hnone)
    · refine (gets_front_iff hk hi hlin hp' hnone).2 ⟨by rw [hx, Nat.add_zero], rfl, fun o ho => ?_⟩
      -- The head that ends the packet is the only one left: there is none to look behind.
      obtain ⟨hle, hocc, -⟩ := (first_eq_some hh).1 ho
      rw [hx, Nat.add_zero, he] at hnone
      rw [hx, Nat.add_zero] at hle hocc
      exact absurd hocc ((first_eq_none hh).1 (no_end_of_no_packet hh hh hnone hrest) o (by omega))
    · rw [hrest] at ho
      cases ho
      rw [commit_content hi hle, hx, Nat.add_zero, List.drop_zero]

/-- With at most two heads. -/
theorem head_one (hone : u.OneFrame) : u.HeadComplete ↔ u.FrontHead :=
  ⟨HeadComplete.front_head hm hi hlin hone, FrontHead.complete hm hi hlin hone⟩

theorem head_many (hmany : ¬ u.OneFrame) (hs : u.Unshort) : ¬ u.HeadComplete := by
  have hk : u.Keyed := .inl hm
  unfold HeadComplete
  rintro ⟨fs, rest, u', hf, hg, hc⟩
  have hf' : Frames u.headKey u.endKey u.extra u.content fs rest := by rwa [endKey_head hm, extra_head hm]
  obtain ⟨f, g, fs, rfl⟩ := frames_of_many hmany hf'
  exact many_fail hk (.inl hm) hi hlin hs hf'
    (hc 0 (hf.head_rest (headKey_ne hk.model_ne) (List.cons_ne_nil _ _))) hg

end

/-! ## Both modes -/

/-- What a first write leaves in a new unpacker. -/
theorem first_write (h t : List UInt8) (c : Nat) (hc : c ≤ maxSize) (bs : List UInt8) (h0 : bs ≠ [])
    (hb : bs.length ≤ c) :
    ((createBasic h t c hc).writeRing bs).Inv ∧ ((createBasic h t c hc).writeRing bs).Linear 0 := by
  have hpos := List.length_pos_iff.2 h0
  have hi : (createBasic h t c hc).Inv := create_inv h t none none hc (by omega)
  exact ⟨writeRing_inv hi bs, Linear.writeRing hi h0 (create_linear h t none none hc hb)⟩

/-- With a key of one byte no search is too short. -/
theorem unshort_one (he : u.endKey.length = 1) : u.Unshort := by
  rintro start ⟨o, -, h₁, h₂, -⟩
  omega

/-- A head and a tail key, non-empty as the mode says, and bytes stored without going round the array. -/
theorem head_tail_complete (u : UnPacker) (hm : u.unpackerModel = .kHeadTail) (hi : u.Inv)
    (hlin : u.Linear 0) :
    (u.OneFrame → (u.HeadTailComplete ↔ u.FrontFrame)) ∧
      (¬ u.OneFrame → (∀ b ∈ u.headKey, b ∉ u.tailKey) → u.Unshort → ¬ u.HeadTailComplete) :=
  ⟨head_tail_one hm hi hlin, head_tail_many hm hi hlin⟩

/-- The keys 1 and 2 and the bytes `1 7 2 1`. -/
abbrev oneAndMore : UnPacker := (createBasic [1] [2] 8 eight_le_maxSize).writeRing [1, 7, 2, 1]

theorem oneAndMore_front : oneAndMore.OneFrame ∧ oneAndMore.FrontFrame := by
  have hp : firstPacket oneAndMore.headKey oneAndMore.endKey oneAndMore.content = some (0, 2) := by decide
  refine ⟨fun p hp' => ?_, fun p hp' => ?_, fun hnone => ?_, fun e he o ho => ?_⟩
  · cases hp.symm.trans hp'
    decide
  · cases hp.symm.trans hp'
    rfl
  · cases hp.symm.trans hnone
  · cases hp.symm.trans he
    -- No head behind the offset the loop goes on from.
    rw [show first _ _ _ = none by decide] at ho
    cases ho

theorem head_tail_complete_front : oneAndMore.HeadTailComplete :=
  have hw := first_write [1] [2] 8 eight_le_maxSize [1, 7, 2, 1] (by decide) (by decide)
  ((head_tail_complete oneAndMore rfl hw.1 hw.2).1 oneAndMore_front.1).2 oneAndMore_front.2

/-- Two frames `1 2`. -/
theorem second_frame_stays :
    ¬ ∀ u : UnPacker, u.unpackerModel = .kHeadTail → u.Inv → u.Linear 0 → u.HeadTailComplete := by
  intro hall
  obtain ⟨hi, hlin⟩ := first_write [1] [2] 8 eight_le_maxSize [1, 2, 1, 2] (by decide) (by decide)
  have hmany : ¬ ((createBasic [1] [2] 8 eight_le_maxSize).writeRing [1, 2, 1, 2]).OneFrame := fun hone =>
    absurd (hone (0, 1) (by decide)) (by decide)
  exact head_tail_many rfl hi hlin hmany (List.forall_mem_singleton.2 (by decide)) (unshort_one rfl)
    (hall _ rfl hi hlin)

/-- A head key only, non-empty as the mode says, and bytes stored without going round the array. -/
theorem head_complete (u : UnPacker) (hm : u.unpackerModel = .kHead) (hi : u.Inv) (hlin : u.Linear 0) :
    (u.OneFrame → (u.HeadComplete ↔ u.FrontHead)) ∧ (¬ u.OneFrame → u.Unshort → ¬ u.HeadComplete) :=
  ⟨head_one hm hi hlin, head_many hm hi hlin⟩

/-- The head 1 twice: a packet and what follows it. -/
abbrev twoHeads : UnPacker := (createBasic [1] [] 8 eight_le_maxSize).writeRing [1, 7, 1, 8]

theorem head_complete_two : twoHeads.HeadComplete := by
  obtain ⟨hi, hlin⟩ := first_write [1] [] 8 eight_le_maxSize [1, 7, 1, 8] (by decide) (by decide)
  have hp : firstPacket twoHeads.headKey twoHeads.endKey twoHeads.content = some (0, 2) := by decide
  refine ((head_complete twoHeads rfl hi hlin).1 fun p hp' => ?_).2 fun o ho => ⟨?_, fun hnone => ?_⟩
  · cases hp.symm.trans hp'
    decide
  · rw [show first _ _ _ = some 0 by decide] at ho
    cases ho
    rfl
  · cases hp.symm.trans hnone

/-- Three heads. -/
theorem second_head_skipped :
    ¬ ∀ u : UnPacker, u.unpackerModel = .kHead → u.Inv → u.Linear 0 → u.HeadComplete := by
  intro hall
  obtain ⟨hi, hlin⟩ := first_write [1] [] 8 eight_le_maxSize [1, 7, 1, 8, 1] (by decide) (by decide)
  have hmany : ¬ ((createBasic [1] [] 8 eight_le_maxSize).writeRing [1, 7, 1, 8, 1]).OneFrame := fun hone =>
    absurd (hone (0, 2) (by decide)) (by decide)
  exact head_many rfl hi hlin hmany (unshort_one rfl) (hall _ rfl hi hlin)

end NebulaToolkit.UnPacker
