import NebulaToolkit.CleanCall
import NebulaToolkit.Lib.Machine
/-!
# How a stream is cut into pushes

Feeding a byte string in several pushes against feeding it in one. The two
agree when the string holds at most one packet, at its front, and no call
looks for an end key in fewer bytes than the key has (`chunks_agree`). Two
packets in one push are enough for them to differ, whatever the keys are: the
second one stays in the ring, because `current_pos` is counted from the front
the commit has just moved (`two_packets_disagree`).
-/

namespace NebulaToolkit.UnPacker

open Lib

variable {u : UnPacker}

/-- The pushes of `cut`, one after another, come back, and so does one push of all
its bytes; they hand out the same packets in all. -/
def Agrees (u : UnPacker) (cut : List (List UInt8)) : Prop :=
  ∃ outs v out v', Trace Pushes u cut outs v ∧ u.Pushes cut.flatten out v' ∧ outs.flatten = out

/-- The pushes of a cut come back in one way only. -/
theorem pushes_unique {cut : List (List UInt8)} {outs outs' : List (List (List UInt8))} {v v' : UnPacker}
    (h : Trace Pushes u cut outs v) (h' : Trace Pushes u cut outs' v') : outs = outs' := by
  have hdet (t : UnPacker) i o o' t' t'' : Pushes t i o t' → Pushes t i o' t'' → o = o' ∧ t' = t'' :=
    Pushes.unique
  exact (h.unique hdet h').1

/-! ## Conditions on the bytes alone -/

section
variable (headKey endKey : List UInt8) (extra : Nat)

/-- Behind the first head at or after `start` there are some bytes, but fewer than
the end key has. -/
def Short (xs : List UInt8) (start : Nat) : Prop :=
  ∃ o ∈ first headKey xs start, o + headKey.length < xs.length ∧
    xs.length < o + headKey.length + endKey.length ∧ endKey.length ≤ xs.length

instance (xs : List UInt8) (start : Nat) : Decidable (Short headKey endKey xs start) :=
  inferInstanceAs (Decidable (∃ o ∈ _, _))

/-- What a call leaves of the bytes `xs`. -/
def leftover (xs : List UInt8) : List UInt8 :=
  match firstPacket headKey endKey xs with
  | none => xs
  | some (_, e) => xs.drop (e + extra)

/-- A call on the bytes `xs` looks for no end key in too few bytes, neither for the
first packet nor, after it, from where the loop goes on. -/
def NoShort (xs : List UInt8) : Prop :=
  ¬ Short headKey endKey xs 0 ∧
    ∀ p ∈ firstPacket headKey endKey xs, ¬ Short headKey endKey (xs.drop (p.2 + extra)) (p.2 + extra)

instance (xs : List UInt8) : Decidable (NoShort headKey endKey extra xs) :=
  inferInstanceAs (Decidable (_ ∧ ∀ p ∈ firstPacket headKey endKey xs, _))

/-- No call does when the chunks `cut` are pushed after the bytes `xs`. -/
def NoShortCut : List UInt8 → List (List UInt8) → Prop
  | _, [] => True
  | xs, c :: cut =>
    NoShort headKey endKey extra (xs ++ c) ∧ NoShortCut (leftover headKey endKey extra (xs ++ c)) cut

/-- At most one packet, and it begins with the first byte. -/
def OnePacket (xs : List UInt8) : Prop :=
  ∀ p ∈ firstPacket headKey endKey xs, p.1 = 0 ∧ firstPacket headKey endKey (xs.drop (p.2 + extra)) = none

instance (xs : List UInt8) : Decidable (OnePacket headKey endKey extra xs) :=
  inferInstanceAs (Decidable (∀ p ∈ firstPacket headKey endKey xs, _))

end

section
variable {headKey endKey xs ys : List UInt8} {extra o e : Nat}

theorem firstPacket_eq_some : firstPacket headKey endKey xs = some (o, e) ↔
    first headKey xs 0 = some o ∧ first endKey xs (o + headKey.length) = some e := by
  unfold firstPacket
  cases h : first headKey xs 0 with
  | none => simp
  | some o' =>
    cases h' : first endKey xs (o' + headKey.length) with
    | none => simp only [Option.bind_some, h', Option.map_none, reduceCtorEq, Option.some.injEq,
        false_iff, not_and]
              rintro rfl; simp [h']
    | some e' =>
      simp only [Option.bind_some, h', Option.map_some, Option.some.injEq, Prod.mk.injEq]
      constructor
      · rintro ⟨rfl, rfl⟩; exact ⟨rfl, h'⟩
      · rintro ⟨rfl, he⟩; exact ⟨rfl, Option.some.inj (h'.symm.trans he)⟩

theorem firstPacket_append (hh : headKey ≠ []) (he : endKey ≠ []) {p : Nat × Nat}
    (h : firstPacket headKey endKey xs = some p) (ys : List UInt8) :
    firstPacket headKey endKey (xs ++ ys) = some p := by
  obtain ⟨h1, h2⟩ := firstPacket_eq_some.1 h
  exact firstPacket_eq_some.2 ⟨first_append hh h1 ys, first_append he h2 ys⟩

theorem firstPacket_none_of_append (hh : headKey ≠ []) (he : endKey ≠ [])
    (h : firstPacket headKey endKey (xs ++ ys) = none) : firstPacket headKey endKey xs = none := by
  cases hx : firstPacket headKey endKey xs with
  | none => rfl
  | some p => rw [firstPacket_append hh he hx ys] at h; cases h

/-- Without a packet, no head is followed by an end key. -/
theorem no_end_of_no_packet (hh : headKey ≠ []) (he : endKey ≠ [])
    (h : firstPacket headKey endKey xs = none) {s : Nat} (ho : first headKey xs s = some o) :
    first endKey xs (o + headKey.length) = none := by
  obtain ⟨-, hocc, -⟩ := (first_eq_some hh).1 ho
  cases hf : first headKey xs 0 with
  | none => exact absurd hocc ((first_eq_none hh).1 hf o (Nat.zero_le _))
  | some o' =>
    have hle : o' ≤ o := by
      by_contra hlt
      exact ((first_eq_some hh).1 hf).2.2 o (Nat.zero_le _) (by omega) hocc
    cases he' : first endKey xs (o' + headKey.length) with
    | none => exact (first_eq_none he).2 fun i hi => (first_eq_none he).1 he' i (by omega)
    | some e => rw [firstPacket_eq_some.2 ⟨hf, he'⟩] at h; cases h

theorem first_bound {key : List UInt8} (hk : key ≠ []) {s : Nat} (h : first key xs s = some o) :
    o + key.length ≤ xs.length := ((first_eq_some hk).1 h).2.1.bound hk

end

/-! ## Calls on a ring that has not gone round -/

section
variable {room : Nat} (hk : u.Keyed) (hi : u.Inv)
include hk hi

/-- There a call is clean when its packet is at the front, nothing is found behind
it where the loop goes on, and no end key is looked for in too few bytes. -/
theorem clean_of_linear (hlin : u.Linear room) (hs : NoShort u.headKey u.endKey u.extra u.content)
    (hp : ∀ o e, firstPacket u.headKey u.endKey u.content = some (o, e) → o = 0 ∧
      ∀ o', first u.headKey (u.content.drop (e + u.extra)) (e + u.extra) = some o' →
        first u.endKey (u.content.drop (e + u.extra)) (o' + u.headKey.length) = none) : u.Clean := by
  have hh := headKey_ne hk.model_ne
  have he := hk.endKey_ne
  refine ⟨hlin.searchOk hh (by omega), fun o ho => ⟨hlin.searchOk he fun h1 h2 => ?_, fun e hoe => ?_⟩⟩
  · by_contra hlt
    refine hs.1 ⟨o, ho, ?_⟩
    rw [RingBuffer.content_length]; omega
  · have hfp := firstPacket_eq_some.2 ⟨ho, hoe⟩
    obtain ⟨rfl, hq⟩ := hp o e hfp
    have hx := hk.extra_le
    have hle : e + u.extra ≤ u.length := by
      have := first_bound he hoe
      rw [RingBuffer.content_length] at this; omega
    have hlin' := hlin.commit hi hle
    refine ⟨rfl, fun _ => hlin'.unbroken hh, fun o' ho' => ?_⟩
    rw [commit_headKey, commit_content hi hle] at ho'
    refine ⟨hlin'.searchOk he fun h1 h2 => ?_, ?_⟩
    · by_contra hlt
      refine hs.2 _ hfp ⟨o', ho', ?_⟩
      simp only [commit_headKey, commit_endKey, commit_length hi hle] at h1 h2 hlt
      rw [List.length_drop, RingBuffer.content_length]; omega
    · rw [commit_endKey, commit_headKey, commit_content hi hle]; exact hq o' ho'

end

/-- What a stream with at most one packet hands out. -/
def packetsOf (headKey endKey : List UInt8) (extra : Nat) (xs : List UInt8) : List (List UInt8) :=
  match firstPacket headKey endKey xs with
  | none => []
  | some (_, e) => [xs.take (e + extra)]

theorem packetsOf_none {headKey endKey xs : List UInt8} {extra : Nat}
    (h : firstPacket headKey endKey xs = none) :
    packetsOf headKey endKey extra xs = [] := by rw [packetsOf, h]

theorem packetsOf_some {headKey endKey xs : List UInt8} {extra o e : Nat}
    (h : firstPacket headKey endKey xs = some (o, e)) :
    packetsOf headKey endKey extra xs = [xs.take (e + extra)] := by
  rw [packetsOf, h]

/-- The call that takes a chunk, when all the bytes hold at most one packet, at the front. -/
theorem push_clean {c later : List UInt8} {room : Nat} (hk : u.Keyed) (hi : u.Inv)
    (hlin : u.Linear (c.length + room)) (hc : c ≠ [])
    (hone : OnePacket u.headKey u.endKey u.extra (u.content ++ c ++ later))
    (hs : NoShort u.headKey u.endKey u.extra (u.content ++ c)) : (u.writeRing c).Clean := by
  have hh := headKey_ne hk.model_ne
  have he := hk.endKey_ne
  have hcont : (u.writeRing c).content = u.content ++ c :=
    writeRing_content hi (by unfold Linear at hlin; omega) hc
  refine clean_of_linear (hk.writeRing c) (writeRing_inv hi c) (hlin.writeRing hi hc)
    (by rw [hcont]; exact hs) fun o e hf => ?_
  rw [hcont] at hf ⊢
  obtain ⟨h0, hrest⟩ := hone _ (firstPacket_append hh he hf later)
  refine ⟨h0, fun o' ho' => no_end_of_no_packet hh he ?_ ho'⟩
  have hle := first_bound he (firstPacket_eq_some.1 hf).2
  have hx := hk.extra_le
  rw [List.drop_append_of_le_length (by omega)] at hrest
  exact firstPacket_none_of_append hh he hrest

/-- Pushes that look for no end key in too few bytes hand out the one packet of the
whole, whatever the cut. The induction is on the cut: until the packet is
complete everything stays in the ring, and after it nothing is found any more. -/
theorem pushes_hand_out (cut : List (List UInt8)) (hne : ∀ c ∈ cut, c ≠ []) (hk : u.Keyed) (hi : u.Inv)
    (hlin : u.Linear cut.flatten.length) (hnone : firstPacket u.headKey u.endKey u.content = none)
    (hone : OnePacket u.headKey u.endKey u.extra (u.content ++ cut.flatten))
    (hs : NoShortCut u.headKey u.endKey u.extra u.content cut) :
    ∃ outs v, Trace Pushes u cut outs v ∧
      outs.flatten = packetsOf u.headKey u.endKey u.extra (u.content ++ cut.flatten) := by
  induction cut generalizing u with
  | nil => exact ⟨[], u, .nil u, by simpa using (packetsOf_none hnone).symm⟩
  | cons c cut ih =>
    have hh := headKey_ne hk.model_ne
    have he := hk.endKey_ne
    have hc := hne c (by simp)
    rw [List.flatten_cons, List.length_append] at hlin
    rw [List.flatten_cons, ← List.append_assoc] at hone ⊢
    obtain ⟨hs1, hs2⟩ := hs
    have hi₁ := writeRing_inv hi c
    have hlin₁ := hlin.writeRing hi hc
    have hcont : (u.writeRing c).content = u.content ++ c :=
      writeRing_content hi (by unfold Linear at hlin; omega) hc
    have hcall := clean_call (hk.writeRing c) hi₁ (push_clean hk hi hlin hc hone hs1)
    simp only [hcont, writeRing_headKey, writeRing_endKey, writeRing_extra] at hcall
    cases hf : firstPacket u.headKey u.endKey (u.content ++ c) with
    | none =>
      rw [hf] at hcall
      have hl : leftover u.headKey u.endKey u.extra (u.content ++ c) = u.content ++ c := by rw [leftover, hf]
      rw [hl] at hs2
      obtain ⟨outs, v, ht, ho⟩ := ih (fun d hd => hne d (by simp [hd])) (hk.writeRing c) hi₁ hlin₁
        (by rw [hcont]; exact hf) (by rw [hcont]; exact hone) (by rw [hcont]; exact hs2)
      rw [hcont] at ho
      exact ⟨[] :: outs, v,
        .cons (pushes_iff.2 hcall) ht, by rw [List.flatten_cons, List.nil_append, ho]; rfl⟩
    | some p =>
      obtain ⟨o, e⟩ := p
      rw [hf] at hcall
      have hl : leftover u.headKey u.endKey u.extra (u.content ++ c) =
          (u.content ++ c).drop (e + u.extra) := by
        rw [leftover, hf]
      rw [hl] at hs2
      have hle := first_bound he (firstPacket_eq_some.1 hf).2
      have hx := hk.extra_le
      have hfS := firstPacket_append hh he hf cut.flatten
      obtain ⟨-, hrest⟩ := hone _ hfS
      have hn : e + u.extra ≤ (u.writeRing c).length := by
        rw [← RingBuffer.content_length, hcont]; omega
      have hcont₂ : ((u.writeRing c).commit (e + u.extra)).content = (u.content ++ c).drop (e + u.extra) := by
        rw [commit_content hi₁ hn, hcont]
      rw [List.drop_append_of_le_length (by omega)] at hrest
      have hrest' := firstPacket_none_of_append hh he hrest
      obtain ⟨outs, v, ht, ho⟩ := ih (fun d hd => hne d (by simp [hd])) ((hk.writeRing c).commit _)
        (commit_inv hi₁ (e + u.extra)) (hlin₁.commit hi₁ hn) (by rw [hcont₂]; exact hrest')
        (by rw [hcont₂]; intro p hp; exact absurd (hp.symm.trans hrest) (by simp)) (by rw [hcont₂]; exact hs2)
      refine ⟨_, v, .cons (pushes_iff.2 hcall) ht, ?_⟩
      have hnil : outs.flatten = [] := ho.trans (packetsOf_none (by rw [hcont₂]; exact hrest))
      rw [List.flatten_cons, hnil, packetsOf_some hfS, List.append_nil]
      exact congrArg (fun p => [p]) (List.take_append_of_le_length (by omega)).symm

/-! ## Two packets in one push -/

/-- A head with its end key. -/
def frame (u : UnPacker) : List UInt8 := u.headKey ++ u.endKey

/-- The bytes that complete a second frame behind the first. -/
def secondFrame (u : UnPacker) : List UInt8 := if u.unpackerModel = .kHead then u.endKey else u.frame

theorem frame_length (u : UnPacker) : u.frame.length = u.headKey.length + u.endKey.length :=
  List.length_append

theorem frame_ne (hh : u.headKey ≠ []) : u.frame ≠ [] := by
  simp [frame, hh]

theorem secondFrame_ne (hh : u.headKey ≠ []) (he : u.endKey ≠ []) : u.secondFrame ≠ [] := by
  unfold secondFrame
  split
  · exact he
  · exact frame_ne hh

theorem secondFrame_length_le (u : UnPacker) : u.secondFrame.length ≤ u.frame.length := by
  unfold secondFrame
  split
  · rw [frame_length]
    exact Nat.le_add_left _ _
  · exact Nat.le_refl _

section
variable (hk : u.Keyed)
include hk

theorem frame_rest : u.frame.drop (u.headKey.length + u.extra) ++ u.secondFrame = u.frame := by
  unfold frame secondFrame extra endKey
  rcases hk with h | h
  · simp [h]
  · simp [h, frame, endKey]

/-- Behind as many bytes as a packet has, a frame has no room for a head and more. -/
theorem frame_rest_length : u.frame.length ≤ u.headKey.length + (u.headKey.length + u.extra) := by
  unfold frame extra endKey
  rcases hk with h | h
  · simp [h]
  · simp [h]

theorem firstPacket_frame (xs : List UInt8) :
    firstPacket u.headKey u.endKey (u.frame ++ xs) = some (0, u.headKey.length) := by
  have hh := headKey_ne hk.model_ne
  refine firstPacket_append hh hk.endKey_ne (firstPacket_eq_some.2 ⟨?_, ?_⟩) xs
  · exact (first_eq_some hh).2
      ⟨Nat.le_refl 0, by simp [OccursAt, frame], fun j _ h => absurd h (Nat.not_lt_zero j)⟩
  · exact (first_eq_some hk.endKey_ne).2 ⟨by omega, by simp [OccursAt, frame], fun j h1 h2 => by omega⟩

/-- A call on a frame, or on a frame and the second one behind it, hands out one packet. -/
theorem frame_call (hi : u.Inv) {room : Nat} (hlin : u.Linear room) {xs : List UInt8}
    (hxs : xs = [] ∨ xs = u.secondFrame) (hc : u.content = u.frame ++ xs) :
    u.Packs ([u.frame.take (u.headKey.length + u.extra)], u.commit (u.headKey.length + u.extra)) := by
  have hh := headKey_ne hk.model_ne
  have hhp := List.length_pos_iff.2 hh
  have he := hk.endKey_ne
  have hx := hk.extra_le
  have hf := firstPacket_frame hk xs
  have hlen := frame_length u
  have hrl := frame_rest_length hk
  -- Behind the packet there is less than a frame, or exactly one.
  have hrest : (u.content.drop (u.headKey.length + u.extra)).length ≤ u.frame.length := by
    have hr := congrArg List.length (frame_rest hk)
    rw [List.length_append, List.length_drop] at hr
    rw [hc, List.length_drop, List.length_append]
    rcases hxs with rfl | rfl
    · simp
    · omega
  have hclean : u.Clean := by
    refine clean_of_linear hk hi hlin ⟨?_, ?_⟩ ?_
    · rintro ⟨o, ho, -, hlt, -⟩
      rw [hc, (firstPacket_eq_some.1 hf).1] at ho
      cases ho
      rw [hc, List.length_append] at hlt; omega
    · rw [hc, hf]
      rintro _ ⟨⟩ ⟨o, ho, hb, -, -⟩
      have := ((first_eq_some hh).1 ho).1
      rw [← hc] at hb
      simp only at this hb; omega
    · rw [hc, hf]
      rintro _ _ ⟨⟩
      refine ⟨rfl, fun o ho => (first_eq_none he).2 fun i hi' hocc => ?_⟩
      have := ((first_eq_some hh).1 ho).1
      have hb := hocc.bound he
      rw [← hc] at hb; omega
  have hcall := clean_call hk hi hclean
  rw [hc, hf] at hcall
  simpa only [List.take_append_of_le_length
    (show u.headKey.length + u.extra ≤ u.frame.length by omega)] using hcall

/-- Whatever the keys are, two frames pushed one by one give two packets, and pushed
together they give one. -/
theorem two_packets_disagree (hi : u.Inv) (hc : u.content = [])
    (hlin : u.Linear (u.frame ++ u.secondFrame).length) :
    ¬ Agrees u [u.frame, u.secondFrame] := by
  have hh := headKey_ne hk.model_ne
  have hx := hk.extra_le
  have hlen := frame_length u
  have hf0 := frame_ne hh
  have hs0 := secondFrame_ne hh hk.endKey_ne
  rw [List.length_append] at hlin
  have hroom := hlin
  unfold Linear at hroom
  -- The two pushes.
  have hc₁ : (u.writeRing u.frame).content = u.frame ++ [] := by
    rw [writeRing_content hi (by omega) hf0, hc, List.nil_append, List.append_nil]
  have hlin₁ := hlin.writeRing hi hf0
  have hi₁ := writeRing_inv hi u.frame
  have hcall₁ := frame_call (hk.writeRing u.frame) hi₁ hlin₁ (.inl rfl) hc₁
  have hn₁ : u.headKey.length + u.extra ≤ (u.writeRing u.frame).length := by
    rw [← RingBuffer.content_length, hc₁, List.append_nil]; omega
  have hlin₂ := (hlin₁.commit hi₁ hn₁)
  have hi₂ := commit_inv hi₁ (u.headKey.length + u.extra)
  have hc₃ : (((u.writeRing u.frame).commit (u.headKey.length + u.extra)).writeRing
      u.secondFrame).content = u.frame ++ [] := by
    have hroom₂ := hlin₂
    unfold Linear at hroom₂
    rw [writeRing_content hi₂ (by omega) hs0, commit_content hi₁ hn₁, hc₁, List.append_nil, frame_rest hk]
  have hlin₃ :
      (((u.writeRing u.frame).commit (u.headKey.length + u.extra)).writeRing u.secondFrame).Linear 0 :=
    hlin₂.writeRing hi₂ hs0
  have hcall₂ := frame_call (((hk.writeRing u.frame).commit _).writeRing u.secondFrame) (writeRing_inv hi₂ _)
    hlin₃ (.inl rfl) hc₃
  -- The one push.
  have hc₄ : (u.writeRing (u.frame ++ u.secondFrame)).content = u.frame ++ u.secondFrame := by
    rw [writeRing_content hi (by rw [List.length_append]; omega) (by simp [hf0]), hc, List.nil_append]
  have hlin₄ : (u.writeRing (u.frame ++ u.secondFrame)).Linear 0 :=
    Linear.writeRing hi (by simp [hf0]) (by rw [List.length_append]; exact hlin)
  have hcall₄ :=
    frame_call (hk.writeRing (u.frame ++ u.secondFrame)) (writeRing_inv hi _) hlin₄ (.inr rfl) hc₄
  rintro ⟨outs, v, out, v', ht, hp, heq⟩
  rw [List.flatten_cons, List.flatten_cons, List.flatten_nil, List.append_nil] at hp
  obtain ⟨rfl, -⟩ := hp.unique (pushes_iff.2 hcall₄)
  obtain rfl := pushes_unique ht (.cons (pushes_iff.2 hcall₁) (.cons (pushes_iff.2 hcall₂) (.nil _)))
  simp at heq

end

/-! ## A new unpacker -/

section
variable (h t : List UInt8) (dc : Option DataSzCb) (cc : Option CheckValidCb) {c : Nat} (hc : c ≤ maxSize)

theorem create_inv (h0 : 0 < c) : (createWithCallbacks h t dc cc c hc).Inv := RingBuffer.ofSize_inv hc h0

theorem create_linear {room : Nat} (hr : room ≤ c) : (createWithCallbacks h t dc cc c hc).Linear room := by
  show 0 + 0 + room ≤ (RingBuffer.ofSize c hc).capacity
  rw [RingBuffer.ofSize_capacity]; omega

/-- A new unpacker in one of the two modes without callbacks hands out the same
packets for every cut of a byte string into pushes that meets the condition; and
as soon as it has room for two frames there is a byte string that does not. -/
theorem chunks_agree (hk : (createWithCallbacks h t dc cc c hc).Keyed) :
    let u := createWithCallbacks h t dc cc c hc
    (∀ cut : List (List UInt8), (∀ chunk ∈ cut, chunk ≠ []) → cut.flatten.length ≤ c →
      OnePacket u.headKey u.endKey u.extra cut.flatten →
      NoShortCut u.headKey u.endKey u.extra [] cut → NoShortCut u.headKey u.endKey u.extra [] [cut.flatten] →
      Agrees u cut) ∧
    (2 * (u.headKey.length + u.endKey.length) ≤ c →
      ∃ cut : List (List UInt8), (∀ chunk ∈ cut, chunk ≠ []) ∧ cut.flatten.length ≤ c ∧
      ¬ Agrees u cut) := by
  intro u
  have hh : u.headKey ≠ [] := headKey_ne hk.model_ne
  have he : u.endKey ≠ [] := hk.endKey_ne
  have hcont : u.content = [] := rfl
  have hnone : firstPacket u.headKey u.endKey u.content = none := by
    have hf : first u.headKey u.content 0 = none :=
      (first_eq_none hh).2 fun i _ ho => by simp [hcont, hh, OccursAt] at ho
    rw [firstPacket, hf]; rfl
  refine ⟨fun cut hne hlen hone hs hs' => ?_, fun hroom => ?_⟩
  · rcases cut with - | ⟨chunk, cut⟩
    · exact ⟨[], u, [], u, .nil u, pushes_iff.2 (hk.packs_iff.2 (KeysRun.done (Nat.le_refl 0))), rfl⟩
    have hpos : 0 < c := by
      have := List.length_pos_iff.2 (hne chunk (by simp))
      rw [List.flatten_cons, List.length_append] at hlen; omega
    have hi := create_inv h t dc cc hc hpos
    obtain ⟨outs, v, ht, ho⟩ :=
      pushes_hand_out (chunk :: cut) hne hk hi (create_linear h t dc cc hc hlen) hnone hone hs
    obtain ⟨outs', v', ht', ho'⟩ :=
      pushes_hand_out [(chunk :: cut).flatten] (by simp [hne chunk (by simp)]) hk hi
      (create_linear h t dc cc hc (by simpa using hlen)) hnone
      (by rw [List.flatten_singleton]; exact hone) hs'
    cases ht' with
    | cons hp hnil =>
      cases hnil
      refine ⟨outs, v, _, v', ht, hp, ho.trans ?_⟩
      simpa using ho'.symm
  · have hlen : (u.frame ++ u.secondFrame).length ≤ c := by
      have hsec := secondFrame_length_le u
      have hfr := frame_length u
      rw [List.length_append]; omega
    have hhp := List.length_pos_iff.2 hh
    have hi := create_inv h t dc cc hc (by omega)
    refine ⟨[u.frame, u.secondFrame], ?_, by simpa using hlen,
      two_packets_disagree hk hi rfl (create_linear h t dc cc hc hlen)⟩
    rintro chunk hm
    rcases List.mem_pair.1 hm with rfl | rfl
    · exact frame_ne hh
    · exact secondFrame_ne hh he

/-- The keys 1 and 2 and room for eight bytes. -/
abbrev oneTwo : UnPacker := createWithCallbacks [1] [2] none none 8 (by decide)

/-- The theorem for the keys 1 and 2: a frame cut in the middle, with the beginning of the next one behind
it. -/
theorem chunks_agree_two :
    oneTwo.Keyed ∧
      Agrees oneTwo [[1, 7], [2, 1], [8]] :=
  have hk : oneTwo.Keyed := .inr rfl
  ⟨hk, (chunks_agree [1] [2] none none (by decide) hk).1 [[1, 7], [2, 1], [8]] (by decide) (by decide)
    (by decide)
    ⟨by decide, by decide, by decide, trivial⟩ ⟨by decide, trivial⟩⟩

/-- Two frames `1 2`, pushed one by one and together. -/
theorem two_frames_differ :
    ¬ ∀ cut : List (List UInt8), (∀ chunk ∈ cut, chunk ≠ []) → cut.flatten.length ≤ 8 →
      Agrees oneTwo cut := fun hall =>
  two_packets_disagree (u := oneTwo) (.inr rfl)
    (create_inv _ _ _ _ _ (by decide)) rfl (create_linear _ _ _ _ _ (by decide))
    (hall [[1, 2], [1, 2]] (by decide) (by decide))

end

end NebulaToolkit.UnPacker
