import NebulaToolkit.UnPacker
/-!
# What `FindKey` finds

`FindKey` looks for a key in the stored bytes. It gives the first occurrence
as long as the part of the array it starts in is no shorter than the key and
no occurrence goes round the array's end (`findKey_eq`). When that part is
shorter, `part1_size - key_len` wraps and the loop goes on over the whole
array, dead cells included (`findKey_short`); with no hit there and the part
shorter by one byte, it never ends (`findKey_diverges`).
-/

namespace NebulaToolkit.UnPacker

open Lib

variable {u : UnPacker} {key : List UInt8} {start o : Nat}

/-- The cell `o` places behind the first stored byte, stored or dead. -/
def cellAt (u : UnPacker) (o : Nat) : UInt8 := u.cell ((u.readIndex + o) % u.capacity)

/-- `key` can be read from offset `o` on, going round the end and over dead cells. -/
def ReadsAt (u : UnPacker) (key : List UInt8) (o : Nat) : Prop :=
  ∀ j < key.length, some (u.cellAt (o + j)) = key[j]?

instance (u : UnPacker) (key : List UInt8) (o : Nat) : Decidable (u.ReadsAt key o) :=
  inferInstanceAs (Decidable (∀ j < key.length, _))

/-- How many bytes from offset `start` on lie before the array's end. -/
def part1 (u : UnPacker) (start : Nat) : Nat :=
  min (u.capacity - (u.readIndex + start) % u.capacity) (u.length - start)

/-- The comparison the first loop makes when its counter is `i`. -/
def hit1 (u : UnPacker) (key : List UInt8) (start i : Nat) : Bool :=
  keyMatches (fun j => u.cell (addSz (addSz ((u.readIndex + start) % u.capacity) i) j % u.capacity)) key 0

/-- The comparison the second loop makes. -/
def hit2 (u : UnPacker) (key : List UInt8) (i : Nat) : Bool := keyMatches (fun j => u.cell (addSz i j)) key 0

/-- The second loop and what follows it. -/
def search2 (u : UnPacker) (key : List UInt8) (start : Nat) : Except Fault Nat :=
  if key.length ≤ u.length - start - u.part1 start then
    (scan (subSz (u.length - start - u.part1 start) key.length) (u.hit2 key)).map fun r =>
      r.elim u.capacity (addSz (addSz start (u.part1 start)))
  else .ok u.capacity

/-- The places whose comparison stays within the part of the bytes it begins in. -/
def Compared (u : UnPacker) (key : List UInt8) (start o : Nat) : Prop :=
  start ≤ o ∧ o + key.length ≤ start + u.part1 start ∨ start + u.part1 start ≤ o ∧
  o + key.length ≤ u.length

theorem keyMatches_iff (cell : Nat → UInt8) (key : List UInt8) (j : Nat) :
    keyMatches cell key j = true ↔ ∀ i < key.length, some (cell (j + i)) = key[i]? := by
  induction key generalizing j with
  | nil => simp [keyMatches]
  | cons b key ih =>
    rw [keyMatches]
    by_cases h : cell j = b
    · rw [if_neg (by simpa using h), ih]
      constructor
      · rintro hi (_ | i) hlt
        · simp [h]
        · rw [show j + (i + 1) = j + 1 + i by omega, hi i (by simpa using hlt)]; rfl
      · intro hi i hlt
        rw [show j + 1 + i = j + (i + 1) by omega, hi (i + 1) (by simpa using hlt)]; rfl
    · rw [if_pos (by simpa using h)]
      simp only [Bool.false_eq_true, false_iff]
      intro hi
      have := hi 0 (by simp)
      simp only [Nat.add_zero, List.getElem?_cons_zero, Option.some.injEq] at this
      exact h this

theorem content_getElem? {i : Nat} (h : i < u.length) : u.content[i]? = some (u.cellAt i) := by
  rw [List.getElem?_eq_getElem (by simpa using h)]
  simp only [RingBuffer.content, getElem_cyc]
  rfl

/-- Among the stored bytes, reading a key is its occurrence there. -/
theorem readsAt_iff (h : o + key.length ≤ u.length) : u.ReadsAt key o ↔ OccursAt key u.content o := by
  rw [occursAt_iff]
  constructor
  · intro hr j hj; rw [content_getElem? (by omega), hr j hj]
  · intro ho j hj; rw [← content_getElem? (by omega), ho j hj]

/-! ## The two loops -/

section
variable {bound n : Nat} {hit : Nat → Bool}

theorem scan_hit (hn : n ≤ bound) (hw : n < 2 ^ 64) (hh : hit n = true) (hmin : ∀ j < n, hit j = false) :
    scan bound hit = .ok (some n) := by
  rw [scan, forUpTo_hit hn hw hh (Nat.zero_le n) (fun j _ hj => hmin j hj) (by omega)]

theorem scan_sound (h : scan bound hit = .ok (some n)) : hit n = true ∧ n < 2 ^ 64 := by
  unfold scan at h
  split at h
  · cases h
  · rename_i r hr
    cases h
    exact forUpTo_sound hr (Nat.two_pow_pos 64)

theorem scan_cases (hb : bound + 1 < 2 ^ 64) (hit : Nat → Bool) :
    (∃ i ≤ bound, hit i = true ∧ (∀ j < i, hit j = false) ∧ scan bound hit = .ok (some i)) ∨
      (∀ i ≤ bound, hit i = false) ∧ scan bound hit = .ok none := by
  by_cases hex : ∃ i, i ≤ bound ∧ hit i = true
  · obtain ⟨hle, hh⟩ := Nat.find_spec hex
    have hmin (j : Nat) (hj : j < Nat.find hex) : hit j = false := by
      simpa [show j ≤ bound by omega] using Nat.find_min hex hj
    exact .inl ⟨Nat.find hex, hle, hh, hmin, scan_hit hle (by omega) hh hmin⟩
  · have hno (i : Nat) (hi : i ≤ bound) : hit i = false := by
      by_contra hne
      exact hex ⟨i, hi, by simpa using hne⟩
    refine .inr ⟨hno, ?_⟩
    rw [scan, forUpTo_miss hb (Nat.zero_le _) (fun j _ hj => hno j hj) (by omega)]

end

section
variable (hi : u.Inv)
include hi

theorem absStart_lt (start : Nat) : (u.readIndex + start) % u.capacity < u.capacity :=
  Nat.mod_lt _ hi.capacity_pos

theorem absStart_eq (h : start < u.length) : addSz u.readIndex start = u.readIndex + start := by
  have := hi.length_le
  exact u.addSz_eq (Nat.le_of_lt hi.read_lt) (by omega)

/-- `part1_size` and `part2_size` as the source computes them. -/
theorem part1_eq (h : start < u.length) :
    min (subSz u.capacity ((u.readIndex + start) % u.capacity)) (subSz u.length start) = u.part1 start := by
  have hl := hi.length_le
  have hc := u.capacity_lt
  have hm := absStart_lt hi start
  rw [part1, show subSz u.capacity _ = _ from wsub_of_le (Nat.le_of_lt hm) (by omega),
    show subSz u.length start = _ from wsub_of_le (by omega) (by omega)]

theorem part2_eq (h : start < u.length) :
    subSz (subSz u.length start) (u.part1 start) = u.length - start - u.part1 start := by
  have hl := hi.length_le
  have hc := u.capacity_lt
  rw [show subSz u.length start = _ from wsub_of_le (by omega) (by omega)]
  exact wsub_of_le (by unfold part1; omega) (by omega)

theorem part1_pos (h : start < u.length) : 0 < u.part1 start := by
  have hm := absStart_lt hi start
  unfold part1; omega

/-- A stored place is compared if and only if it does not go round the array's end. -/
theorem compared_iff {o : Nat} (hso : start ≤ o) (hk : o + key.length ≤ u.length) (h0 : 0 < key.length) :
    u.Compared key start o ↔ (u.readIndex + o) % u.capacity + key.length ≤ u.capacity := by
  have hl := hi.length_le
  have hm := absStart_lt hi start
  have hround :
      (u.readIndex + o) % u.capacity = ((u.readIndex + start) % u.capacity + (o - start)) % u.capacity := by
    rw [Nat.mod_add_mod]
    congr 1
    omega
  have hmod := mod_round hm (show o - start ≤ u.capacity by omega)
  unfold Compared part1
  rw [hround, hmod]
  split <;> omega

omit hi in
/-- One comparison of the first loop, as long as no cell's number wraps. -/
theorem hit1_iff {i : Nat} (hik : (u.readIndex + start) % u.capacity + i + key.length ≤ 2 ^ 64) :
    u.hit1 key start i = true ↔ u.ReadsAt key (start + i) := by
  rw [hit1, keyMatches_iff]
  refine forall₂_congr fun j hj => ?_
  rw [Nat.zero_add, show addSz ((u.readIndex + start) % u.capacity) i = _ from wadd_of_lt (by omega),
    show addSz ((u.readIndex + start) % u.capacity + i) j = _ from wadd_of_lt (by omega), Nat.add_assoc,
    Nat.mod_add_mod, cellAt, ← Nat.add_assoc, ← Nat.add_assoc]
  simp only [Nat.add_assoc]

/-- As long as the counter stays below the capacity none does. -/
theorem hit1_within {i : Nat} (hik : i + key.length ≤ u.capacity) :
    u.hit1 key start i = true ↔ u.ReadsAt key (start + i) := by
  have hm := absStart_lt hi start
  have hc := u.capacity_lt
  exact hit1_iff (by omega)

/-- One comparison of the second loop, which runs over the bytes behind the array's end. -/
theorem hit2_iff (hp : u.part1 start < u.length - start) {i : Nat} (hik : i + key.length ≤ u.capacity) :
    u.hit2 key i = true ↔ u.ReadsAt key (start + u.part1 start + i) := by
  have hm := absStart_lt hi start
  have hc := u.capacity_lt
  rw [hit2, keyMatches_iff]
  refine forall₂_congr fun j hj => ?_
  -- The first part ends at the array's end.
  have he : (u.readIndex + (start + u.part1 start + i + j)) % u.capacity = i + j := by
    rw [show u.readIndex + (start + u.part1 start + i + j) =
      (u.readIndex + start) + (u.part1 start + (i + j)) by omega, ← Nat.mod_add_mod, ← Nat.add_assoc,
      show (u.readIndex + start) % u.capacity + u.part1 start = u.capacity by
        unfold part1 at hp ⊢; omega, Nat.add_mod_left, Nat.mod_eq_of_lt (by omega)]
  rw [Nat.zero_add, show addSz i j = _ from wadd_of_lt (by omega), cellAt, he]

omit hi in
/-- The searches `FindKey` refuses. -/
theorem findKey_refused (h : key = [] ∨ u.length < key.length ∨ u.length ≤ start) :
    u.findKey key start = .ok u.capacity := by
  rw [findKey, if_pos]
  rcases h with h | h | h
  exacts [.inl h, .inr (.inl h), .inr (.inr h)]

section
variable (h0 : key ≠ []) (hst : start < u.length) (hk : key.length ≤ u.length)
include h0 hst hk

/-- The searches it does not refuse: the first loop, and after a miss the second. -/
theorem findKey_search : u.findKey key start =
    (scan (subSz (u.part1 start) key.length) (u.hit1 key start)).bind fun r =>
      r.elim (u.search2 key start) fun i => .ok (addSz start i) := by
  have hg : ¬ (key = [] ∨ key.length > u.availableToRead ∨ start ≥ u.availableToRead) := by
    rintro (h | h | h)
    exacts [h0 h, Nat.not_lt.2 hk h, Nat.not_le.2 hst h]
  rw [findKey, if_neg hg]
  simp only [RingBuffer.availableToRead, absStart_eq hi hst, part1_eq hi hst, part2_eq hi hst]
  show Except.bind (scan _ (u.hit1 key start)) _ = _
  congr 1
  funext r
  cases r with
  | some i => rfl
  | none =>
    simp only [Option.elim_none, search2]
    by_cases hp2 : key.length ≤ u.length - start - u.part1 start
    · rw [if_pos hp2, if_pos hp2]
      show Except.bind (scan _ (u.hit2 key)) _ = _
      cases scan _ (u.hit2 key) with
      | error f => rfl
      | ok r => cases r <;> rfl
    · rw [if_neg hp2, if_neg hp2]; rfl

/-- The first loop's first hit is what is found. -/
theorem findKey_hit {i : Nat} (hs : scan (subSz (u.part1 start) key.length) (u.hit1 key start) = .ok (some i))
    (hsi : start + i < 2 ^ 64) : u.findKey key start = .ok (start + i) := by
  rw [findKey_search hi h0 hst hk, hs]
  exact congrArg Except.ok (wadd_of_lt hsi)

/-- A key that can be read where the search starts is found there, whatever the layout. -/
theorem findKey_reads (hr : u.ReadsAt key start) : u.findKey key start = .ok start := by
  have hl := hi.length_le
  have hc := u.capacity_lt
  have hh : u.hit1 key start 0 = true := (hit1_within hi (by omega)).2 hr
  exact findKey_hit hi h0 hst hk
    (scan_hit (Nat.zero_le _) (by omega) hh fun j h => absurd h (Nat.not_lt_zero j)) (by omega)

/-- What the second loop finds: the first occurrence behind the array's end, or nothing. -/
theorem search2_cases :
    (∃ o, start + u.part1 start ≤ o ∧ o + key.length ≤ u.length ∧ OccursAt key u.content o ∧
      (∀ o', start + u.part1 start ≤ o' → o' < o → ¬ OccursAt key u.content o') ∧
      u.search2 key start = .ok o) ∨ (∀ o, start + u.part1 start ≤ o → ¬ OccursAt key u.content o) ∧
      u.search2 key start = .ok u.capacity := by
  have hl := hi.length_le
  have hc := u.capacity_lt
  have hk0 := List.length_pos_iff.2 h0
  have hbound {o : Nat} (hocc : OccursAt key u.content o) : o + key.length ≤ u.length := by
    have hb := hocc.bound h0
    rwa [RingBuffer.content_length] at hb
  unfold search2
  by_cases hp2 : key.length ≤ u.length - start - u.part1 start
  · have hlt2 : u.part1 start < u.length - start := by omega
    have hit (i : Nat) (h : i ≤ u.length - start - u.part1 start - key.length) :
        u.hit2 key i = true ↔ OccursAt key u.content (start + u.part1 start + i) :=
      (hit2_iff hi hlt2 (by omega)).trans (readsAt_iff (by omega))
    have hsub : subSz (u.length - start - u.part1 start) key.length =
        u.length - start - u.part1 start - key.length :=
      wsub_of_le hp2 (by omega)
    rw [if_pos hp2, hsub]
    rcases scan_cases (show u.length - start - u.part1 start - key.length + 1 < 2 ^ 64 by omega)
      (u.hit2 key) with
      ⟨i, hle, hh, hmin, hs⟩ | ⟨hno, hs⟩
    · refine .inl ⟨start + u.part1 start + i, Nat.le_add_right _ _, by omega, (hit i hle).1 hh,
        fun o hso hlt hocc => ?_, ?_⟩
      · obtain ⟨j, rfl⟩ := Nat.exists_eq_add_of_le hso
        have hhj := (hit j (by omega)).2 hocc
        rw [hmin j (by omega)] at hhj
        cases hhj
      · rw [hs]
        show Except.ok (addSz (addSz start (u.part1 start)) i) = _
        rw [show addSz start (u.part1 start) = _ from wadd_of_lt (by omega),
          show addSz (start + u.part1 start) i = _ from wadd_of_lt (by omega)]
    · refine .inr ⟨fun o hso hocc => ?_, by rw [hs]; rfl⟩
      have hb := hbound hocc
      obtain ⟨j, rfl⟩ := Nat.exists_eq_add_of_le hso
      have hhj := (hit j (by omega)).2 hocc
      rw [hno j (by omega)] at hhj
      cases hhj
  · rw [if_neg hp2]
    refine .inr ⟨fun o hso hocc => ?_, rfl⟩
    have hb := hbound hocc
    omega

/-- A search comes back with the place it starts from if the key can be read there, and
only then. -/
theorem findKey_start_iff : u.findKey key start = .ok start ↔ u.ReadsAt key start := by
  have hl := hi.length_le
  have hc := u.capacity_lt
  refine ⟨fun h => ?_, findKey_reads hi h0 hst hk⟩
  rw [findKey_search hi h0 hst hk] at h
  cases hs : scan (subSz (u.part1 start) key.length) (u.hit1 key start) with
  | error f => rw [hs] at h; cases h
  | ok r =>
    rw [hs] at h
    cases r with
    | some i =>
      obtain ⟨hh, hlt⟩ := scan_sound hs
      have hsum : addSz start i = start := Except.ok.inj h
      have hzero : i = 0 := by
        have hmod : (start + i) % 2 ^ 64 = start := hsum
        omega
      rw [hzero] at hh
      exact (hit1_within hi (by omega)).1 hh
    | none =>
      -- What the second loop finds lies behind the first part.
      have hpos := part1_pos hi hst
      have h : u.search2 key start = .ok start := h
      rcases search2_cases hi h0 hst hk with ⟨o, hso, -, -, -, hf⟩ | ⟨-, hf⟩
      · rw [hf] at h
        have := Except.ok.inj h
        omega
      · rw [hf] at h
        have := Except.ok.inj h
        omega

/-- What a search finds that starts in a part no shorter than its key: the first
occurrence among those it compares, or nothing. -/
theorem findKey_cases (hp : key.length ≤ u.part1 start) :
    (∃ o, u.Compared key start o ∧ OccursAt key u.content o ∧
      (∀ o' < o, u.Compared key start o' → ¬ OccursAt key u.content o') ∧ u.findKey key start = .ok o) ∨
      (∀ o, u.Compared key start o → ¬ OccursAt key u.content o) ∧ u.findKey key start = .ok u.capacity := by
  have hl := hi.length_le
  have hc := u.capacity_lt
  have hk0 := List.length_pos_iff.2 h0
  have hp' : u.part1 start ≤ u.length - start := Nat.min_le_right _ _
  have hsub : subSz (u.part1 start) key.length = u.part1 start - key.length := wsub_of_le hp (by omega)
  have hit (i : Nat) (h : i ≤ u.part1 start - key.length) :
      u.hit1 key start i = true ↔ OccursAt key u.content (start + i) :=
    (hit1_within hi (by omega)).trans (readsAt_iff (by omega))
  rcases scan_cases (show u.part1 start - key.length + 1 < 2 ^ 64 by omega) (u.hit1 key start) with
    ⟨i, hle, hh, hmin, hs⟩ | ⟨hno, hs⟩
  · refine .inl ⟨start + i, .inl ⟨by omega, by omega⟩, (hit i hle).1 hh, ?_,
      findKey_hit hi h0 hst hk (by rw [hsub, hs]) (by omega)⟩
    rintro o hlt (⟨h1, h2⟩ | ⟨h1, h2⟩) ho
    · obtain ⟨j, rfl⟩ := Nat.exists_eq_add_of_le h1
      exact absurd ((hit j (by omega)).2 ho) (by rw [hmin j (by omega)]; exact Bool.false_ne_true)
    · omega
  -- No occurrence lies in the first part.
  have hno1 (o : Nat) (h1 : start ≤ o) (h2 : o + key.length ≤ start + u.part1 start) :
      ¬ OccursAt key u.content o := by
    obtain ⟨j, rfl⟩ := Nat.exists_eq_add_of_le h1
    rw [← hit j (by omega), hno j (by omega)]
    exact Bool.false_ne_true
  have hfind : u.findKey key start = u.search2 key start := by
    rw [findKey_search hi h0 hst hk, hsub, hs]; rfl
  rw [hfind]
  rcases search2_cases hi h0 hst hk with ⟨o, hso, hb, hocc, hmin2, hf⟩ | ⟨hno2, hf⟩
  · refine .inl ⟨o, .inr ⟨hso, hb⟩, hocc, ?_, hf⟩
    rintro o' hlt (⟨h1, h2⟩ | ⟨h1, -⟩)
    · exact hno1 o' h1 h2
    · exact hmin2 o' h1 hlt
  · refine .inr ⟨?_, hf⟩
    rintro o (⟨h1, h2⟩ | ⟨h1, -⟩)
    · exact hno1 o h1 h2
    · exact hno2 o h1

/-- So it finds a stored occurrence, or nothing. -/
theorem findKey_stored (hp : key.length ≤ u.part1 start) : ∃ o, u.findKey key start = .ok o ∧
    (o = u.capacity ∨ start ≤ o ∧ o + key.length ≤ u.length ∧ OccursAt key u.content o) := by
  have hp' : u.part1 start ≤ u.length - start := Nat.min_le_right _ _
  rcases findKey_cases hi h0 hst hk hp with ⟨o, hco, hocc, -, hf⟩ | ⟨-, hf⟩
  · refine ⟨o, hf, .inr ?_⟩
    rcases hco with ⟨h1, h2⟩ | ⟨h1, h2⟩
    · exact ⟨h1, by omega, hocc⟩
    · exact ⟨by omega, h2, hocc⟩
  · exact ⟨_, hf, .inl rfl⟩

/-- It is the first stored occurrence if and only if that one does not go round the array's end. -/
theorem findKey_long_iff (hp : key.length ≤ u.part1 start) :
    u.findKey key start = .ok ((first key u.content start).getD u.capacity) ↔
      ∀ o, first key u.content start = some o → (u.readIndex + o) % u.capacity + key.length ≤ u.capacity := by
  have hk0 := List.length_pos_iff.2 h0
  have hl := hi.length_le
  have hcompared {o : Nat} (hso : start ≤ o) (hocc : OccursAt key u.content o) :
      u.Compared key start o ↔ (u.readIndex + o) % u.capacity + key.length ≤ u.capacity := by
    have hb := hocc.bound h0
    rw [RingBuffer.content_length] at hb
    exact compared_iff hi hso hb hk0
  have hge {o : Nat} (hco : u.Compared key start o) : start ≤ o := by
    rcases hco with ⟨h, -⟩ | ⟨h, -⟩ <;> omega
  rcases findKey_cases hi h0 hst hk hp with ⟨o, hco, hocc, hmin, hf⟩ | ⟨hno, hf⟩
  · rw [hf]
    constructor
    · intro heq o' hfirst
      rw [hfirst, Option.getD_some] at heq
      cases heq
      exact (hcompared (hge hco) hocc).1 hco
    · intro hends
      cases hfirst : first key u.content start with
      | none => exact absurd hocc ((first_eq_none h0).1 hfirst o (hge hco))
      | some o' =>
        obtain ⟨hso', hocc', hbefore⟩ := (first_eq_some h0).1 hfirst
        have hco' := (hcompared hso' hocc').2 (hends o' hfirst)
        have hle : o ≤ o' := Nat.le_of_not_lt fun hlt => hmin o' hlt hco' hocc'
        have hle' : o' ≤ o := Nat.le_of_not_lt fun hlt => hbefore o (hge hco) hlt hocc
        rw [Option.getD_some, Nat.le_antisymm hle hle']
  · rw [hf]
    cases hfirst : first key u.content start with
    | none => simp
    | some o =>
      obtain ⟨hso, hocc, -⟩ := (first_eq_some h0).1 hfirst
      have hb := hocc.bound h0
      rw [RingBuffer.content_length] at hb
      refine iff_of_false (fun heq => ?_) fun hends => ?_
      · have hcap := Except.ok.inj heq
        rw [Option.getD_some] at hcap
        omega
      · exact hno o ((hcompared hso hocc).2 (hends o rfl)) hocc

end

/-- The first stored occurrence, or the capacity when there is none. -/
theorem findKey_eq (h0 : key ≠ [])
    (hs : start < u.length → key.length ≤ u.length → key.length ≤ u.part1 start)
    (hx : ∀ o, start ≤ o → OccursAt key u.content o →
      (u.readIndex + o) % u.capacity + key.length ≤ u.capacity) :
    u.findKey key start = .ok ((first key u.content start).getD u.capacity) := by
  have hk0 := List.length_pos_iff.2 h0
  by_cases hg : u.length < key.length ∨ u.length ≤ start
  · rw [findKey_refused (.inr hg), (first_eq_none h0).2]
    · rfl
    · intro i hsi ho
      have := ho.bound h0
      rw [RingBuffer.content_length] at this; omega
  have hst : start < u.length := by omega
  refine (findKey_long_iff hi h0 hst (by omega) (hs hst (by omega))).2 fun o hfirst => ?_
  obtain ⟨hso, hocc, -⟩ := (first_eq_some h0).1 hfirst
  exact hx o hso hocc

theorem findKey_here (h0 : key ≠ []) (ho : OccursAt key u.content start) :
    u.findKey key start = .ok start := by
  have hk := List.length_pos_iff.2 h0
  have hb := ho.bound h0
  rw [RingBuffer.content_length] at hb
  exact findKey_reads hi h0 (by omega) (by omega) ((readsAt_iff hb).2 ho)

/-! ## The search that starts in a short part -/

/-- The bound of the first loop, wrapped. -/
theorem findKey_short_bound (hp : u.part1 start < key.length) (hk : key.length ≤ u.length) :
    subSz (u.part1 start) key.length = 2 ^ 64 - (key.length - u.part1 start) :=
  wsub_of_lt hp (by have := hi.length_le; have := u.capacity_lt; omega)

section
variable (hst : start < u.length) (hk : key.length ≤ u.length) (hp : u.part1 start < key.length)
include hst hk hp

/-- The first hit, over stored bytes and dead cells alike. -/
theorem findKey_short_hit {i : Nat} (hik : (u.readIndex + start) % u.capacity + i + key.length ≤ 2 ^ 64)
    (hsi : start + i < 2 ^ 64) (hr : u.ReadsAt key (start + i))
    (hmin : ∀ j < i, ¬ u.ReadsAt key (start + j)) :
    u.findKey key start = .ok (start + i) := by
  have h0 : key ≠ [] := List.ne_nil_of_length_pos (by omega)
  refine findKey_hit hi h0 hst hk ?_ hsi
  rw [findKey_short_bound hi hp hk]
  refine scan_hit (by omega) (by omega) ((hit1_iff hik).2 hr) fun j hj => ?_
  rw [← Bool.not_eq_true, hit1_iff (by omega)]
  exact hmin j hj

/-- With a hit somewhere in the array the search comes back, with some hit no later than it. -/
theorem findKey_short {i : Nat} (hik : (u.readIndex + start) % u.capacity + i + key.length ≤ 2 ^ 64)
    (hsi : start + i < 2 ^ 64) (hr : u.ReadsAt key (start + i)) : ∃ o,
    u.findKey key start = .ok o ∧ start ≤ o ∧ o ≤ start + i ∧ u.ReadsAt key o := by
  have hex : ∃ i, u.ReadsAt key (start + i) := ⟨i, hr⟩
  have hle : Nat.find hex ≤ i := Nat.find_min' hex hr
  exact ⟨_, findKey_short_hit hi hst hk hp (by omega) (by omega) (Nat.find_spec hex) fun j hj =>
    Nat.find_min hex hj, by omega, by omega, Nat.find_spec hex⟩

omit hp in
/-- With the part one byte too short and no hit for any value of the counter, the search never ends. -/
theorem findKey_diverges (hp : u.part1 start + 1 = key.length)
    (hno : ∀ i < 2 ^ 64, u.hit1 key start i = false) :
    u.findKey key start = .error .diverges := by
  have h0 : key ≠ [] := List.ne_nil_of_length_pos (by omega)
  rw [findKey_search hi h0 hst hk, findKey_short_bound hi (by omega) hk, scan,
    forUpTo_runs (by omega) hno _ (by omega)]
  rfl

end

/-! ## Where a search comes back -/

/-- A search that starts in a part as long as its key comes back, and with another
place when the key does not stand where it starts. -/
theorem findKey_elsewhere (h0 : key ≠ []) (hb : start + key.length ≤ u.length)
    (hp : key.length ≤ u.part1 start) (hno : ¬ OccursAt key u.content start) :
    ∃ o, u.findKey key start = .ok o ∧ o ≠ start := by
  have hl := hi.length_le
  have hk := List.length_pos_iff.2 h0
  obtain ⟨o, hf, rfl | ⟨-, -, ho⟩⟩ := findKey_stored hi h0 (by omega) (by omega) hp
  · exact ⟨_, hf, by omega⟩
  · exact ⟨o, hf, fun h => hno (h ▸ ho)⟩

/-- A search whose key can be read somewhere behind its start comes back, and with its
start when the key can be read there. -/
theorem findKey_there (hst : start < u.length) (hk : key.length ≤ u.length) (h0 : key ≠ [])
    (hx : key.length ≤ u.part1 start ∨ ∃ x, start ≤ x ∧ x + u.readIndex + key.length ≤ 2 ^ 64 ∧
      u.ReadsAt key x) :
    ∃ t, u.findKey key start = .ok t ∧ (t = start ↔ u.ReadsAt key start) := by
  by_cases hr : u.ReadsAt key start
  · exact ⟨start, findKey_reads hi h0 hst hk hr, iff_of_true rfl hr⟩
  by_cases hp : key.length ≤ u.part1 start
  · have hpl : u.part1 start ≤ u.length - start := Nat.min_le_right _ _
    obtain ⟨t, hf, hne⟩ := findKey_elsewhere hi h0 (by omega) hp (by rwa [readsAt_iff (by omega)] at hr)
    exact ⟨t, hf, iff_of_false hne hr⟩
  · obtain ⟨x, hsx, hw, hrx⟩ := hx.resolve_left hp
    have hm : (u.readIndex + start) % u.capacity ≤ u.readIndex + start := Nat.mod_le _ _
    obtain ⟨t, hf, -, -, hrt⟩ := findKey_short hi hst hk (by omega) (i := x - start) (by omega) (by
      have := List.length_pos_iff.2 h0
      omega) (by rwa [Nat.add_sub_cancel' hsx])
    exact ⟨t, hf, iff_of_false (by rintro rfl; exact hr hrt) hr⟩

/-- What is found lies between the place the search starts at and the capacity, as
long as the first loop ends in time. -/
theorem findKey_ge (h : u.findKey key start = .ok o) (hne : o ≠ u.capacity)
    (hs : key.length ≤ u.part1 start ∨ ∃ i, start + i + key.length ≤ u.capacity ∧
      u.ReadsAt key (start + i)) :
    start ≤ o ∧ o ≤ u.capacity := by
  have hl := hi.length_le
  have hc := u.capacity_lt
  by_cases hg : key = [] ∨ u.length < key.length ∨ u.length ≤ start
  · rw [findKey_refused hg] at h
    exact absurd (Except.ok.inj h).symm hne
  simp only [not_or, Nat.not_lt, Nat.not_le] at hg
  obtain ⟨h0, hk, hst⟩ := hg
  by_cases hp : key.length ≤ u.part1 start
  · obtain ⟨o', hf, ho'⟩ := findKey_stored hi h0 hst hk hp
    rw [hf] at h
    cases h
    obtain ⟨hge, hle, -⟩ := ho'.resolve_left hne
    omega
  · obtain ⟨i, hik, hr⟩ := hs.resolve_left hp
    have hm := absStart_lt hi start
    obtain ⟨o', ho', hge, hle, -⟩ := findKey_short hi hst hk (by omega) (i := i) (by omega) (by omega) hr
    rw [ho'] at h
    cases h; exact ⟨hge, by omega⟩

end

end NebulaToolkit.UnPacker
