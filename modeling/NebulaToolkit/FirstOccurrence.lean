import NebulaToolkit.FindKey
/-!
# When `FindKey` is a search for the first stored occurrence

For every ring, key and start: `FindKey` returns the first stored occurrence of
the key at or after `start`, or the capacity where there is none, if and only if
`FindsFirst` holds. The search goes wrong in two ways: an occurrence that goes
round the array's end is compared by neither loop, and in a part shorter than
the key the first loop runs on over dead cells.
-/

namespace NebulaToolkit.UnPacker

open Lib

variable {u : UnPacker} {key : List UInt8} {start : Nat}

/-- What a search for the first stored occurrence returns. -/
def firstStored (u : UnPacker) (key : List UInt8) (start : Nat) : Nat :=
  if key = [] then u.capacity else (first key u.content start).getD u.capacity

/-- `key` can be read from the `i`th cell behind the start on, going round the end and over dead cells.
The numbers of the cells are words: they wrap before they are reduced by the capacity. -/
def ReadsFrom (u : UnPacker) (key : List UInt8) (start i : Nat) : Prop :=
  ∀ j < key.length,
    some (u.cell (addSz (addSz ((u.readIndex + start) % u.capacity) i) j % u.capacity)) = key[j]?

instance (u : UnPacker) (key : List UInt8) (start i : Nat) : Decidable (u.ReadsFrom key start i) :=
  inferInstanceAs (Decidable (∀ j < key.length, _))

inductive FindsFirst (u : UnPacker) (key : List UInt8) (start : Nat) : Prop
  /-- There is nothing to search, ... -/
  | refused : key = [] ∨ u.length < key.length ∨ u.length ≤ start → FindsFirst u key start
  /-- ... or the search begins at least a key's length before the end of its part, and the first
  occurrence does not go round the array's end, ... -/
  | long : key.length ≤ u.part1 start →
      (∀ o, first key u.content start = some o → (u.readIndex + o) % u.capacity + key.length ≤ u.capacity) →
      FindsFirst u key start
  /-- ... or it begins closer to it, and the first place where the key can be read is stored, or as far
  from the first stored byte as the capacity, which is the number that says "not found", ... -/
  | short (i : Nat) : u.part1 start < key.length → u.ReadsFrom key start i →
      (∀ j < i, ¬ u.ReadsFrom key start j) →
      (start + i + key.length ≤ u.length ∨ start + i = u.capacity) → FindsFirst u key start
  /-- ... or the key can be read nowhere, and the first loop has an end. -/
  | nowhere : u.part1 start + 1 < key.length →
      (∀ i, i + key.length ≤ 2 ^ 64 + u.part1 start → ¬ u.ReadsFrom key start i) → FindsFirst u key start

theorem hit1_iff_readsFrom (i : Nat) : u.hit1 key start i = true ↔ u.ReadsFrom key start i := by
  rw [hit1, keyMatches_iff]
  exact forall₂_congr fun j _ => by rw [Nat.zero_add]

section
variable (hi : u.Inv)
include hi

/-- Near the start the cells are those that follow it. -/
theorem readsFrom_iff {i : Nat} (hik : start + i + key.length ≤ u.length) :
    u.ReadsFrom key start i ↔ OccursAt key u.content (start + i) := by
  have hl := hi.length_le
  rw [← hit1_iff_readsFrom, hit1_within hi (by omega), readsAt_iff hik]

section
variable (h0 : key ≠ []) (hst : start < u.length) (hk : key.length ≤ u.length)
include h0 hst hk

/-! ## The search that starts in a short part -/

omit hst hk in
/-- What should be returned, by the first place where the key can be read: stored places come first. -/
theorem firstStored_of_reads {i : Nat} (hr : u.ReadsFrom key start i)
    (hmin : ∀ j < i, ¬ u.ReadsFrom key start j) :
    u.firstStored key start = if start + i + key.length ≤ u.length then start + i else u.capacity := by
  have hk0 := List.length_pos_iff.2 h0
  have hnone (o : Nat) (hso : start ≤ o) (hlt : o < start + i ∨ u.length < start + i + key.length) :
      ¬ OccursAt key u.content o := by
    intro hocc
    have hb := hocc.bound h0
    rw [RingBuffer.content_length] at hb
    obtain ⟨j, rfl⟩ := Nat.exists_eq_add_of_le hso
    exact hmin j (by omega) ((readsFrom_iff hi hb).2 hocc)
  rw [firstStored, if_neg h0]
  split
  · rename_i hstored
    rw [(first_eq_some h0).2 ⟨Nat.le_add_right _ _, (readsFrom_iff hi hstored).1 hr,
      fun j h1 h2 => hnone j h1 (.inl h2)⟩]
    rfl
  · rename_i hdead
    rw [(first_eq_none h0).2 fun j h1 => hnone j h1 (.inr (by omega))]
    rfl

/-- With a place where the key can be read within the bound of the first loop, the first such place is
returned. -/
theorem findKey_reads_iff (hp : u.part1 start < key.length) {i : Nat}
    (hik : i + key.length ≤ 2 ^ 64 + u.part1 start) (hr : u.ReadsFrom key start i)
    (hmin : ∀ j < i, ¬ u.ReadsFrom key start j) :
    u.findKey key start = .ok (u.firstStored key start) ↔
    start + i + key.length ≤ u.length ∨ start + i = u.capacity := by
  have hl := hi.length_le
  have hc := u.capacity_lt
  have hscan : scan (subSz (u.part1 start) key.length) (u.hit1 key start) = .ok (some i) := by
    rw [findKey_short_bound hi hp hk]
    refine scan_hit (by omega) (by omega) ((hit1_iff_readsFrom i).2 hr) fun j hj => ?_
    rw [← Bool.not_eq_true, hit1_iff_readsFrom]
    exact hmin j hj
  have hfind : u.findKey key start = .ok (addSz start i) := by
    rw [findKey_search hi h0 hst hk, hscan]
    rfl
  rw [hfind, firstStored_of_reads hi h0 hr hmin, Except.ok.injEq]
  split
  · rename_i hstored
    exact iff_of_true (wadd_of_lt (by omega)) (.inl hstored)
  · rename_i hdead
    constructor
    · intro heq
      -- The sum has not wrapped past the capacity.
      have hmod : (start + i) % 2 ^ 64 = u.capacity := heq
      exact .inr (by omega)
    · rintro (hstored | hcap)
      · exact absurd hstored hdead
      · rw [← hcap]
        exact wadd_of_lt (by omega)

/-- Where the key can be read nowhere, the second loop finds nothing either. -/
theorem findKey_nowhere (hp : u.part1 start + 1 < key.length)
    (hno : ∀ i, i + key.length ≤ 2 ^ 64 + u.part1 start → ¬ u.ReadsFrom key start i) :
    u.findKey key start = .ok u.capacity := by
  have hl := hi.length_le
  have hc := u.capacity_lt
  have hmiss (i : Nat) (h : i + key.length ≤ 2 ^ 64 + u.part1 start) : u.hit1 key start i = false := by
    rw [← Bool.not_eq_true, hit1_iff_readsFrom]
    exact hno i h
  have hscan : scan (subSz (u.part1 start) key.length) (u.hit1 key start) = .ok none := by
    rw [findKey_short_bound hi (by omega) hk]
    rcases scan_cases (show 2 ^ 64 - (key.length - u.part1 start) + 1 < 2 ^ 64 by omega)
      (u.hit1 key start) with
      ⟨i, hle, hh, -, -⟩ | ⟨-, hs⟩
    · rw [hmiss i (by omega)] at hh
      cases hh
    · exact hs
  rw [findKey_search hi h0 hst hk, hscan]
  show u.search2 key start = _
  rcases search2_cases hi h0 hst hk with ⟨o, hso, hb, hocc, -, -⟩ | ⟨-, hf⟩
  · -- A stored occurrence can be read.
    obtain ⟨i, rfl⟩ := Nat.exists_eq_add_of_le (show start ≤ o by omega)
    exact absurd ((readsFrom_iff hi hb).2 hocc) (hno i (by omega))
  · exact hf

end

omit hi in
theorem firstStored_of_none (h : ∀ o, start ≤ o → key ≠ [] → ¬ OccursAt key u.content o) :
    u.firstStored key start = u.capacity := by
  unfold firstStored
  split
  · rfl
  · rename_i h0
    rw [(first_eq_none h0).2 fun o hso => h o hso h0]
    rfl

omit hi in
theorem firstStored_refused (h : key = [] ∨ u.length < key.length ∨ u.length ≤ start) :
    u.firstStored key start = u.capacity := by
  refine firstStored_of_none fun o hso h0 hocc => ?_
  have hk0 := List.length_pos_iff.2 h0
  have hb := hocc.bound h0
  rw [RingBuffer.content_length] at hb
  rcases h with h | h | h
  · exact h0 h
  · omega
  · omega

/-! ## The exact condition -/

section
variable (href : ¬ (key = [] ∨ u.length < key.length ∨ u.length ≤ start))
include href

omit hi in
theorem findsFirst_long_iff (hp : key.length ≤ u.part1 start) : u.FindsFirst key start ↔
    ∀ o, first key u.content start = some o → (u.readIndex + o) % u.capacity + key.length ≤ u.capacity := by
  constructor
  · intro hfinds
    cases hfinds with
    | refused h => exact absurd h href
    | long _ hends => exact hends
    | short i h => exact absurd hp (Nat.not_le.2 h)
    | nowhere h => exact absurd hp (Nat.not_le.2 (Nat.lt_of_succ_lt h))
  · exact .long hp

omit hi in
theorem findsFirst_short_iff (hp : u.part1 start < key.length) : u.FindsFirst key start ↔
    (∃ i, u.ReadsFrom key start i ∧ (∀ j < i, ¬ u.ReadsFrom key start j) ∧
      (start + i + key.length ≤ u.length ∨ start + i = u.capacity)) ∨
      u.part1 start + 1 < key.length ∧ ∀ i, i + key.length ≤ 2 ^ 64 + u.part1 start →
      ¬ u.ReadsFrom key start i := by
  constructor
  · intro hfinds
    cases hfinds with
    | refused h => exact absurd h href
    | long h _ => exact absurd h (Nat.not_le.2 hp)
    | short i _ hr hmin hgood => exact .inl ⟨i, hr, hmin, hgood⟩
    | nowhere h hno => exact .inr ⟨h, hno⟩
  · rintro (⟨i, hr, hmin, hgood⟩ | ⟨h, hno⟩)
    · exact .short i hp hr hmin hgood
    · exact .nowhere h hno

/-- A search that starts in a short part. -/
theorem findKey_short_iff (hp : u.part1 start < key.length) :
    u.findKey key start = .ok (u.firstStored key start) ↔ u.FindsFirst key start := by
  obtain ⟨h0, hk, hst⟩ := (not_or.1 href).imp_right not_or.1
  rw [Nat.not_lt] at hk
  rw [Nat.not_le] at hst
  have hl := hi.length_le
  have hc := u.capacity_lt
  rw [findsFirst_short_iff href hp]
  by_cases hex : ∃ i, i + key.length ≤ 2 ^ 64 + u.part1 start ∧ u.ReadsFrom key start i
  · obtain ⟨hik, hr⟩ := Nat.find_spec hex
    have hmin (j : Nat) (hj : j < Nat.find hex) : ¬ u.ReadsFrom key start j := fun hrj =>
      Nat.find_min hex hj ⟨by omega, hrj⟩
    rw [findKey_reads_iff hi h0 hst hk hp hik hr hmin]
    constructor
    · intro hgood
      exact .inl ⟨_, hr, hmin, hgood⟩
    · rintro (⟨i, hri, hmini, hgood⟩ | ⟨-, hno⟩)
      · -- There is one first place.
        have hle : Nat.find hex ≤ i := Nat.le_of_not_lt fun hlt => hmin i hlt hri
        have hge : i ≤ Nat.find hex := Nat.le_of_not_lt fun hlt => hmini _ hlt hr
        rw [Nat.le_antisymm hle hge]
        exact hgood
      · exact absurd hr (hno _ hik)
  have hno (i : Nat) (hik : i + key.length ≤ 2 ^ 64 + u.part1 start) : ¬ u.ReadsFrom key start i :=
    fun hr => hex ⟨i, hik, hr⟩
  by_cases hshort : u.part1 start + 1 < key.length
  · have hnone : u.firstStored key start = u.capacity := by
      refine firstStored_of_none fun o hso _ hocc => ?_
      have hb := hocc.bound h0
      rw [RingBuffer.content_length] at hb
      obtain ⟨i, rfl⟩ := Nat.exists_eq_add_of_le hso
      exact hno i (by omega) ((readsFrom_iff hi hb).2 hocc)
    rw [hnone]
    exact iff_of_true (findKey_nowhere hi h0 hst hk hshort hno) (.inr ⟨hshort, hno⟩)
  · -- The first loop never ends.
    have hdiverges : u.findKey key start = .error .diverges := by
      refine findKey_diverges hi hst hk (by omega) fun i hlt => ?_
      rw [← Bool.not_eq_true, hit1_iff_readsFrom]
      exact hno i (by omega)
    rw [hdiverges]
    refine iff_of_false (fun h => nomatch h) ?_
    rintro (⟨i, hri, -, hgood⟩ | ⟨h, -⟩)
    · exact hno i (by omega) hri
    · exact hshort h

end

end

/-- `FindKey` is a search for the first stored occurrence if and only if `FindsFirst` holds. -/
theorem finds_first_iff (u : UnPacker) (key : List UInt8) (start : Nat) (hi : u.Inv) :
    u.findKey key start = .ok (u.firstStored key start) ↔ u.FindsFirst key start := by
  by_cases href : key = [] ∨ u.length < key.length ∨ u.length ≤ start
  · rw [findKey_refused href, firstStored_refused href]
    exact iff_of_true rfl (.refused href)
  by_cases hp : key.length ≤ u.part1 start
  · obtain ⟨h0, hk, hst⟩ := (not_or.1 href).imp_right not_or.1
    rw [findsFirst_long_iff href hp, firstStored, if_neg h0]
    exact findKey_long_iff hi h0 (Nat.not_le.1 hst) (Nat.not_lt.1 hk) hp
  · exact findKey_short_iff hi href (Nat.not_le.1 hp)

theorem four_le_maxSize : 4 ≤ maxSize := by decide

/-- The bytes 1, 7 and 8 in four cells; 8 has gone round to the first one. -/
def wrapped : UnPacker :=
  { createBasic [1] [] 4 four_le_maxSize with
    readIndex := 2
    writeIndex := 1
    length := 3
    buffer := [8, 0, 1, 7]
    size_le := by decide }

theorem wrapped_inv : wrapped.Inv := by
  constructor <;> decide

/-- The theorem for a search that begins where the key goes round the end. -/
theorem finds_first_there : wrapped.findKey [7, 8] 1 = .ok 1 := by
  refine (finds_first_iff wrapped [7, 8] 1 wrapped_inv).2 ?_
  exact .short 0 (by decide) (by decide) (fun j hj => absurd hj (Nat.not_lt_zero j)) (.inl (by decide))

/-- One that begins a byte earlier does not find it. -/
theorem finds_nothing_before : wrapped.Inv ∧ first [7, 8] wrapped.content 0 = some 1 ∧
    wrapped.findKey [7, 8] 0 = .ok wrapped.capacity :=
  ⟨wrapped_inv, by decide, by decide⟩

end NebulaToolkit.UnPacker
