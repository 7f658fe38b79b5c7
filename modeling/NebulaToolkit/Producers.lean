import NebulaToolkit.ZeroCopy
/-!
# Several producers on the zero-copy interface

Each producer asks for a write window, copies bytes into it and commits them.
Every call holds the mutex, but nothing records that a window was given out:
until the commit the next to ask gets the same cells, and after it an older
window still points to them.
-/

namespace NebulaToolkit.Producers

open Lib RingBuffer

/-- Where a producer stands: outside, holding a window of `size` bytes at `start`, or with `xs` copied to
`start`. -/
inductive Phase where
  | idle
  | window (start size : Nat)
  | copied (start : Nat) (xs : List UInt8)

structure State (ι : Type) where
  ring : RingBuffer
  phase : ι → Phase := fun _ => .idle
  /-- The bytes copied for each successful commit, in the order of the commits. -/
  commits : List (List UInt8) := []

section
variable {ι : Type} [DecidableEq ι]

namespace State

def getLinearWriteSpace (s : State ι) (i : ι) : State ι :=
  let window := s.ring.getLinearWriteSpace
  { s with phase := Function.update s.phase i (.window window.1 window.2) }

/-- `memcpy` into the window at `start`. -/
def copy (s : State ι) (i : ι) (start : Nat) (xs : List UInt8) : State ι :=
  { s with ring := s.ring.store start xs, phase := Function.update s.phase i (.copied start xs) }

def commitWriteSize (s : State ι) (i : ι) (xs : List UInt8) : State ι :=
  let r := s.ring.commitWriteSize xs.length
  { ring := r.2
    phase := Function.update s.phase i .idle
    commits := if r.1 = .kSuccess then s.commits ++ [xs] else s.commits }

end State

inductive Step : State ι → State ι → Prop
  /-- A producer whose window is empty asks again. -/
  | getLinearWriteSpace {s : State ι} (i : ι) : (∀ start xs, s.phase i ≠ .copied start xs) →
      Step s (s.getLinearWriteSpace i)
  | copy {s : State ι} {i : ι} {start size : Nat} (xs : List UInt8) : s.phase i = .window start size →
      xs ≠ [] → xs.length ≤ size → Step s (s.copy i start xs)
  | commitWriteSize {s : State ι} {i : ι} {start : Nat} {xs : List UInt8} : s.phase i = .copied start xs →
      Step s (s.commitWriteSize i xs)

/-- All producers outside, on an empty ring, wherever its indices stand. -/
def Start (s : State ι) : Prop := ∃ ring : RingBuffer, ring.Inv ∧ ring.length = 0 ∧ s = { ring := ring }

/-- The stored bytes are those of the commits, one commit behind the other. -/
def NothingLost (s : State ι) : Prop := s.ring.content = s.commits.flatten

/-- A producer copies into a window that is no longer the free space, or in which another one has copied
and not committed. -/
def Clobbers (s s' : State ι) : Prop :=
  ∃ i start size xs, s.phase i = .window start size ∧ s' = s.copy i start xs ∧
    (s.ring.getLinearWriteSpace ≠ (start, size) ∨ ∃ j start' ys, s.phase j = .copied start' ys)

variable {s s' : State ι}

/-! ## Copies and commits -/

/-- A copy into the write window leaves the stored bytes. -/
theorem store_window {rb : RingBuffer} (hi : rb.Inv) {xs : List UInt8}
    (h : xs.length ≤ rb.getLinearWriteSpace.2) :
    (rb.store rb.writeIndex xs).content = rb.content := by
  have hw := hi.write_lt
  simp only [getLinearWriteSpace_eq hi] at h
  exact ZeroCopy.store_content (n := 0) hi (by omega) (by omega)

@[simp] theorem getLinearWriteSpace_store (rb : RingBuffer) (start : Nat) (xs : List UInt8) :
    (rb.store start xs).getLinearWriteSpace = rb.getLinearWriteSpace := by
  simp only [RingBuffer.getLinearWriteSpace, availableToWrite, capacity_store]
  rfl

/-- A producer that has copied: its bytes are the first of the free space. -/
structure Reserved (rb : RingBuffer) (start : Nat) (xs : List UInt8) : Prop where
  start_eq : start = rb.writeIndex
  fits : xs.length ≤ rb.getLinearWriteSpace.2
  bytes : slice rb.buffer start xs.length = xs

/-- At most one producer has copied and not committed. -/
structure Safe (s : State ι) : Prop where
  inv : s.ring.Inv
  nothingLost : NothingLost s
  copied : ∀ i start xs, s.phase i = .copied start xs → Reserved s.ring start xs
  one : ∀ i j start start' xs ys, s.phase i = .copied start xs → s.phase j = .copied start' ys → i = j

omit [DecidableEq ι] in
theorem start_safe (h : Start s) : Safe s := by
  obtain ⟨ring, hi, h0, rfl⟩ := h
  refine ⟨hi, ?_, fun i start xs hc => (nomatch hc), fun i j start start' xs ys hc => nomatch hc⟩
  exact List.eq_nil_of_length_eq_zero ((content_length ring).trans h0)

/-- Only the phase of `i` changes, and it has not copied. -/
theorem Safe.setPhase (h : Safe s) (i : ι) {p : Phase} (hp : ∀ start xs, p ≠ .copied start xs) :
    Safe { s with phase := Function.update s.phase i p } := by
  have hother {k : ι} {start : Nat} {xs : List UInt8}
      (hk : Function.update s.phase i p k = .copied start xs) :
      s.phase k = .copied start xs := by
    by_cases hki : k = i
    · subst hki
      rw [Function.update_self] at hk
      exact absurd hk (hp start xs)
    · rwa [Function.update_of_ne hki] at hk
  exact ⟨h.inv, h.nothingLost, fun k start xs hk => h.copied k start xs (hother hk),
    fun k j start start' xs ys hk hj => h.one k j start start' xs ys (hother hk) (hother hj)⟩

theorem Safe.copy (h : Safe s) {i : ι} {start size : Nat} {xs : List UInt8}
    (hp : s.phase i = .window start size) (hle : xs.length ≤ size)
    (hc : ¬ Clobbers s (s.copy i start xs)) : Safe (s.copy i start xs) := by
  have hwindow : s.ring.getLinearWriteSpace = (start, size) := by
    by_contra hne
    exact hc ⟨i, start, size, xs, hp, rfl, .inl hne⟩
  have hnone (j : ι) (start' : Nat) (ys : List UInt8) : s.phase j ≠ .copied start' ys := fun hj =>
    hc ⟨i, start, size, xs, hp, rfl, .inr ⟨j, start', ys, hj⟩⟩
  have hstart : start = s.ring.writeIndex := (congrArg Prod.fst hwindow).symm
  have hfits : xs.length ≤ s.ring.getLinearWriteSpace.2 := by rw [hwindow]; exact hle
  have honly {k : ι} {start' : Nat} {ys : List UInt8}
      (hk : Function.update s.phase i (.copied start xs) k = .copied start' ys) :
      k = i ∧ start = start' ∧ xs = ys := by
    by_cases hki : k = i
    · subst hki
      rw [Function.update_self] at hk
      cases hk
      exact ⟨rfl, rfl, rfl⟩
    · rw [Function.update_of_ne hki] at hk
      exact absurd hk (hnone k start' ys)
  refine ⟨ZeroCopy.store_inv h.inv start xs, ?_, fun k start' ys hk => ?_,
    fun k j start' start'' ys zs hk hj => ?_⟩
  · subst hstart
    exact (store_window h.inv hfits).trans h.nothingLost
  · obtain ⟨-, rfl, rfl⟩ := honly hk
    refine ⟨hstart, by simpa [State.copy] using hfits, slice_put ?_⟩
    have hw := h.inv.write_lt
    rw [getLinearWriteSpace_eq h.inv] at hfits
    show start + xs.length ≤ s.ring.capacity
    dsimp only at hfits
    omega
  · exact (honly hk).1.trans (honly hj).1.symm

theorem Safe.commitWriteSize (h : Safe s) {i : ι} {start : Nat} {xs : List UInt8}
    (hp : s.phase i = .copied start xs) :
    Safe (s.commitWriteSize i xs) := by
  obtain ⟨rfl, hfits, hbytes⟩ := h.copied i start xs hp
  have hl := h.inv.length_le
  have hw := h.inv.write_lt
  rw [getLinearWriteSpace_eq h.inv] at hfits
  dsimp only at hfits
  have hidle := h.setPhase i (p := .idle) fun start xs he => nomatch he
  have hnone {k : ι} {start' : Nat} {ys : List UInt8}
      (hk : Function.update s.phase i .idle k = .copied start' ys) : False := by
    by_cases hki : k = i
    · subst hki
      rw [Function.update_self] at hk
      cases hk
    · rw [Function.update_of_ne hki] at hk
      exact hki (h.one k i _ _ _ _ hk hp)
  unfold State.commitWriteSize
  rw [commitWriteSize_eq h.inv, if_pos (by omega)]
  refine ⟨h.inv.growBack (by omega), ?_, fun k start' ys hk => (hnone hk).elim,
    fun k j start' start'' ys zs hk => (hnone hk).elim⟩
  show (s.ring.growBack xs.length).content =
    (if Result.kSuccess = .kSuccess then s.commits ++ [xs] else s.commits).flatten
  rw [ZeroCopy.growBack_content h.inv (by omega), hbytes, if_pos rfl, List.flatten_concat, h.nothingLost]

theorem step_safe (h : Safe s) (hs : Step s s') (hc : ¬ Clobbers s s') : Safe s' := by
  cases hs with
  | getLinearWriteSpace i _ => exact h.setPhase i fun start xs he => nomatch he
  | copy xs hp _ hle => exact h.copy hp hle hc
  | commitWriteSize hp => exact h.commitWriteSize hp

/-- What an old window is about: a copy to a stored byte replaces it. -/
theorem copy_overwrites (i : ι) {start j : Nat} {b : UInt8} {xs : List UInt8} (hj : j < s.ring.length)
    (hstart : start = (s.ring.readIndex + j) % s.ring.capacity)
    (hend : start + (b :: xs).length ≤ s.ring.capacity) :
    (s.copy i start (b :: xs)).ring.content[j]? = some b := by
  have hcontent : (s.copy i start (b :: xs)).ring.content =
      cyc (put s.ring.buffer start (b :: xs)) s.ring.readIndex s.ring.length := rfl
  rw [hcontent, List.getElem?_eq_getElem (by rwa [cyc_length]), getElem_cyc, put_length, getD_put hend]
  unfold capacity at hstart
  rw [← hstart, if_pos (by simp)]
  simp

/-- As long as producers copy only into free space of which no other has copied into it, the ring
holds what was committed. -/
theorem producers_lose_nothing (s₀ : State ι) (run : List (State ι)) (h : IsRun Start Step s₀ run)
    (hc : (s₀ :: run).IsChain fun s s' => ¬ Clobbers s s') : ∀ s ∈ s₀ :: run, NothingLost s := by
  intro s hs
  have hsafe : Safe s :=
    (h.and hc).inv (fun _ hs => start_safe hs) (fun _ _ hs hss' => step_safe hs hss'.1 hss'.2) s hs
  exact hsafe.nothingLost

/-- Nobody has copied after the step. -/
theorem not_clobbers_of_none (h : ∀ i start xs, s'.phase i ≠ .copied start xs) : ¬ Clobbers s s' := by
  rintro ⟨i, start, size, xs, -, rfl, -⟩
  exact h i start xs (Function.update_self ..)

/-- The window copied to is the free space, and nobody else has copied. -/
theorem not_clobbers_copy {i : ι} {start size : Nat} {xs : List UInt8} (hp : s.phase i = .window start size)
    (hwindow : s.ring.getLinearWriteSpace = (start, size))
    (hnone : ∀ j start' ys, s.phase j ≠ .copied start' ys) :
    ¬ Clobbers s (s.copy i start xs) := by
  rintro ⟨j, start', size', xs', hj, heq, hbad⟩
  have hphase : Function.update s.phase i (.copied start xs) j = .copied start' xs' :=
    (congrArg (State.phase · j) heq).trans (Function.update_self ..)
  have hji : j = i := by
    by_contra hji
    rw [Function.update_of_ne hji] at hphase
    exact hnone j start' xs' hphase
  rw [hji, hp] at hj
  cases hj
  rcases hbad with hne | ⟨k, start'', ys, hk⟩
  · exact hne hwindow
  · exact hnone k start'' ys hk

end

theorem four_le_maxSize : 4 ≤ maxSize := by decide

/-- A new ring with four cells. -/
def sampleStart : State Bool := { ring := ofSize 4 four_le_maxSize }

theorem sampleStart_start : Start sampleStart := ⟨_, ofSize_inv _ (by decide), rfl, rfl⟩

/-- One transaction behind the other. -/
def inTurn : List (State Bool) :=
  let s₁ := sampleStart.getLinearWriteSpace true
  let s₂ := s₁.copy true 0 [1]
  let s₃ := s₂.commitWriteSize true [1]
  let s₄ := s₃.getLinearWriteSpace false
  let s₅ := s₄.copy false 1 [2, 3]
  [s₁, s₂, s₃, s₄, s₅, s₅.commitWriteSize false [2, 3]]

/-- Both ask for a window before either copies. -/
def overlapping : List (State Bool) :=
  let s₁ := sampleStart.getLinearWriteSpace true
  let s₂ := s₁.getLinearWriteSpace false
  let s₃ := s₂.copy true 0 [1]
  let s₄ := s₃.commitWriteSize true [1]
  let s₅ := s₄.copy false 0 [2, 3]
  [s₁, s₂, s₃, s₄, s₅, s₅.commitWriteSize false [2, 3]]

theorem inTurn_run : IsRun Start Step sampleStart inTurn := by
  refine ⟨sampleStart_start, .cons_cons (.getLinearWriteSpace true fun start xs h => nomatch h) <|
    .cons_cons (.copy [1] rfl (List.cons_ne_nil _ _) (by decide)) <| .cons_cons (.commitWriteSize rfl) <|
    .cons_cons (.getLinearWriteSpace false fun start xs h => nomatch h) <|
    .cons_cons (.copy [2, 3] rfl (List.cons_ne_nil _ _) (by decide)) <|
    .cons_cons (.commitWriteSize rfl) (.singleton _)⟩

theorem overlapping_run : IsRun Start Step sampleStart overlapping := by
  refine ⟨sampleStart_start, .cons_cons (.getLinearWriteSpace true fun start xs h => nomatch h) <|
    .cons_cons (.getLinearWriteSpace false fun start xs h => nomatch h) <|
    .cons_cons (.copy [1] rfl (List.cons_ne_nil _ _) (by decide)) <| .cons_cons (.commitWriteSize rfl) <|
    .cons_cons (.copy [2, 3] rfl (List.cons_ne_nil _ _) (by decide)) <|
    .cons_cons (.commitWriteSize rfl) (.singleton _)⟩

/-- The theorem for two transactions that do not overlap. -/
theorem producers_lose_nothing_inTurn : ∃ (s₀ : State Bool) (run : List (State Bool)),
    IsRun Start Step s₀ run ∧ (∃ s ∈ run, s.commits = [[1], [2, 3]]) ∧
    ∀ s ∈ s₀ :: run, NothingLost s := by
  refine ⟨sampleStart, inTurn, inTurn_run,
    ⟨_, .tail _ (.tail _ (.tail _ (.tail _ (.tail _ (.head _))))), rfl⟩,
    producers_lose_nothing sampleStart inTurn inTurn_run ?_⟩
  have hnone (s s' : State Bool) (ht : ∀ start xs, s'.phase true ≠ .copied start xs)
      (hf : ∀ start xs, s'.phase false ≠ .copied start xs) : ¬ Clobbers s s' :=
    not_clobbers_of_none (Bool.forall_bool.2 ⟨hf, ht⟩)
  have hcopy₁ : ¬ Clobbers (sampleStart.getLinearWriteSpace true)
      ((sampleStart.getLinearWriteSpace true).copy true 0 [1]) :=
    not_clobbers_copy rfl rfl (Bool.forall_bool.2 ⟨fun _ _ h => (nomatch h), fun _ _ h => nomatch h⟩)
  unfold inTurn
  refine .cons_cons (hnone _ _ (fun _ _ h => nomatch h) fun _ _ h => nomatch h) <| .cons_cons hcopy₁ <|
    .cons_cons (hnone _ _ (fun _ _ h => nomatch h) fun _ _ h => nomatch h) <|
    .cons_cons (hnone _ _ (fun _ _ h => nomatch h) fun _ _ h => nomatch h) <| .cons_cons ?_ <|
    .cons_cons (hnone _ _ (fun _ _ h => nomatch h) fun _ _ h => nomatch h) (.singleton _)
  exact not_clobbers_copy rfl rfl (Bool.forall_bool.2 ⟨fun _ _ h => (nomatch h), fun _ _ h => nomatch h⟩)

/-- Both commits succeed, and the first byte is gone. -/
theorem overlapping_producers_lose :
    ∃ run s, IsRun Start Step sampleStart run ∧ s ∈ run ∧ s.commits = [[1], [2, 3]] ∧
    s.ring.content = [2, 3, 0] ∧ s.phase true = .idle ∧ s.phase false = .idle :=
  ⟨overlapping, _, overlapping_run, .tail _ (.tail _ (.tail _ (.tail _ (.tail _ (.head _))))), rfl, rfl,
    rfl, rfl⟩

end NebulaToolkit.Producers
