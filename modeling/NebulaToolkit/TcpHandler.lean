import NebulaToolkit.Chunking
/-!
# The TCP handler and its tasks

`net::TcpHandler` between two threads. The reactor thread reads from the socket
into the unpacker, calls `Get` into the member `packs_` and schedules a task;
a worker runs the task, which calls the callback on what `packs_` holds by
then. Every task delivers what the last `Get` extracted, so each packet is
delivered exactly once if and only if no `Get` comes while a task is still to
run (`exactly_once`).
-/

namespace NebulaToolkit

open Lib UnPacker

/-! ## The handler -/

namespace EventFlags

def kReadable : Nat := 1
def kWritable : Nat := 2
def kError : Nat := 4
def kHangUp : Nat := 8

end EventFlags

structure Event where
  fd : Int
  eventFlags : Nat

/-- `ExecCb`: gets the vector of packets by reference; the value is the vector
after the call. -/
abbrev ExecCb := List (List UInt8) → List (List UInt8)

structure TcpHandler where
  fd : Int
  shouldClose : Bool := false
  cb : Option ExecCb := none
  unpacker : UnPacker
  packs : List (List UInt8) := []

namespace TcpHandler

def setCallback (h : TcpHandler) (cb : Option ExecCb) : TcpHandler := { h with cb := cb }

/-- `HandleEvent`; the flag says whether it calls `ProcessReadableEvent`. -/
def handleEvent (h : TcpHandler) (event : Event) : Bool × TcpHandler :=
  if event.fd ≠ h.fd then (false, h)
  else if event.eventFlags &&& EventFlags.kError ≠ 0 then (false, { h with shouldClose := true })
  else if event.eventFlags &&& EventFlags.kHangUp ≠ 0 then (false, { h with shouldClose := true })
  else (event.eventFlags &&& EventFlags.kReadable ≠ 0, h)

/-- What `read` returns: some bytes, zero, or an error that does or does not mean "try again". -/
inductive ReadResult where
  | bytes (buf : List UInt8)
  | eof
  | wouldBlock
  | error

/-- `n` bytes read into the write window and committed. -/
def filled (u : UnPacker) (buf : List UInt8) : UnPacker :=
  { u with toRingBuffer := ((u.store u.getLinearWriteSpace.1 buf).commitWriteSize buf.length).2 }

/-! ## The two threads -/

structure System where
  handler : TcpHandler
  /-- The reactor thread is in the loop of `ProcessReadableEvent`. -/
  reading : Bool := false
  /-- Scheduled tasks still to run. All of them are the same: `cb_(packs_)`. -/
  tasks : Nat := 0
  /-- How many times `Get` was called. -/
  gets : Nat := 0
  /-- Every packet a `Get` extracted, with the number of that `Get`. -/
  extracted : List (Nat × List UInt8) := []
  /-- Every packet passed to the callback, with the number of its `Get`. -/
  delivered : List (Nat × List UInt8) := []
  /-- How many `Get`s came while a task was still to run. -/
  overlaps : Nat := 0

/-- The packets `packs_` holds, with the number of the `Get` they are from. -/
def System.held (s : System) : List (Nat × List UInt8) := s.handler.packs.map fun p => (s.gets, p)

inductive Step : System → System → Prop
  | handleEvent {s : System} (event : Event) : s.reading = false →
      Step s { s with handler := (s.handler.handleEvent event).2, reading := (s.handler.handleEvent event).1 }
  | bufferFull {s : System} : s.reading = true → s.handler.unpacker.getLinearWriteSpace.2 = 0 →
      Step s { s with reading := false }
  /-- One pass of the loop that reads bytes: commit, `Get`, schedule. -/
  | read {s : System} {buf : List UInt8} {packs : List (List UInt8)} {u' : UnPacker} : s.reading = true →
      buf ≠ [] → buf.length ≤ s.handler.unpacker.getLinearWriteSpace.2 →
      (filled s.handler.unpacker buf).Gets packs u' → Step s { s with
        handler := { s.handler with unpacker := u', packs := packs }
        tasks := if packs ≠ [] ∧ s.handler.cb.isSome then s.tasks + 1 else s.tasks
        gets := s.gets + 1
        extracted := s.extracted ++ packs.map fun p => (s.gets + 1, p)
        overlaps := if s.tasks = 0 then s.overlaps else s.overlaps + 1 }
  /-- The passes that end the loop. -/
  | readEnds {s : System} (r : ReadResult) : s.reading = true → s.handler.unpacker.getLinearWriteSpace.2 ≠ 0 →
      (∀ buf, r ≠ .bytes buf) →
      Step s { s with
        handler := match r with
          | .eof | .error => { s.handler with shouldClose := true }
          | _ => s.handler
        reading := false }
  | runTask {s : System} {cb : ExecCb} : s.tasks ≠ 0 → s.handler.cb = some cb →
      Step s { s with
        handler := { s.handler with packs := cb s.handler.packs }
        tasks := s.tasks - 1
        delivered := s.delivered ++ s.held }

/-- A new handler, its callback set. -/
def Start (fd : Int) (u : UnPacker) (cb : Option ExecCb) (s : System) : Prop :=
  s = { handler := setCallback { fd := fd, unpacker := u } cb }

/-! ## What holds on every run -/

/-- Without an overlap: what was extracted is delivered, except for what `packs_`
holds while its one task is still to run. -/
structure Fine (s : System) : Prop where
  tasks_le : s.tasks ≤ 1
  extracted_eq : s.extracted = s.delivered ++ if s.tasks = 0 then [] else s.held
  held_ne : s.tasks ≠ 0 → s.handler.packs ≠ []
  fresh : s.tasks ≠ 0 → ∀ x ∈ s.delivered, x.1 < s.gets

/-- After one: some packet was overwritten before it was delivered. -/
def Lost (s : System) : Prop := ∃ x ∈ s.extracted, x.1 < s.gets ∧ x ∉ s.delivered

structure Inv (cb : ExecCb) (s : System) : Prop where
  cb_eq : s.handler.cb = some cb
  delivered_le : ∀ x ∈ s.delivered, x.1 ≤ s.gets
  fine : s.overlaps = 0 → Fine s
  lost : s.overlaps ≠ 0 → Lost s

variable {s s' : System} {cb : ExecCb}

theorem handleEvent_same (h : TcpHandler) (event : Event) :
    (h.handleEvent event).2.cb = h.cb ∧ (h.handleEvent event).2.packs = h.packs := by
  unfold handleEvent
  split
  · exact ⟨rfl, rfl⟩
  split
  · exact ⟨rfl, rfl⟩
  split <;> exact ⟨rfl, rfl⟩

/-- A step that touches neither the callback nor the packets nor the tasks. -/
theorem Inv.of_same (h : Inv cb s) {handler : TcpHandler} {reading : Bool} (hcb : handler.cb = s.handler.cb)
    (hp : handler.packs = s.handler.packs) : Inv cb { s with handler := handler, reading := reading } where
  cb_eq := hcb.trans h.cb_eq
  delivered_le := h.delivered_le
  fine h0 := by
    obtain ⟨h1, h2, h3, h4⟩ := h.fine h0
    refine ⟨h1, ?_, fun ht => by rw [hp]; exact h3 ht, h4⟩
    show s.extracted = s.delivered ++ if s.tasks = 0 then [] else handler.packs.map fun p => (s.gets, p)
    rw [hp]; exact h2
  lost := h.lost

/-- What was lost stays lost when more is extracted. -/
theorem Lost.read (h : Lost s) {packs : List (List UInt8)} :
    ∃ x ∈ s.extracted ++ packs.map fun p => (s.gets + 1, p), x.1 < s.gets + 1 ∧ x ∉ s.delivered := by
  obtain ⟨x, hx, hlt, hno⟩ := h
  exact ⟨x, List.mem_append_left _ hx, Nat.lt_succ_of_lt hlt, hno⟩

/-- With a task still to run, a `Get` overwrites a packet that was never delivered. -/
theorem Fine.overwritten (h : Fine s) (ht : s.tasks ≠ 0) :
    ∃ x ∈ s.extracted, x.1 < s.gets + 1 ∧ x ∉ s.delivered := by
  obtain ⟨p, hp⟩ := List.exists_mem_of_ne_nil _ (h.held_ne ht)
  refine ⟨(s.gets, p), ?_, Nat.lt_succ_self _, fun hd => absurd (h.fresh ht _ hd) (Nat.lt_irrefl _)⟩
  rw [h.extracted_eq, if_neg ht]
  exact List.mem_append_right _ (List.mem_map_of_mem hp)

/-- One pass of the loop, whatever `Get` leaves in the unpacker. -/
theorem read_inv (h : Inv cb s) (packs : List (List UInt8)) (u' : UnPacker) : Inv cb { s with
    handler := { s.handler with unpacker := u', packs := packs }
    tasks := if packs ≠ [] ∧ s.handler.cb.isSome then s.tasks + 1 else s.tasks
    gets := s.gets + 1
    extracted := s.extracted ++ packs.map fun p => (s.gets + 1, p)
    overlaps := if s.tasks = 0 then s.overlaps else s.overlaps + 1 } := by
  refine ⟨h.cb_eq, fun x hx => Nat.le_succ_of_le (h.delivered_le x hx), fun h0 => ?_, fun h0 => ?_⟩
  · -- No task was waiting, so all was delivered before.
    change (if s.tasks = 0 then s.overlaps else s.overlaps + 1) = 0 at h0
    have ht : s.tasks = 0 := by by_contra ht; rw [if_neg ht] at h0; omega
    rw [if_pos ht] at h0
    have heq := (h.fine h0).extracted_eq
    rw [if_pos ht, List.append_nil] at heq
    by_cases hp : packs = []
    · subst hp
      exact ⟨by simp [ht], by simp [ht, heq], by simp [ht], by simp [ht]⟩
    · have hsched : packs ≠ [] ∧ s.handler.cb.isSome = true := ⟨hp, by rw [h.cb_eq]; rfl⟩
      refine ⟨by simp [hsched, ht], ?_, fun _ => hp, fun _ x hx => Nat.lt_succ_of_le (h.delivered_le x hx)⟩
      simp only [if_pos hsched, ht, heq]
      rfl
  · change (if s.tasks = 0 then s.overlaps else s.overlaps + 1) ≠ 0 at h0
    by_cases ht : s.tasks = 0
    · rw [if_pos ht] at h0
      exact (h.lost h0).read
    · by_cases ho : s.overlaps = 0
      · obtain ⟨x, hx, hlt, hno⟩ := (h.fine ho).overwritten ht
        exact ⟨x, List.mem_append_left _ hx, hlt, hno⟩
      · exact (h.lost ho).read

theorem runTask_inv (h : Inv cb s) (f : ExecCb) (ht : s.tasks ≠ 0) : Inv cb { s with
    handler := { s.handler with packs := f s.handler.packs }
    tasks := s.tasks - 1
    delivered := s.delivered ++ s.held } := by
  have hheld (x : Nat × List UInt8) (hx : x ∈ s.held) : x.1 = s.gets := by
    obtain ⟨p, -, rfl⟩ := List.mem_map.1 hx; rfl
  refine ⟨h.cb_eq, fun x hx => ?_, fun h0 => ?_, fun h0 => ?_⟩
  · rcases List.mem_append.1 hx with hx | hx
    · exact h.delivered_le x hx
    · exact Nat.le_of_eq (hheld x hx)
  · obtain ⟨h1, h2, h3, h4⟩ := h.fine h0
    have ht' : s.tasks - 1 = 0 := by omega
    rw [if_neg ht] at h2
    exact ⟨by show s.tasks - 1 ≤ 1; omega, by simp [ht', h2], fun hn => absurd ht' hn,
      fun hn => absurd ht' hn⟩
  · obtain ⟨x, hx, hlt, hno⟩ := h.lost h0
    refine ⟨x, hx, hlt, fun hd => ?_⟩
    rcases List.mem_append.1 hd with hd | hd
    · exact hno hd
    · exact absurd (hheld x hd) (Nat.ne_of_lt hlt)

theorem step_inv (h : Inv cb s) (hs : Step s s') : Inv cb s' := by
  cases hs with
  | handleEvent event => exact h.of_same (handleEvent_same _ _).1 (handleEvent_same _ _).2
  | bufferFull => exact h.of_same rfl rfl
  | readEnds r => exact h.of_same (by cases r <;> rfl) (by cases r <;> rfl)
  | read => exact read_inv h _ _
  | runTask ht hcb => exact runTask_inv h _ ht

theorem start_inv {fd : Int} {u : UnPacker} (hs : Start fd u (some cb) s) : Inv cb s := by
  subst hs
  refine ⟨rfl, by simp, fun _ => ⟨by simp, by simp, by simp, by simp⟩, fun h => absurd rfl h⟩

theorem Lost.not_perm (h : Lost s) : ¬ s.delivered.Perm s.extracted := by
  obtain ⟨x, hx, -, hno⟩ := h
  exact fun hp => hno (hp.mem_iff.2 hx)

/-- Once all scheduled tasks have run, every packet extracted has been passed to the
callback exactly once, if and only if no `Get` came while a task was still to
run. Without a callback nothing is ever delivered. -/
theorem exactly_once (fd : Int) (u : UnPacker) (cb : Option ExecCb) (s : System)
    (h : Reachable (Start fd u cb) Step s) (h0 : s.tasks = 0) : match cb with
      | some _ => s.delivered.Perm s.extracted ↔ s.overlaps = 0
      | none => s.delivered = [] := by
  cases cb with
  | some cb =>
    have hi : Inv cb s := h.inv (fun _ hs => start_inv hs) fun _ _ _ hi hs => step_inv hi hs
    refine ⟨fun hp => ?_, fun ho => ?_⟩
    · by_contra ho
      exact (hi.lost ho).not_perm hp
    · have heq := (hi.fine ho).extracted_eq
      rw [if_pos h0, List.append_nil] at heq
      rw [heq]
  | none =>
    have hi : s.handler.cb = none ∧ s.delivered = [] := by
      refine h.inv (I := fun s => s.handler.cb = none ∧ s.delivered = []) ?_ ?_
      · rintro _ rfl; exact ⟨rfl, rfl⟩
      · rintro s s' - ⟨hcb, hd⟩ hs
        cases hs with
        | handleEvent event => exact ⟨(handleEvent_same _ _).1.trans hcb, hd⟩
        | bufferFull | read => exact ⟨hcb, hd⟩
        | readEnds r => exact ⟨by cases r <;> exact hcb, hd⟩
        | runTask _ hcb' => rw [hcb] at hcb'; cases hcb'
    exact hi.2

/-- Two reads of one frame each. -/
theorem two_reads : ∃ u₁ u₂, (filled oneTwo [1, 7, 2]).Gets [[1, 7, 2]] u₁ ∧
    [1, 8, 2].length ≤ u₁.getLinearWriteSpace.2 ∧ (filled u₁ [1, 8, 2]).Gets [[1, 8, 2]] u₂ := by
  have hplay : (getPack 3 (filled oneTwo [1, 7, 2]) []).map (fun r => (r.2.1, r.2.2.getLinearWriteSpace.2,
      (getPack 3 (filled r.2.2 [1, 8, 2]) []).map fun r' => r'.2.1)) =
      .ok ([[1, 7, 2]], 5, .ok [[1, 8, 2]]) := by decide
  obtain ⟨res₁, packs₁, u₁, hg₁, hplay⟩ := gets_of_getPack hplay
  simp only [Prod.mk.injEq] at hplay
  obtain ⟨rfl, hw, hplay⟩ := hplay
  obtain ⟨res₂, packs₂, u₂, hg₂, rfl⟩ := gets_of_getPack hplay
  exact ⟨u₁, u₂, hg₁, by rw [hw]; decide, hg₂⟩

/-- The theorem at one read whose task has run. -/
theorem exactly_once_one : ∃ s, Reachable (Start 3 oneTwo (some id)) Step s ∧ s.tasks = 0 ∧ s.overlaps = 0 ∧
    s.extracted = [(1, [1, 7, 2])] ∧ (s.delivered.Perm s.extracted ↔ s.overlaps = 0) := by
  obtain ⟨u₁, -, hg, -, -⟩ := two_reads
  have h₀ : Reachable (Start 3 oneTwo (some id)) Step
      { handler := setCallback { fd := 3, unpacker := oneTwo } (some id) } :=
    .start rfl
  have h₁ := h₀.next (.handleEvent ⟨3, EventFlags.kReadable⟩ rfl)
  have h₂ := h₁.next (.read (by decide) (by decide) (by decide) hg)
  have h₃ := h₂.next (.runTask Nat.one_ne_zero rfl)
  exact ⟨_, h₃, rfl, rfl, rfl, exactly_once 3 oneTwo (some id) _ h₃ rfl⟩

/-- Two reads before the first task runs: both tasks deliver the second packet. -/
theorem two_reads_one_delivered :
    ¬ ∀ s, Reachable (Start 3 oneTwo (some id)) Step s → s.tasks = 0 → s.delivered.Perm s.extracted := by
  intro hall
  obtain ⟨u₁, u₂, hg₁, hw, hg₂⟩ := two_reads
  have h₀ : Reachable (Start 3 oneTwo (some id)) Step
      { handler := setCallback { fd := 3, unpacker := oneTwo } (some id) } :=
    .start rfl
  have h₁ := h₀.next (.handleEvent ⟨3, EventFlags.kReadable⟩ rfl)
  have h₂ := h₁.next (.read (by decide) (by decide) (by decide) hg₁)
  have h₃ := h₂.next (.read rfl (by decide) hw hg₂)
  have h₄ := h₃.next (.runTask (Nat.succ_ne_zero 1) rfl)
  have h₅ := h₄.next (.runTask Nat.one_ne_zero rfl)
  have hp : ([(2, [1, 8, 2]), (2, [1, 8, 2])] : List (Nat × List UInt8)).Perm [(1, [1, 7, 2]),
      (2, [1, 8, 2])] :=
    hall _ h₅ rfl
  revert hp
  decide

end TcpHandler

end NebulaToolkit
