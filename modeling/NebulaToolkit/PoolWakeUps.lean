import Mathlib.Data.Finset.Card
import Mathlib.Data.Fintype.Basic
import NebulaToolkit.Lib.Progress
import NebulaToolkit.ThreadPool
/-!
# The notifications of the thread pool

`ThreadPool` with its condition variable: which workers are blocked in
`cv_.wait`, and which notifications are still to come. A worker falls asleep only
when its predicate is false, and wakes up by a notification or spuriously. The
runs are runs of the pool without the condition variable (`Step.pool`). Two
questions: can a worker sleep past a task, or past the destructor
(`no_wakeup_lost`), and does the pool come to rest (`comes_to_rest`).
-/

namespace NebulaToolkit.ThreadPool

open Lib

variable {Task : Type} {n : Nat}

structure CvState (Task : Type) (n : Nat) where
  pool : State Task n := {}
  /-- The workers blocked in `cv_.wait`. -/
  asleep : Finset (Fin n) := ∅
  /-- The `notify_one` calls of `PostTask` still to come: the lock is released before. -/
  oneOwed : Nat := 0
  /-- The `PostTask` of a batch that holds the lock has called `notify_all`. -/
  batchNotified : Bool := false
  /-- The `notify_all` of the destructor is still to come. -/
  allOwed : Bool := false

/-- The predicate of `cv_.wait`. -/
def State.pred (s : State Task n) : Prop := s.running = false ∨ s.taskQueue ≠ []

/-- What the threads do that are in the pool's code: the workers, and calls that have begun. -/
inductive Inner : CvState Task n → CvState Task n → Prop
  /-- `cv_.notify_one()` with a worker asleep, ... -/
  | notifyOne {s : CvState Task n} (w : Fin n) : s.oneOwed ≠ 0 → w ∈ s.asleep →
      Inner s { s with asleep := s.asleep.erase w, oneOwed := s.oneOwed - 1 }
  /-- ... and with none. -/
  | notifyNobody {s : CvState Task n} : s.oneOwed ≠ 0 → s.asleep = ∅ →
      Inner s { s with oneOwed := s.oneOwed - 1 }
  | batchPush {s : CvState Task n} {start : Nat} {ts rest : List Task} {t : Task} :
      s.pool.lock = some (.batch start ts (t :: rest)) →
      Inner s { s with pool := { s.pool.push t with lock := some (.batch start ts rest) } }
  /-- `cv_.notify_all()` of a batch, the lock still held, ... -/
  | batchNotify {s : CvState Task n} {start : Nat} {ts : List Task} :
      s.pool.lock = some (.batch start ts []) → s.batchNotified = false →
      Inner s { s with asleep := ∅, batchNotified := true }
  /-- ... and its release. -/
  | batchUnlock {s : CvState Task n} {start : Nat} {ts : List Task} :
      s.pool.lock = some (.batch start ts []) → s.batchNotified = true →
      Inner s { s with
        pool := { s.pool with lock := none, batches := s.pool.batches ++ [(start, ts)] }
        batchNotified := false }
  /-- `cv_.wait` finds its predicate false: the lock is released and the worker blocks. -/
  | sleep {s : CvState Task n} (w : Fin n) : s.pool.lock = none → s.pool.worker w = .waiting → w ∉ s.asleep →
      ¬ s.pool.pred →
      Inner s { s with asleep := insert w s.asleep }
  /-- It finds it true. -/
  | wake {s : CvState Task n} (w : Fin n) : s.pool.lock = none → s.pool.worker w = .waiting → w ∉ s.asleep →
      s.pool.pred →
      Inner s { s with pool := { s.pool.setWorker w .checked with lock := some (.worker w) } }
  | exit {s : CvState Task n} (w : Fin n) : s.pool.lock = some (.worker w) → s.pool.worker w = .checked →
      s.pool.running = false ∧ s.pool.taskQueue = [] →
      Inner s { s with
        pool := { s.pool.setWorker w .exited with lock := none, exitedAt := s.pool.posted.length } }
  | dequeue {s : CvState Task n} (w : Fin n) {t : Task} {q : List Task} : s.pool.lock = some (.worker w) →
      s.pool.worker w = .checked → ¬ (s.pool.running = false ∧ s.pool.taskQueue = []) →
      s.pool.taskQueue = t :: q →
      Inner s { s with pool := { s.pool.setWorker w (.executing s.pool.taken.length t) with
        taskQueue := q, lock := none, taken := s.pool.taken ++ [(w, t)] } }
  | run {s : CvState Task n} (w : Fin n) {k : Nat} {t : Task} : s.pool.worker w = .executing k t →
      Inner s { s with pool := { s.pool.setWorker w .waiting with ran := s.pool.ran ++ [k] } }
  /-- `cv_.notify_all()` of the destructor. -/
  | notifyAll {s : CvState Task n} : s.allOwed = true → Inner s { s with asleep := ∅, allOwed := false }

inductive CvStep : CvState Task n → CvState Task n → Prop
  | inner {s s' : CvState Task n} : Inner s s' → CvStep s s'
  /-- `PostTask(cb_task)` up to the end of its scope; `notify_one` follows. -/
  | postTask {s : CvState Task n} (t : Task) : s.pool.lock = none →
      CvStep s { s with pool := s.pool.push t, oneOwed := s.oneOwed + 1 }
  | batchLock {s : CvState Task n} (ts : List Task) : s.pool.lock = none →
      CvStep s { s with pool := { s.pool with lock := some (.batch s.pool.posted.length ts ts) } }
  /-- A spurious wake-up. -/
  | spurious {s : CvState Task n} (w : Fin n) : w ∈ s.asleep → CvStep s { s with asleep := s.asleep.erase w }
  /-- `~ThreadPool` clears `running_`; `notify_all` follows. -/
  | destroy {s : CvState Task n} : s.pool.lock = none → s.pool.running = true →
      CvStep s { s with
        pool := { s.pool with running := false, stoppedAt := some s.pool.posted.length }
        allOwed := true }

def CvStart (s : CvState Task n) : Prop := s = {}

variable {s s' : CvState Task n}

/-! ## The pool without the condition variable -/

theorem Inner.pool (h : Inner s s') : s'.pool = s.pool ∨ Step s.pool s'.pool := by
  cases h with
  | notifyOne | notifyNobody | batchNotify | sleep | notifyAll => exact .inl rfl
  | batchPush hl => exact .inr (.batchPush hl)
  | batchUnlock hl hn => exact .inr (.batchUnlock hl)
  | wake w hl hw hs hp => exact .inr (.wake w hl hw hp)
  | exit w hl hw hp => exact .inr (.exit w hl hw hp)
  | dequeue w hl hw hp hq => exact .inr (.dequeue w hl hw hp hq)
  | run w hw => exact .inr (.run w hw)

theorem CvStep.pool (h : CvStep s s') : s'.pool = s.pool ∨ Step s.pool s'.pool := by
  cases h with
  | inner h => exact h.pool
  | postTask t hl => exact .inr (.postTask t hl)
  | batchLock ts hl => exact .inr (.batchLock ts hl)
  | spurious => exact .inl rfl
  | destroy hl hr => exact .inr (.destroy hl hr)

theorem reachable_pool (h : Reachable CvStart CvStep s) : Reachable Start Step s.pool := by
  refine h.inv (I := fun s => Reachable Start Step s.pool) (fun s hs => ?_) fun s s' _ hr hs => ?_
  · rw [hs]
    exact .start rfl
  · rcases hs.pool with he | hs
    · rw [he]
      exact hr
    · exact hr.next hs

/-! ## Who sleeps -/

/-- On the way to the queue, or at it. -/
def Worker.seeks : Worker Task → Bool
  | .waiting | .checked => true
  | _ => false

/-- The workers that will look at the queue without a notification. -/
def CvState.awake (s : CvState Task n) : Finset (Fin n) :=
  Finset.univ.filter fun w => (s.pool.worker w).seeks = true ∧ w ∉ s.asleep

theorem mem_awake {w : Fin n} : w ∈ s.awake ↔ (s.pool.worker w).seeks = true ∧ w ∉ s.asleep := by
  simp [CvState.awake]

/-- A `PostTask` of a batch holds the lock. -/
def CvState.InBatch (s : CvState Task n) : Prop := ∃ start ts rest, s.pool.lock = some (.batch start ts rest)

structure CvInv (s : CvState Task n) : Prop where
  waiting : ∀ w ∈ s.asleep, s.pool.worker w = .waiting
  notified : s.batchNotified = true → s.asleep = ∅ ∧ ∃ start ts, s.pool.lock = some (.batch start ts [])
  /-- A worker sleeps only if all tasks are spoken for. -/
  served : s.asleep.Nonempty → ¬ s.InBatch → s.pool.taskQueue.length ≤ s.oneOwed + s.awake.card
  stopped : s.asleep.Nonempty → s.pool.running = false → s.allOwed = true

theorem cvStart_inv (h : CvStart s) : CvInv s := by
  subst h
  exact ⟨fun w hw => absurd hw (Finset.notMem_empty w), nofun, fun he => absurd he Finset.not_nonempty_empty,
    fun he => absurd he Finset.not_nonempty_empty⟩

/-- While nobody sleeps there is nothing to say. -/
theorem CvInv.of_none (hs : s.asleep = ∅)
    (hn : s.batchNotified = true → ∃ start ts, s.pool.lock = some (.batch start ts [])) :
    CvInv s := by
  refine ⟨fun w hw => ?_, fun hb => ⟨hs, hn hb⟩, fun he => ?_, fun he => ?_⟩
  · rw [hs] at hw
    exact absurd hw (Finset.notMem_empty w)
  · rw [hs] at he
    exact absurd he Finset.not_nonempty_empty
  · rw [hs] at he
    exact absurd he Finset.not_nonempty_empty

theorem not_inBatch_free (hl : s.pool.lock = none) : ¬ s.InBatch :=
  fun ⟨_, _, _, hb⟩ => by rw [hl] at hb; cases hb

theorem not_inBatch_held {w : Fin n} (hl : s.pool.lock = some (.worker w)) : ¬ s.InBatch :=
  fun ⟨_, _, _, hb⟩ => by rw [hl] at hb; cases hb

section
variable (hi : CvInv s)
include hi

/-- A worker that does something else than wait is awake. -/
theorem CvInv.not_asleep {w : Fin n} (h : s.pool.worker w ≠ .waiting) : w ∉ s.asleep :=
  fun hw => h (hi.waiting w hw)

theorem CvInv.executing_awake {w : Fin n} {k : Nat} {t : Task} (h : s.pool.worker w = .executing k t) :
    w ∉ s.asleep :=
  hi.not_asleep (by rw [h]; nofun)

/-- Outside of a batch the flag of the batch is down. -/
theorem CvInv.not_notified (h : ¬ s.InBatch) (hb : s.batchNotified = true) : False := by
  obtain ⟨start, ts, hl⟩ := (hi.notified hb).2
  exact h ⟨start, ts, [], hl⟩

/-- A worker awakes, by a notification or without. -/
theorem CvInv.awakes {w : Fin n} (hw : w ∈ s.asleep) {owed : Nat} (howed : s.oneOwed ≤ owed + 1) :
    CvInv { s with asleep := s.asleep.erase w, oneOwed := owed } := by
  have hsub : s.asleep.Nonempty := ⟨w, hw⟩
  have hnew : w ∉ s.awake := fun h => (mem_awake.1 h).2 hw
  have hmore : insert w s.awake ⊆
      ({ s with asleep := s.asleep.erase w, oneOwed := owed } : CvState Task n).awake := by
    intro v hv
    rcases Finset.mem_insert.1 hv with rfl | hv
    · exact mem_awake.2 ⟨by rw [hi.waiting v hw]; rfl, Finset.notMem_erase v _⟩
    · obtain ⟨hseeks, hnot⟩ := mem_awake.1 hv
      exact mem_awake.2 ⟨hseeks, fun h => hnot (Finset.mem_of_mem_erase h)⟩
  refine ⟨fun v hv => hi.waiting v (Finset.mem_of_mem_erase hv), fun hb => ?_, fun _ hbatch => ?_,
    fun _ hr => hi.stopped hsub hr⟩
  · obtain ⟨hnone, hl⟩ := hi.notified hb
    rw [hnone] at hw
    exact absurd hw (Finset.notMem_empty w)
  · have hserved := hi.served hsub hbatch
    have hcard := Finset.card_le_card hmore
    rw [Finset.card_insert_of_notMem hnew] at hcard
    change s.pool.taskQueue.length ≤ owed + _
    omega

/-- A worker that is awake goes on; a batch that holds the lock keeps it. -/
theorem CvInv.moves {w : Fin n} {p : Worker Task} {pool : State Task n} (hw : w ∉ s.asleep)
    (hworker : pool.worker = (s.pool.setWorker w p).worker) (hrunning : pool.running = s.pool.running)
    (hlock : s.InBatch → pool.lock = s.pool.lock)
    (hqueue : s.pool.taskQueue.length ≤ s.oneOwed + s.awake.card →
      pool.taskQueue.length ≤ s.oneOwed + ({ s with pool := pool } : CvState Task n).awake.card) :
    CvInv { s with pool := pool } := by
  refine ⟨fun v hv => ?_, fun hb => ?_, fun he hbatch => hqueue (hi.served he fun hin => hbatch ?_),
    fun he hr => hi.stopped he (hrunning ▸ hr)⟩
  · have hvw : v ≠ w := by
      rintro rfl
      exact hw hv
    show pool.worker v = _
    rw [hworker, setWorker_other s.pool p hvw]
    exact hi.waiting v hv
  · obtain ⟨hnone, start, ts, hl⟩ := hi.notified hb
    exact ⟨hnone, start, ts, (hlock ⟨_, _, _, hl⟩).trans hl⟩
  · obtain ⟨start, ts, rest, hl⟩ := hin
    exact ⟨start, ts, rest, (hlock ⟨_, _, _, hl⟩).trans hl⟩

omit hi in
/-- Only `w` has changed. -/
theorem awake_except {w : Fin n} {p : Worker Task} (hworker : s'.pool.worker = (s.pool.setWorker w p).worker)
    (hasleep : s'.asleep = s.asleep) : s.awake.erase w ⊆ s'.awake := by
  intro v hv
  obtain ⟨hvw, hv⟩ := Finset.mem_erase.1 hv
  obtain ⟨hseeks, hnot⟩ := mem_awake.1 hv
  refine mem_awake.2 ⟨?_, hasleep ▸ hnot⟩
  rw [hworker, setWorker_other s.pool p hvw]
  exact hseeks

omit hi in
/-- If `w` still looks for tasks, nobody is lost. -/
theorem awake_keeps {w : Fin n} {p : Worker Task} (hworker : s'.pool.worker = (s.pool.setWorker w p).worker)
    (hasleep : s'.asleep = s.asleep) (hp : p.seeks = true) : s.awake ⊆ s'.awake := by
  intro v hv
  by_cases hvw : v = w
  · subst hvw
    refine mem_awake.2 ⟨?_, hasleep ▸ (mem_awake.1 hv).2⟩
    rw [hworker, setWorker_self]
    exact hp
  · exact awake_except hworker hasleep (Finset.mem_erase.2 ⟨hvw, hv⟩)

end

theorem inner_inv (hi : CvInv s) (h : Inner s s') : CvInv s' := by
  have except {w : Fin n} {p : Worker Task} (hworker : s'.pool.worker = (s.pool.setWorker w p).worker)
    (hasleep : s'.asleep = s.asleep) :=
    Finset.card_le_card (awake_except hworker hasleep)
  have keeps {w : Fin n} {p : Worker Task} (hworker : s'.pool.worker = (s.pool.setWorker w p).worker)
    (hasleep : s'.asleep = s.asleep)
      (hp : p.seeks = true) := Finset.card_le_card (awake_keeps hworker hasleep hp)
  cases h with
  | notifyOne w h0 hw => exact hi.awakes hw (by omega)
  | notifyNobody h0 hnone => exact .of_none hnone fun hb => (hi.notified hb).2
  | @batchPush start ts rest t hl =>
    refine ⟨hi.waiting, fun hb => ?_, fun _ hbatch => absurd ⟨_, _, _, rfl⟩ hbatch, hi.stopped⟩
    obtain ⟨-, start', ts', hl'⟩ := hi.notified hb
    rw [hl] at hl'
    cases hl'
  | batchNotify hl hb => exact .of_none rfl fun _ => ⟨_, _, hl⟩
  | batchUnlock hl hb => exact .of_none (hi.notified hb).1 nofun
  | sleep w hl hw hnot hpred =>
    obtain ⟨hrun, hempty⟩ := not_or.1 hpred
    rw [not_not] at hempty
    refine ⟨fun v hv => ?_, fun hb => ?_, fun _ _ => ?_, fun _ hr => absurd hr hrun⟩
    · rcases Finset.mem_insert.1 hv with rfl | hv
      · exact hw
      · exact hi.waiting v hv
    · exact (hi.not_notified (not_inBatch_free hl) hb).elim
    · change s.pool.taskQueue.length ≤ _
      rw [hempty]
      exact Nat.zero_le _
  | wake w hl hw hnot hpred =>
    refine hi.moves (w := w) (p := .checked) hnot rfl rfl
      (fun hin => absurd hin (not_inBatch_free hl)) fun hq => hq.trans ?_
    exact Nat.add_le_add_left (keeps (w := w) (p := .checked) rfl rfl rfl) _
  | exit w hl hw hp =>
    refine hi.moves (w := w) (p := .exited) (hi.not_asleep (by rw [hw]; nofun)) rfl rfl
      (fun hin => absurd hin (not_inBatch_held hl)) fun _ => ?_
    change s.pool.taskQueue.length ≤ _
    rw [hp.2]
    exact Nat.zero_le _
  | @dequeue w t q hl hw hp hq =>
    have hnot := hi.not_asleep (w := w) (by rw [hw]; nofun)
    refine hi.moves (w := w) (p := .executing s.pool.taken.length t) hnot rfl rfl
      (fun hin => absurd hin (not_inBatch_held hl)) fun hserved => ?_
    have hmem : w ∈ s.awake := mem_awake.2 ⟨by rw [hw]; rfl, hnot⟩
    have hcard := except (w := w) (p := .executing s.pool.taken.length t) rfl rfl
    rw [Finset.card_erase_of_mem hmem] at hcard
    rw [hq, List.length_cons] at hserved
    change q.length ≤ _
    omega
  | @run w k t hw =>
    refine hi.moves (w := w) (p := .waiting) (hi.executing_awake hw) rfl rfl (fun _ => rfl) fun hq =>
      hq.trans ?_
    exact Nat.add_le_add_left (keeps (w := w) (p := .waiting) rfl rfl rfl) _
  | notifyAll hall => exact .of_none rfl fun hb => (hi.notified hb).2

theorem cvStep_inv (hi : CvInv s) (h : CvStep s s') : CvInv s' := by
  cases h with
  | inner h => exact inner_inv hi h
  | postTask t hl =>
    refine ⟨hi.waiting, fun hb => ?_, fun he _ => ?_, hi.stopped⟩
    · exact (hi.not_notified (not_inBatch_free hl) hb).elim
    · have hserved := hi.served he (not_inBatch_free hl)
      change (s.pool.taskQueue ++ [t]).length ≤ s.oneOwed + 1 + s.awake.card
      rw [List.length_append, List.length_singleton]
      omega
  | batchLock ts hl =>
    refine ⟨hi.waiting, fun hb => ?_, fun _ hbatch => absurd ⟨_, _, _, rfl⟩ hbatch, hi.stopped⟩
    exact (hi.not_notified (not_inBatch_free hl) hb).elim
  | spurious w hw => exact hi.awakes hw (Nat.le_succ _)
  | destroy hl hr =>
    refine ⟨hi.waiting, fun hb => ?_, hi.served, fun _ _ => rfl⟩
    exact (hi.not_notified (not_inBatch_free hl) hb).elim

theorem reachable_cvInv (h : Reachable CvStart CvStep s) : CvInv s :=
  h.inv (fun _ hs => cvStart_inv hs) fun _ _ _ hi hs => cvStep_inv hi hs

/-- In every interleaving of posts, workers, the destructor and spurious wake-ups: a worker
that sleeps waits in `WorkerLoop`; while one sleeps and no batch is being posted, there are
as many workers awake and notifications to come as tasks in the queue; and one that
sleeps when the destructor has begun is still to be notified. -/
theorem no_wakeup_lost (s : CvState Task n) (h : Reachable CvStart CvStep s) :
    Reachable Start Step s.pool ∧ (∀ w ∈ s.asleep, s.pool.worker w = .waiting) ∧
      (s.asleep.Nonempty → ¬ s.InBatch → s.pool.taskQueue.length ≤ s.oneOwed + s.awake.card) ∧
      (s.asleep.Nonempty → s.pool.running = false → s.allOwed = true) := by
  have hi := reachable_cvInv h
  exact ⟨reachable_pool h, hi.waiting, hi.served, hi.stopped⟩

/-- The theorem with one worker asleep and a task whose notification is to come. -/
theorem no_wakeup_lost_one : ∃ s :
    CvState Nat 2, Reachable CvStart CvStep s ∧ s.asleep = {0} ∧ s.pool.taskQueue = [7] ∧
    [7].length ≤ s.oneOwed + s.awake.card := by
  have h₁ := (Reachable.start rfl : Reachable CvStart CvStep ({} : CvState Nat 2)).next
    (.inner (.sleep 0 rfl rfl (Finset.notMem_empty _) (by simp [State.pred])))
  have h₂ := h₁.next (.postTask 7 rfl)
  have hserved := (no_wakeup_lost _ h₂).2.2.1 (Finset.insert_nonempty _ _) fun ⟨_, _, _, hl⟩ => by cases hl
  exact ⟨_, h₂, rfl, rfl, hserved⟩

/-! ## Coming to rest -/

/-- What a worker may still do before it sleeps or is gone, a new task apart. -/
def weight (asleep : Bool) : Worker Task → Nat
  | .waiting => if asleep then 0 else 3
  | .checked => 2
  | .executing _ _ => 4
  | .exited => 0

/-- What who holds the lock may still do, with `all` for a `notify_all`. -/
def holding (all : Nat) (notified : Bool) : Option (Holder Task n) → Nat
  | some (.batch _ _ rest) => 6 * rest.length + 1 + if notified then 0 else all
  | _ => 0

def CvState.weights (s : CvState Task n) : Nat := ∑ w, weight (decide (w ∈ s.asleep)) (s.pool.worker w)

/-- How much there is to do. -/
def CvState.toDo (s : CvState Task n) : Nat :=
  5 * s.pool.taskQueue.length + 4 * s.oneOwed + s.weights + (if s.allOwed then 3 * n + 1 else 0)
    + holding (3 * n + 1) s.batchNotified s.pool.lock

/-- One worker changes. -/
theorem weights_change {w : Fin n} {p : Worker Task}
    (hworker : s'.pool.worker = (s.pool.setWorker w p).worker)
    (hasleep : ∀ v, v ≠ w → (v ∈ s'.asleep ↔ v ∈ s.asleep)) :
    s'.weights + weight (decide (w ∈ s.asleep)) (s.pool.worker w) =
    s.weights + weight (decide (w ∈ s'.asleep)) p := by
  have hself : s'.pool.worker w = p := by rw [hworker, setWorker_self]
  have hsum := sum_change (f := fun v => weight (decide (v ∈ s.asleep)) (s.pool.worker v))
    (g := fun v => weight (decide (v ∈ s'.asleep)) (s'.pool.worker v)) (i := w) fun v hv => by
      rw [hworker, setWorker_other s.pool p hv]
      simp only [hasleep v hv]
  rw [hself] at hsum
  exact hsum

/-- Waking up everybody. -/
theorem weights_all (hworker : s'.pool.worker = s.pool.worker) (hnone : s'.asleep = ∅) :
    s'.weights ≤ s.weights + 3 * n := by
  have h := sum_le_add (f := fun v => weight (decide (v ∈ s.asleep)) (s.pool.worker v))
    (g := fun v => weight (decide (v ∈ s'.asleep)) (s'.pool.worker v)) (c := 3) fun v => by
      rw [hworker, hnone]
      cases s.pool.worker v with
      | waiting => simp [weight]
      | checked | executing | exited => exact Nat.le_add_right _ _
  rw [Fintype.card_fin, Nat.mul_comm] at h
  exact h

theorem setWorker_idem (pool : State Task n) {w : Fin n} :
    (pool.setWorker w (pool.worker w)).worker = pool.worker :=
  Function.update_eq_self ..

/-- Every step of a thread takes something off. -/
theorem inner_toDo (hi : CvInv s) (h : Inner s s') : s'.toDo < s.toDo := by
  have change {w : Fin n} {p : Worker Task} (hworker : s'.pool.worker = (s.pool.setWorker w p).worker)
      (hasleep) :=
    weights_change hworker hasleep
  have all (hworker : s'.pool.worker = s.pool.worker) (hnone) := weights_all hworker hnone
  cases h with
  | notifyOne w h0 hw =>
    have hsum := change (w := w) (p := s.pool.worker w) (setWorker_idem s.pool).symm fun v hv => by simp [hv]
    rw [hi.waiting w hw] at hsum
    simp only [weight, hw, Finset.notMem_erase, decide_true, decide_false, if_true, Bool.false_eq_true,
      if_false]
      at hsum
    simp only [CvState.toDo]
    omega
  | notifyNobody h0 hnone =>
    simp only [CvState.toDo, CvState.weights]
    omega
  | batchPush hl =>
    simp only [CvState.toDo, CvState.weights, hl, holding, State.push, List.length_append, List.length_cons,
      List.length_nil]
    omega
  | batchNotify hl hb =>
    have hsum := all rfl rfl
    simp only [CvState.toDo, hl, holding, hb, if_true, Bool.false_eq_true, if_false, List.length_nil]
    omega
  | batchUnlock hl hb =>
    simp only [CvState.toDo, CvState.weights, hl, holding]
    omega
  | sleep w hl hw hnot hpred =>
    have hsum := change (w := w) (p := s.pool.worker w) (setWorker_idem s.pool).symm fun v hv => by simp [hv]
    rw [hw] at hsum
    simp only [weight, hnot, Finset.mem_insert_self, decide_true, decide_false, if_true,
      Bool.false_eq_true, if_false]
      at hsum
    simp only [CvState.toDo]
    omega
  | wake w hl hw hnot hpred =>
    have hsum := change (w := w) (p := .checked) rfl fun v _ => Iff.rfl
    rw [hw] at hsum
    simp only [weight, hnot, decide_false, Bool.false_eq_true, if_false] at hsum
    simp only [CvState.toDo, hl, holding]
    simp only [State.setWorker] at hsum ⊢
    omega
  | exit w hl hw hp =>
    have hsum := change (w := w) (p := .exited) rfl fun v _ => Iff.rfl
    rw [hw] at hsum
    simp only [weight] at hsum
    simp only [CvState.toDo, hl, holding]
    simp only [State.setWorker] at hsum ⊢
    omega
  | @dequeue w t q hl hw hp hq =>
    have hsum := change (w := w) (p := .executing s.pool.taken.length t) rfl fun v _ => Iff.rfl
    rw [hw] at hsum
    simp only [weight] at hsum
    simp only [CvState.toDo, hl, holding, hq, List.length_cons]
    simp only [State.setWorker] at hsum ⊢
    omega
  | @run w k t hw =>
    have hsum := change (w := w) (p := .waiting) rfl fun v _ => Iff.rfl
    have hnot := hi.executing_awake hw
    rw [hw] at hsum
    simp only [weight, hnot, decide_false, Bool.false_eq_true, if_false] at hsum
    simp only [CvState.toDo]
    simp only [State.setWorker] at hsum ⊢
    omega
  | notifyAll hall =>
    have hsum := all rfl rfl
    simp only [CvState.toDo, hall, if_true, Bool.false_eq_true, if_false]
    omega

/-- A worker that holds the lock is past its wait. -/
def Held (s : State Task n) : Prop := ∀ w, s.lock = some (.worker w) → s.worker w = .checked

theorem held_step {s s' : State Task n} (hh : Held s) (h : Step s s') : Held s' := by
  cases h with
  | postTask t hl => exact hh
  | batchLock ts hl | batchPush hl | batchUnlock hl | exit w hl hw hp | dequeue w hl hw hp hq =>
    exact fun v hv => nomatch hv
  | wake w hl hw hp =>
    intro v hv
    cases hv
    exact setWorker_self s w _
  | @run w k t hw =>
    intro v hv
    exact to_setWorker (by rw [hw]; nofun) (hh v hv)
  | destroy hl hr =>
    intro v hv
    rw [hl] at hv
    cases hv

theorem reachable_held {s : State Task n} (h : Reachable Start Step s) : Held s :=
  h.inv (fun s hs w hl => by rw [hs] at hl; cases hl) fun _ _ _ hh hs => held_step hh hs

/-- Nobody will do anything, and nothing is left to do. -/
structure AtRest (s : CvState Task n) : Prop where
  free : s.pool.lock = none
  notified : s.oneOwed = 0 ∧ s.allOwed = false
  empty : s.pool.taskQueue = []
  ran : ∀ k < s.pool.posted.length, s.pool.ran.count k = 1
  workers : (s.pool.running = true ∧ ∀ w, w ∈ s.asleep) ∨
    (s.pool.running = false ∧ ∀ w, s.pool.worker w = .exited)

/-- What holds on the way to rest: somebody is left for the tasks, or there is none. -/
structure Winding (running : Bool) (s : CvState Task n) : Prop where
  reach : Reachable Start Step s.pool
  cv : CvInv s
  manned : (∃ w, s.pool.worker w ≠ .exited) ∨ (s.pool.taskQueue = [] ∧ ¬ s.InBatch)
  running : s.pool.running = running

theorem Inner.running (h : Inner s s') : s'.pool.running = s.pool.running := by cases h <;> rfl

/-- A worker that has just done something else than exit is there. -/
theorem setWorker_manned {pool : State Task n} {w : Fin n} {p : Worker Task} (hp : p ≠ .exited) :
    ∃ v, (pool.setWorker w p).worker v ≠ .exited := ⟨w, by rw [setWorker_self]; exact hp⟩

theorem inner_winding {running : Bool} (hi : Winding running s) (h : Inner s s') : Winding running s' := by
  have hcv := inner_inv hi.cv h
  have hrun : s'.pool.running = running := h.running.trans hi.running
  have hreach : Reachable Start Step s'.pool := by
    rcases h.pool with he | hs
    · rw [he]
      exact hi.reach
    · exact hi.reach.next hs
  refine ⟨hreach, hcv, ?_, hrun⟩
  have inside {start : Nat} {ts rest : List Task} (hl : s.pool.lock = some (.batch start ts rest)) :
      ∃ w, s.pool.worker w ≠ .exited := hi.manned.resolve_right fun h => h.2 ⟨_, _, _, hl⟩
  cases h with
  | notifyOne | notifyNobody | sleep | notifyAll => exact hi.manned
  | batchPush hl => exact .inl (inside hl)
  | batchNotify hl hb => exact .inl (inside hl)
  | batchUnlock hl hb => exact .inl (inside hl)
  | wake w hl hw hs hp => exact .inl (setWorker_manned (by nofun))
  | exit w hl hw hp => exact .inr ⟨hp.2, fun ⟨_, _, _, hl⟩ => nomatch hl⟩
  | dequeue w hl hw hp hq => exact .inl (setWorker_manned (by nofun))
  | run w hw => exact .inl (setWorker_manned (by nofun))

/-- Where no thread has a step, the lock is free. -/
theorem stuck_free {running : Bool} (hi : Winding running s) (hstuck : ∀ s', ¬ Inner s s') :
    s.pool.lock = none := by
  cases hl : s.pool.lock with
  | none => rfl
  | some holder =>
    cases holder with
    | worker w =>
      have hw := reachable_held hi.reach w hl
      by_cases hexit : s.pool.running = false ∧ s.pool.taskQueue = []
      · exact absurd (.exit w hl hw hexit) (hstuck _)
      · obtain ⟨t, q, hq⟩ := dequeue_finds_task hi.reach hw hexit
        exact absurd (.dequeue w hl hw hexit hq) (hstuck _)
    | batch start ts rest =>
      cases rest with
      | cons t rest => exact absurd (.batchPush hl) (hstuck _)
      | nil =>
        cases hb : s.batchNotified with
        | false => exact absurd (.batchNotify hl hb) (hstuck _)
        | true => exact absurd (.batchUnlock hl hb) (hstuck _)

/-- ... and every worker sleeps or has exited. -/
theorem stuck_workers {running : Bool} (hi : Winding running s) (hstuck : ∀ s', ¬ Inner s s') (w : Fin n) :
    w ∈ s.asleep ∨ s.pool.worker w = .exited := by
  have hfree := stuck_free hi hstuck
  by_cases hs : w ∈ s.asleep
  · exact .inl hs
  · cases hw : s.pool.worker w with
    | exited => exact .inr rfl
    | executing k t => exact absurd (.run w hw) (hstuck _)
    | checked =>
      have hl := ((reachable_inv hi.reach).checked w hw).1
      rw [hfree] at hl
      cases hl
    | waiting =>
      by_cases hp : s.pool.pred
      · exact absurd (.wake w hfree hw hs hp) (hstuck _)
      · exact absurd (.sleep w hfree hw hs hp) (hstuck _)

/-- ... and no notification is owed. -/
theorem stuck_notified (hstuck : ∀ s', ¬ Inner s s') : s.oneOwed = 0 ∧ s.allOwed = false := by
  constructor
  · by_contra h0
    rcases s.asleep.eq_empty_or_nonempty with hnone | ⟨w, hw⟩
    · exact hstuck _ (.notifyNobody h0 hnone)
    · exact hstuck _ (.notifyOne w h0 hw)
  · by_contra ha
    exact hstuck _ (.notifyAll (Bool.not_eq_false _ ▸ ha))

theorem stuck_atRest (running : Bool) (hn : 0 < n) (hi : Winding running s) (hstuck : ∀ s', ¬ Inner s s') :
    AtRest s := by
  have hinv := reachable_inv hi.reach
  have hfree := stuck_free hi hstuck
  have hworkers := stuck_workers hi hstuck
  have hnot := stuck_notified hstuck
  have hbatch : ¬ s.InBatch := fun ⟨_, _, _, hl⟩ => by rw [hfree] at hl; cases hl
  have hawake : s.awake = ∅ := by
    refine Finset.eq_empty_of_forall_notMem fun w hw => ?_
    obtain ⟨hseeks, hs⟩ := mem_awake.1 hw
    rw [(hworkers w).resolve_left hs] at hseeks
    cases hseeks
  -- If one sleeps all do, and the queue is empty; otherwise all have exited.
  have hends : s.pool.taskQueue = [] ∧
      ((s.pool.running = true ∧ ∀ w, w ∈ s.asleep) ∨
        (s.pool.running = false ∧ ∀ w, s.pool.worker w = .exited)) := by
    rcases s.asleep.eq_empty_or_nonempty with hnone | hsome
    · have hall (w : Fin n) : s.pool.worker w = .exited :=
        (hworkers w).resolve_left (hnone ▸ Finset.notMem_empty w)
      have hempty := (hi.manned.resolve_left fun ⟨w, hw⟩ => hw (hall w)).1
      exact ⟨hempty, .inr ⟨(hinv.exited ⟨0, hn⟩ (hall _)).1, hall⟩⟩
    · have hserved := hi.cv.served hsome hbatch
      rw [hnot.1, hawake, Finset.card_empty] at hserved
      have hrunning : s.pool.running = true := by
        by_contra hr
        have hall := hi.cv.stopped hsome (Bool.eq_false_iff.2 hr)
        rw [hnot.2] at hall
        cases hall
      refine ⟨List.length_eq_zero_iff.1 (Nat.le_zero.1 hserved),
        .inl ⟨hrunning, fun w => (hworkers w).resolve_right fun hex => ?_⟩⟩
      have := (hinv.exited w hex).1
      rw [hrunning] at this
      cases this
  refine ⟨hfree, hnot, hends.1, fun k hk => ?_, hends.2⟩
  have htaken : k < s.pool.taken.length := by
    have hlen := length_order hinv
    rw [hends.1, List.length_nil] at hlen
    omega
  rcases hinv.runsOnce htaken with h | ⟨-, w, ⟨t, hw⟩, -⟩
  · exact h.1
  · -- The worker that holds the task could run it.
    exact absurd (.run w hw) (hstuck _)

/-- From any state that any interleaving reaches with a worker left, if no call begins any
more and nobody wakes up spuriously: whatever the threads do, they come to rest within
`toDo` steps, every task posted has been run once, and the workers all sleep, or, if the
destructor had begun, have all exited. -/
theorem comes_to_rest (s : CvState Task n) (h : Reachable CvStart CvStep s)
    (hleft : ∃ w, s.pool.worker w ≠ .exited) :
    Settles Inner s s.toDo fun s' => AtRest s' ∧ s'.pool.running = s.pool.running := by
  obtain ⟨w, -⟩ := id hleft
  refine settles_of_measure (I := Winding s.pool.running)
    (fun s s' hi hs => ⟨inner_winding hi hs, inner_toDo hi.cv hs⟩)
    ⟨reachable_pool h, reachable_cvInv h, .inl hleft, rfl⟩
      fun s' hi hstuck => ⟨stuck_atRest _ w.pos hi hstuck, hi.running⟩

/-- The theorem with one worker, asleep, and a task whose notification is to come: it is run. -/
theorem comes_to_rest_one : ∃ s s' :
    CvState Nat 1, Reachable CvStart CvStep s ∧ s.pool.posted = [7] ∧ s.asleep = {0} ∧
    Relation.ReflTransGen Inner s s' ∧ AtRest s' := by
  have h₁ := (Reachable.start rfl : Reachable CvStart CvStep ({} : CvState Nat 1)).next
    (.inner (.sleep 0 rfl rfl (Finset.notMem_empty _) (by simp [State.pred])))
  have h₂ := h₁.next (.postTask 7 rfl)
  obtain ⟨s', hr, hq, -⟩ := (comes_to_rest _ h₂ ⟨0, nofun⟩).reaches
  exact ⟨_, s', h₂, rfl, rfl, hr, hq⟩

end NebulaToolkit.ThreadPool
