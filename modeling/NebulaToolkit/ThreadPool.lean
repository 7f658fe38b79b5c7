import Mathlib.Data.List.Count
import Mathlib.Data.List.Nodup
import Mathlib.Logic.Function.Basic
import NebulaToolkit.Lib.Machine
/-!
# The thread pool

`ThreadPool`: workers take tasks off one FIFO queue under `queue_mutex_`. A
state holds the pool's fields and what each worker does; the remaining fields
are history: what was posted, dequeued and run so far. A worker may wake from
`cv_.wait` at any time (a notification or a spurious wake-up), so no step
depends on `notify_one` or `notify_all`.
-/

namespace NebulaToolkit.ThreadPool

open Lib

variable {Task : Type} {n : Nat}

/-- Where a worker stands in `WorkerLoop`. -/
inductive Worker (Task : Type) where
  /-- Blocked in `cv_.wait`, or about to take the lock. -/
  | waiting
  /-- Past `cv_.wait`: holds the lock and has seen the predicate true. -/
  | checked
  /-- Executing the task that was dequeued `k`th, counting from 0. -/
  | executing (k : Nat) (task : Task)
  | exited

/-- Who holds `queue_mutex_`: a worker, or a batch `PostTask` that began when
`start` tasks had been posted, with the part of the batch still to push. -/
inductive Holder (Task : Type) (n : Nat) where
  | worker (w : Fin n)
  | batch (start : Nat) (batch rest : List Task)

structure State (Task : Type) (n : Nat) where
  taskQueue : List Task := []
  running : Bool := true
  lock : Option (Holder Task n) := none
  worker : Fin n → Worker Task := fun _ => .waiting
  /-- Every task pushed so far, in order. -/
  posted : List Task := []
  /-- Every task dequeued so far, in order, with the worker that took it. -/
  taken : List (Fin n × Task) := []
  /-- The tasks run so far, by their place in `taken`. -/
  ran : List Nat := []
  /-- The batches pushed so far, with the number of tasks posted before each. -/
  batches : List (Nat × List Task) := []
  /-- How many tasks had been posted when the destructor cleared `running_`. -/
  stoppedAt : Option Nat := none
  /-- How many tasks had been posted when a worker last exited. -/
  exitedAt : Nat := 0

def State.push (s : State Task n) (t : Task) : State Task n :=
  { s with taskQueue := s.taskQueue ++ [t], posted := s.posted ++ [t] }

def State.setWorker (s : State Task n) (w : Fin n) (p : Worker Task) : State Task n :=
  { s with worker := Function.update s.worker w p }

inductive Step : State Task n → State Task n → Prop
  /-- `PostTask(cb_task)` -/
  | postTask {s : State Task n} (t : Task) : s.lock = none → Step s (s.push t)
  /-- `PostTask(cb_tasks)` takes the lock, ... -/
  | batchLock {s : State Task n} (ts : List Task) : s.lock = none →
      Step s { s with lock := some (.batch s.posted.length ts ts) }
  /-- ... pushes task after task, ... -/
  | batchPush {s : State Task n} {start : Nat} {ts rest : List Task} {t : Task} :
      s.lock = some (.batch start ts (t :: rest)) →
      Step s { s.push t with lock := some (.batch start ts rest) }
  /-- ... and releases it. -/
  | batchUnlock {s : State Task n} {start : Nat} {ts : List Task} : s.lock = some (.batch start ts []) →
      Step s { s with lock := none, batches := s.batches ++ [(start, ts)] }
  /-- `cv_.wait` returns: the lock is taken and the predicate holds. -/
  | wake {s : State Task n} (w : Fin n) : s.lock = none → s.worker w = .waiting →
      (s.running = false ∨ s.taskQueue ≠ []) →
      Step s { s.setWorker w .checked with lock := some (.worker w) }
  /-- `if (!running_ && task_queue_.empty()) return` -/
  | exit {s : State Task n} (w : Fin n) : s.lock = some (.worker w) → s.worker w = .checked →
      s.running = false ∧ s.taskQueue = [] →
      Step s { s.setWorker w .exited with lock := none, exitedAt := s.posted.length }
  /-- `front` and `pop`, then the lock is released. -/
  | dequeue {s : State Task n} (w : Fin n) {t : Task} {q : List Task} : s.lock = some (.worker w) →
      s.worker w = .checked → ¬ (s.running = false ∧ s.taskQueue = []) → s.taskQueue = t :: q →
      Step s { s.setWorker w (.executing s.taken.length t) with
        taskQueue := q, lock := none, taken := s.taken ++ [(w, t)] }
  /-- `cb_task()` returns. -/
  | run {s : State Task n} (w : Fin n) {k : Nat} {t : Task} : s.worker w = .executing k t →
      Step s { s.setWorker w .waiting with ran := s.ran ++ [k] }
  /-- `~ThreadPool` clears `running_`. -/
  | destroy {s : State Task n} : s.lock = none → s.running = true →
      Step s { s with running := false, stoppedAt := some s.posted.length }

/-- The pool after its constructor: no task, every worker in its loop. -/
def Start (s : State Task n) : Prop := s = {}

structure Inv (s : State Task n) : Prop where
  /-- What was posted is what was dequeued and then the queue. -/
  order : s.taken.map (·.2) ++ s.taskQueue = s.posted
  /-- A worker executes a task it dequeued itself. -/
  executing : ∀ w k t, s.worker w = .executing k t → s.taken[k]? = some (w, t)
  ran_lt : ∀ k ∈ s.ran, k < s.taken.length
  ran_once : s.ran.Nodup
  /-- A task that has been run is no longer held. -/
  ran_done : ∀ k ∈ s.ran, ∀ w t, s.worker w ≠ .executing k t
  /-- A dequeued task has been run or is held. -/
  kept : ∀ k < s.taken.length, k ∈ s.ran ∨ ∃ w t, s.worker w = .executing k t
  /-- Past the wait, the lock is held and the predicate still holds. -/
  checked : ∀ w, s.worker w = .checked → s.lock = some (.worker w) ∧ (s.running = false ∨ s.taskQueue ≠ [])
  /-- A batch in progress was pushed from `start` on, without gaps. -/
  batch : ∀ start ts rest, s.lock = some (.batch start ts rest) →
    start ≤ s.posted.length ∧ s.posted.drop start ++ rest = ts
  batches : ∀ b ∈ s.batches, ∃ pre post, s.posted = pre ++ b.2 ++ post ∧ pre.length = b.1
  stopped : ∀ m, s.stoppedAt = some m → s.running = false ∧ m ≤ s.posted.length
  exited : ∀ w, s.worker w = .exited → s.running = false ∧ s.exitedAt ≤ s.taken.length ∧
    ∀ m, s.stoppedAt = some m → m ≤ s.exitedAt
  /-- Nothing is dequeued after the last worker exited. -/
  last : (∀ w, s.worker w = .exited) → 0 < n → s.exitedAt = s.taken.length

theorem start_inv {s : State Task n} (h : Start s) : Inv s := by
  subst h
  constructor <;> simp

/-! ## Changing one worker -/

@[simp] theorem setWorker_self (s : State Task n) (w : Fin n) (p : Worker Task) :
    (s.setWorker w p).worker w = p := by
  simp [State.setWorker]

theorem setWorker_other (s : State Task n) {w v : Fin n} (p : Worker Task) (h : v ≠ w) :
    (s.setWorker w p).worker v = s.worker v := by simp [State.setWorker, h]

/-- A worker that stands where `w` was not put is another one, and stands there still. -/
theorem of_setWorker {s : State Task n} {w v : Fin n} {p x : Worker Task} (hx : p ≠ x)
    (h : (s.setWorker w p).worker v = x) : v ≠ w ∧ s.worker v = x := by
  by_cases hv : v = w
  · subst hv; rw [setWorker_self] at h; exact absurd h hx
  · exact ⟨hv, by rwa [setWorker_other s p hv] at h⟩

/-- A worker that does not stand where `w` stands is untouched by a change of `w`. -/
theorem to_setWorker {s : State Task n} {w v : Fin n} {p x : Worker Task} (hw : s.worker w ≠ x)
    (h : s.worker v = x) : (s.setWorker w p).worker v = x := by
  rw [setWorker_other s p (by rintro rfl; exact hw h), h]

/-- A worker that holds no task before or after its change leaves the tasks held as they are. -/
theorem executing_setWorker {s : State Task n} {w v : Fin n} {p : Worker Task} {k : Nat} {t : Task}
    (hw : s.worker w ≠ .executing k t) (hp : p ≠ .executing k t) :
    (s.setWorker w p).worker v = .executing k t ↔ s.worker v = .executing k t :=
  ⟨fun h => (of_setWorker hp h).2, to_setWorker hw⟩

/-! ## Every step keeps the invariant -/

section
variable {s : State Task n} (hi : Inv s)
include hi

theorem length_order : s.taken.length + s.taskQueue.length = s.posted.length := by
  have h := congrArg List.length hi.order
  rwa [List.length_append, List.length_map] at h

/-- A worker past its wait holds the lock, so while another holder has it there is none. -/
theorem none_checked {l : Option (Holder Task n)} (hl : s.lock = l) (h : ∀ w, l ≠ some (.worker w))
    (w : Fin n) :
    s.worker w ≠ .checked := fun hw => h w (hl ▸ (hi.checked w hw).1)

/-- The worker that holds the lock is the only one past its wait. -/
theorem sole_checked {w : Fin n} (hl : s.lock = some (.worker w)) {p : Worker Task} (hp : p ≠ .checked)
    (v : Fin n) :
    (s.setWorker w p).worker v ≠ .checked := by
  intro h
  obtain ⟨hv, h⟩ := of_setWorker hp h
  have := (hi.checked v h).1
  rw [hl] at this
  cases this
  exact hv rfl

/-- Pushing a task, with no worker between its wait and its next step. -/
theorem push_inv (t : Task) (hw : ∀ w, s.lock ≠ some (.worker w))
    (hb : ∀ start ts rest, s.lock ≠ some (.batch start ts rest)) : Inv (s.push t) := by
  refine { hi with order := ?_, checked := ?_, batch := ?_, batches := ?_, stopped := ?_ }
  · show s.taken.map (·.2) ++ (s.taskQueue ++ [t]) = s.posted ++ [t]
    rw [← List.append_assoc, hi.order]
  · exact fun w h => absurd (hi.checked w h).1 (hw w)
  · exact fun start ts rest h => absurd h (hb start ts rest)
  · intro b hmem
    obtain ⟨pre, post, hp, hl⟩ := hi.batches b hmem
    exact ⟨pre, post ++ [t], by simp [State.push, hp], hl⟩
  · intro m hm
    obtain ⟨h1, h2⟩ := hi.stopped m hm
    exact ⟨h1, by simp [State.push]; omega⟩

/-- Taking and releasing the lock changes nothing the invariant says about
tasks. -/
theorem lock_inv {l : Option (Holder Task n)} (hc : ∀ w, s.worker w ≠ .checked)
    (hb : ∀ start ts rest, l = some (.batch start ts rest) →
      start ≤ s.posted.length ∧ s.posted.drop start ++ rest = ts) :
    Inv { s with lock := l } :=
  { hi with checked := fun w h => absurd h (hc w), batch := hb }

theorem batchPush_inv {start : Nat} {ts rest : List Task} {t : Task}
    (hl : s.lock = some (.batch start ts (t :: rest))) :
    Inv { s.push t with lock := some (.batch start ts rest) } := by
  have hb := hi.batch _ _ _ hl
  have hc := none_checked hi hl (by simp)
  have hfree := lock_inv hi (l := none) hc (by simp)
  refine lock_inv (push_inv hfree t (by simp) (by simp)) hc ?_
  rintro start' ts' rest' h
  cases h
  refine ⟨by simp [State.push]; omega, ?_⟩
  show (s.posted ++ [t]).drop start ++ rest = ts
  rw [List.drop_append_of_le_length hb.1, List.append_assoc]
  exact hb.2

theorem batchUnlock_inv {start : Nat} {ts : List Task} (hl : s.lock = some (.batch start ts [])) :
    Inv { s with lock := none, batches := s.batches ++ [(start, ts)] } := by
  have hb := hi.batch _ _ _ hl
  refine { lock_inv hi (l := none) (none_checked hi hl (by simp)) (by simp) with batches := ?_ }
  intro b hmem
  rcases List.mem_append.1 hmem with hmem | hmem
  · exact hi.batches b hmem
  · rw [List.mem_singleton] at hmem
    subst hmem
    refine ⟨s.posted.take start, [], ?_, by simp [hb.1]⟩
    rw [← hb.2]
    simp

theorem wake_inv {w : Fin n} (hl : s.lock = none) (hw : s.worker w = .waiting)
    (hpred : s.running = false ∨ s.taskQueue ≠ []) :
    Inv { s.setWorker w .checked with lock := some (.worker w) } :=
  { hi with
    executing := fun v k t h => hi.executing v k t ((executing_setWorker (by simp [hw]) (by simp)).1 h)
    ran_done := fun k hk v t h => hi.ran_done k hk v t ((executing_setWorker (by simp [hw]) (by simp)).1 h)
    kept := fun k hk =>
      (hi.kept k hk).imp_right fun ⟨v, t, h⟩ => ⟨v, t, (executing_setWorker (by simp [hw]) (by simp)).2 h⟩
    checked := fun v h => by
      by_cases hv : v = w
      · subst hv; exact ⟨rfl, hpred⟩
      · exact absurd (by rwa [← setWorker_other s .checked hv]) (none_checked hi hl (by simp) v)
    batch := by simp
    exited := fun v h => hi.exited v (of_setWorker (by simp) h).2
    last := fun h => by have := h w; simp at this }

theorem exit_inv {w : Fin n} (hl : s.lock = some (.worker w)) (hw : s.worker w = .checked)
    (hpred : s.running = false ∧ s.taskQueue = []) :
    Inv { s.setWorker w .exited with lock := none, exitedAt := s.posted.length } := by
  -- The queue is empty, so everything posted has been dequeued.
  have hall : s.taken.length = s.posted.length := by
    rw [← length_order hi, hpred.2, List.length_nil, Nat.add_zero]
  exact { hi with
    executing := fun v k t h => hi.executing v k t ((executing_setWorker (by simp [hw]) (by simp)).1 h)
    ran_done := fun k hk v t h => hi.ran_done k hk v t ((executing_setWorker (by simp [hw]) (by simp)).1 h)
    kept := fun k hk =>
      (hi.kept k hk).imp_right fun ⟨v, t, h⟩ => ⟨v, t, (executing_setWorker (by simp [hw]) (by simp)).2 h⟩
    checked := fun v h => absurd h (sole_checked hi hl (by simp) v)
    batch := by simp
    exited := fun v _ => ⟨hpred.1, Nat.le_of_eq hall.symm, fun m hm => (hi.stopped m hm).2⟩
    last := fun _ _ => hall.symm }

theorem dequeue_inv {w : Fin n} {t : Task} {q : List Task} (hl : s.lock = some (.worker w))
    (hw : s.worker w = .checked) (hq : s.taskQueue = t :: q) :
    Inv { s.setWorker w (.executing s.taken.length t) with
      taskQueue := q, lock := none, taken := s.taken ++ [(w, t)] } := by
  refine { hi with
    order := ?_, executing := ?_, ran_lt := ?_, ran_done := ?_, kept := ?_, checked := ?_
    batch := by simp, exited := ?_, last := ?_ }
  · show (s.taken ++ [(w, t)]).map (·.2) ++ q = s.posted
    rw [← hi.order, hq]
    simp
  · intro v k u h
    by_cases hv : v = w
    · subst hv
      rw [setWorker_self] at h
      cases h
      simp
    · rw [setWorker_other s _ hv] at h
      have := hi.executing v k u h
      rw [List.getElem?_append_left (List.getElem?_eq_some_iff.1 this).1, this]
  · intro k hk
    have := hi.ran_lt k hk
    simp; omega
  · intro k hk v u h
    have hne : Worker.executing s.taken.length t ≠ .executing k u := by
      rintro h
      cases h
      exact Nat.lt_irrefl _ (hi.ran_lt _ hk)
    exact hi.ran_done k hk v u (of_setWorker hne h).2
  · intro k hk
    simp only [List.length_append, List.length_singleton] at hk
    rcases Nat.lt_succ_iff_lt_or_eq.1 hk with hk | rfl
    · exact (hi.kept k hk).imp_right fun ⟨v, u, h⟩ => ⟨v, u, to_setWorker (by simp [hw]) h⟩
    · exact .inr ⟨w, t, setWorker_self s w _⟩
  · exact fun v h => absurd h (sole_checked hi hl (by simp) v)
  · intro v h
    obtain ⟨h1, h2, h3⟩ := hi.exited v (of_setWorker (by simp) h).2
    exact ⟨h1, Nat.le_trans h2 (by simp), h3⟩
  · intro h
    have := h w
    simp at this

theorem run_inv {w : Fin n} {k : Nat} {t : Task} (hw : s.worker w = .executing k t) :
    Inv { s.setWorker w .waiting with ran := s.ran ++ [k] } := by
  have hk := (List.getElem?_eq_some_iff.1 (hi.executing w k t hw)).1
  refine { hi with
    executing := ?_, ran_lt := ?_, ran_once := ?_, ran_done := ?_, kept := ?_, checked := ?_
    exited := ?_, last := ?_ }
  · exact fun v j u h => hi.executing v j u (of_setWorker (by simp) h).2
  · intro j hj
    rcases List.mem_append.1 hj with hj | hj
    · exact hi.ran_lt j hj
    · rw [List.mem_singleton] at hj; subst hj; exact hk
  · refine List.nodup_append.2 ⟨hi.ran_once, by simp, fun j hj i hi' he => ?_⟩
    rw [List.mem_singleton] at hi'
    subst hi' he
    exact hi.ran_done j hj w t hw
  · intro j hj v u h
    obtain ⟨hv, hold⟩ := of_setWorker (by simp) h
    rcases List.mem_append.1 hj with hj | hj
    · exact hi.ran_done j hj v u hold
    · -- Both workers would have dequeued the `k`th task.
      rw [List.mem_singleton] at hj
      subst hj
      have h1 := hi.executing v j u hold
      rw [hi.executing w j t hw] at h1
      cases h1
      exact hv rfl
  · intro j hj
    rcases hi.kept j hj with h | ⟨v, u, h⟩
    · exact .inl (List.mem_append_left _ h)
    · by_cases hjk : j = k
      · exact .inl (by simp [hjk])
      · exact .inr ⟨v, u, to_setWorker (by rw [hw]; simp [Ne.symm hjk]) h⟩
  · exact fun v h => hi.checked v (of_setWorker (by simp) h).2
  · exact fun v h => hi.exited v (of_setWorker (by simp) h).2
  · intro h
    have := h w
    simp at this

theorem destroy_inv (hl : s.lock = none) (hr : s.running = true) :
    Inv { s with running := false, stoppedAt := some s.posted.length } := by
  refine { hi with checked := ?_, stopped := ?_, exited := ?_ }
  · exact fun w h => absurd h (none_checked hi hl (by simp) w)
  · rintro m h
    cases h
    exact ⟨rfl, Nat.le_refl _⟩
  · -- No worker exits before `running_` is cleared.
    intro w h
    have := (hi.exited w h).1
    simp [hr] at this

end

theorem step_inv {s s' : State Task n} (hi : Inv s) (h : Step s s') : Inv s' := by
  cases h with
  | postTask t hl => exact push_inv hi t (by simp [hl]) (by simp [hl])
  | batchLock ts hl =>
    refine lock_inv hi (none_checked hi hl (by simp)) ?_
    rintro start ts' rest h
    cases h
    simp
  | batchPush hl => exact batchPush_inv hi hl
  | batchUnlock hl => exact batchUnlock_inv hi hl
  | wake w hl hw hpred => exact wake_inv hi hl hw hpred
  | exit w hl hw hpred => exact exit_inv hi hl hw hpred
  | dequeue w hl hw _ hq => exact dequeue_inv hi hl hw hq
  | run w hw => exact run_inv hi hw
  | destroy hl hr => exact destroy_inv hi hl hr

theorem reachable_inv {s : State Task n} (h : Reachable Start Step s) : Inv s :=
  h.inv (fun _ hs => start_inv hs) (fun _ _ _ hs ht => step_inv hs ht)

/-! ## The guarantees -/

/-- `front` is never called on an empty queue. -/
theorem dequeue_finds_task {s : State Task n} (h : Reachable Start Step s) {w : Fin n}
    (hw : s.worker w = .checked) (hexit : ¬ (s.running = false ∧ s.taskQueue = [])) :
    ∃ t q, s.taskQueue = t :: q := by
  have hpred := ((reachable_inv h).checked w hw).2
  cases hq : s.taskQueue with
  | nil => simp_all
  | cons t q => exact ⟨t, q, rfl⟩

/-- The `k`th dequeued task has been run once and for all, or is in the hands of
the one worker that took it, not yet run. -/
def RunsOnce (s : State Task n) (k : Nat) : Prop :=
  (s.ran.count k = 1 ∧ ∀ w t, s.worker w ≠ .executing k t) ∨
    (s.ran.count k = 0 ∧ ∃! w, ∃ t, s.worker w = .executing k t)

theorem Inv.runsOnce {s : State Task n} (hi : Inv s) {k : Nat} (hk : k < s.taken.length) : RunsOnce s k := by
  by_cases h : k ∈ s.ran
  · exact .inl ⟨List.count_eq_one_of_mem hi.ran_once h, hi.ran_done k h⟩
  · obtain ⟨w, t, hw⟩ := (hi.kept k hk).resolve_left h
    refine .inr ⟨List.count_eq_zero_of_not_mem h, w, ⟨t, hw⟩, fun v ⟨u, hv⟩ => ?_⟩
    have h1 := hi.executing v k u hv
    rw [hi.executing w k t hw] at h1
    cases h1
    rfl

/-- Once every worker has exited, what is left in the queue was posted after the
last of them did, and everything posted before has been run. -/
theorem Inv.exited_all {s : State Task n} (hi : Inv s) (hn : 0 < n) (hex : ∀ w, s.worker w = .exited) :
    s.taskQueue = s.posted.drop s.exitedAt ∧ ∀ k < s.exitedAt, s.ran.count k = 1 := by
  have hlast := hi.last hex hn
  constructor
  · rw [← hi.order, hlast, List.drop_left' (by simp)]
  · intro k hk
    rcases hi.runsOnce (hlast ▸ hk) with h | ⟨-, w, ⟨t, hw⟩, -⟩
    · exact h.1
    · rw [hex w] at hw; cases hw

/-- In every interleaving tasks are dequeued in the order they were pushed, each
by one worker that runs it once, a batch without gaps. Once every worker has
exited, all tasks posted before the destructor began have been run, and the
queue holds only what was posted after the last worker exited. -/
theorem pool_runs_everything (hn : 0 < n) (s : State Task n) (h : Reachable Start Step s) :
    s.taken.map (·.2) ++ s.taskQueue = s.posted ∧ (∀ k < s.taken.length, RunsOnce s k) ∧
      (∀ b ∈ s.batches, ∃ pre post, s.posted = pre ++ b.2 ++ post ∧ pre.length = b.1) ∧
      ((∀ w, s.worker w = .exited) →
        s.taskQueue = s.posted.drop s.exitedAt ∧ (∀ k < s.exitedAt, s.ran.count k = 1) ∧
        ∀ m, s.stoppedAt = some m → ∀ k < m, s.ran.count k = 1) := by
  have hi := reachable_inv h
  refine ⟨hi.order, fun k => hi.runsOnce, hi.batches, fun hex => ?_⟩
  obtain ⟨hq, hrun⟩ := hi.exited_all hn hex
  exact ⟨hq, hrun, fun m hm k hk => hrun k (Nat.lt_of_lt_of_le hk ((hi.exited ⟨0, hn⟩ (hex _)).2.2 m hm))⟩

/-- The run of one task through one worker, up to the end of the pool. -/
theorem pool_runs_everything_one : ∃ s : State Nat 1, Reachable Start Step s ∧ (∀ w, s.worker w = .exited) ∧
    s.stoppedAt = some 1 ∧ s.ran.count 0 = 1 ∧ s.taskQueue = [] := by
  have h₁ := (Reachable.start rfl : Reachable Start Step ({} : State Nat 1)).next (.postTask 7 rfl)
  have h₂ := h₁.next (.wake 0 rfl rfl (.inr (by simp [State.push])))
  have h₃ := h₂.next (.dequeue 0 rfl rfl (by simp [State.push, State.setWorker]) rfl)
  have h₄ := h₃.next (.destroy rfl rfl)
  have h₅ := h₄.next (.run 0 rfl)
  have h₆ := h₅.next (.wake 0 rfl rfl (.inl rfl))
  have h₇ := h₆.next (.exit 0 rfl rfl ⟨rfl, rfl⟩)
  have hw : ∀ w, w = (0 : Fin 1) := fun w => Subsingleton.elim w 0
  have hex := (pool_runs_everything (by decide) _ h₇).2.2.2 (fun w => by rw [hw w]; rfl)
  exact ⟨_, h₇, fun w => by rw [hw w]; rfl, rfl, hex.2.2 1 rfl 0 (by decide), hex.1⟩

/-- A task posted after the last worker exited stays in the queue: `PostTask` does
not look at `running_`. -/
theorem late_post_stays : ¬ ∀ s :
    State Nat 1, Reachable Start Step s → (∀ w, s.worker w = .exited) → s.taskQueue = [] := by
  intro hall
  have h₁ := (Reachable.start rfl : Reachable Start Step ({} : State Nat 1)).next (.destroy rfl rfl)
  have h₂ := h₁.next (.wake 0 rfl rfl (.inl rfl))
  have h₃ := h₂.next (.exit 0 rfl rfl ⟨rfl, rfl⟩)
  have h₄ := h₃.next (.postTask 7 rfl)
  have hq := hall _ h₄ (fun w => by rw [Subsingleton.elim w 0]; rfl)
  cases hq

end NebulaToolkit.ThreadPool
