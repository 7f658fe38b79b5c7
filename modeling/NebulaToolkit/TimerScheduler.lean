import Mathlib.Algebra.Group.Nat.Defs
import Mathlib.Data.Finset.Basic
import Mathlib.Data.Multiset.Count
import Mathlib.Data.Multiset.Filter
import Mathlib.Data.Multiset.UnionInter
import Mathlib.Logic.Function.Basic
import NebulaToolkit.Lib.Machine
/-!
# The timer scheduler

`threading::TimerScheduler`: any number of threads call `ScheduleOnce`, `Cancel`
and `Stop`, one thread runs `RunScheduler`. Each critical section under
`mutex_` is one step; drawing an id, reading the clock, notifying and posting
are steps of their own. Time is `steady_clock`'s signed 64-bit count of
nanoseconds. The last fields of a state are history.
-/

namespace NebulaToolkit

open Lib

structure TimerTask (CallBack : Type) where
  execTime : Int
  callback : CallBack
  taskId : UInt64

namespace TimerTask

variable {CallBack : Type}

/-- `operator<` -/
def lt (a b : TimerTask CallBack) : Prop := a.execTime > b.execTime

/-- What `timer_tasks_.top()` may be: no task of the queue is above it. -/
def IsTop (t : TimerTask CallBack) (q : Multiset (TimerTask CallBack)) : Prop := t ∈ q ∧ ∀ t' ∈ q, ¬ t.lt t'

theorem isTop_singleton (t : TimerTask CallBack) : t.IsTop (t ::ₘ 0) := by
  refine ⟨Multiset.mem_cons_self t 0, fun t' ht' => ?_⟩
  obtain rfl : t' = t := by simpa using ht'
  exact Int.lt_irrefl _

theorem IsTop.le {t : TimerTask CallBack} {q : Multiset (TimerTask CallBack)} (h : t.IsTop q)
    {t' : TimerTask CallBack} (ht : t' ∈ q) : t.execTime ≤ t'.execTime := Int.not_lt.1 (h.2 t' ht)

end TimerTask

namespace TimerScheduler

/-- `now + std::chrono::milliseconds(delay_ms)`, with the 64-bit counters wrapping. -/
def execTime (now : Int) (delayMs : UInt64) : Int :=
  (now + ((delayMs.toNat : Int).bmod (2 ^ 64) * 1000000).bmod (2 ^ 64)).bmod (2 ^ 64)

/-- Where a calling thread stands. -/
inductive Thread (CallBack : Type) where
  | idle
  /-- In `ScheduleOnce`, with its id ... -/
  | drawn (id : UInt64) (delayMs : UInt64) (cbTask : CallBack)
  /-- ... with the task to push ... -/
  | timed (task : TimerTask CallBack)
  /-- ... and before `notify_one`. -/
  | notifyOne
  /-- In `Stop`, before the lock is taken ... -/
  | stopping
  /-- ... before `notify_all` ... -/
  | notifyAll
  /-- ... and before the thread is joined. -/
  | joining

/-- Where the scheduler thread stands. -/
inductive Loop (CallBack : Type) where
  | absent
  /-- Before `while (running_.load())`. -/
  | head
  /-- Behind it, before the lock is taken. -/
  | body
  /-- Blocked in the untimed wait. -/
  | waiting
  /-- Woken from it, before the predicate is looked at. -/
  | woken
  /-- Blocked in `wait_until`. -/
  | sleeping (deadline : Int)
  /-- Between the pop and `PostTask`. -/
  | flying (task : TimerTask CallBack)
  | exited

variable {ι CallBack : Type}

/-- A notification, a timeout or a spurious wake-up. -/
def Loop.wake : Loop CallBack → Loop CallBack
  | .waiting => .woken
  | .sleeping _ => .head
  | l => l

structure State (ι CallBack : Type) where
  timerTasks : Multiset (TimerTask CallBack) := 0
  canceledIds : Finset UInt64 := ∅
  nextId : UInt64 := 0
  running : Bool := false
  scheduler : Loop CallBack := .absent
  thread : ι → Thread CallBack := fun _ => .idle
  /-- What `steady_clock::now()` reads. -/
  now : Int
  /-- How many ids were drawn. -/
  calls : Nat := 0
  pushed : Multiset (TimerTask CallBack) := 0
  posted : List (TimerTask CallBack) := []
  discarded : Multiset (TimerTask CallBack) := 0
  /-- The ids `Cancel` was called with. -/
  cancels : Finset UInt64 := ∅
  /-- The tasks that were in the queue when `Cancel` was called with their id. -/
  hit : Multiset (TimerTask CallBack) := 0

def State.setThread [DecidableEq ι] (s : State ι CallBack) (i : ι) (p : Thread CallBack) : State ι CallBack :=
  { s with thread := Function.update s.thread i p }

inductive Step [DecidableEq ι] : State ι CallBack → State ι CallBack → Prop
  /-- `next_id_.fetch_add(1)` -/
  | fetchAdd {s : State ι CallBack} (i : ι) (delayMs : UInt64) (cbTask : CallBack) : s.thread i = .idle →
      Step s { s.setThread i (.drawn s.nextId delayMs cbTask) with
        nextId := s.nextId + 1, calls := s.calls + 1 }
  /-- `steady_clock::now()` -/
  | readClock {s : State ι CallBack} {i : ι} {id delayMs : UInt64} {cbTask : CallBack} :
      s.thread i = .drawn id delayMs cbTask →
      Step s (s.setThread i (.timed ⟨execTime s.now delayMs, cbTask, id⟩))
  | push {s : State ι CallBack} {i : ι} {t : TimerTask CallBack} : s.thread i = .timed t →
      Step s { s.setThread i .notifyOne with timerTasks := t ::ₘ s.timerTasks, pushed := t ::ₘ s.pushed }
  | notifyOne {s : State ι CallBack} {i : ι} : s.thread i = .notifyOne →
      Step s { s.setThread i .idle with scheduler := s.scheduler.wake }
  | cancel {s : State ι CallBack} (taskId : UInt64) :
      Step s { s with
        canceledIds := insert taskId s.canceledIds
        cancels := insert taskId s.cancels
        hit := s.timerTasks.filter (·.taskId = taskId) + s.hit }
  | start {s : State ι CallBack} : s.running = false → s.scheduler = .absent ∨ s.scheduler = .exited →
      Step s { s with running := true, scheduler := .head }
  /-- `if (running_)` -/
  | stop {s : State ι CallBack} {i : ι} : s.thread i = .idle → s.running = true →
      Step s (s.setThread i .stopping)
  /-- `running_ = false` -/
  | clearRunning {s : State ι CallBack} {i : ι} : s.thread i = .stopping →
      Step s { s.setThread i .notifyAll with running := false }
  | notifyAll {s : State ι CallBack} {i : ι} : s.thread i = .notifyAll →
      Step s { s.setThread i .joining with scheduler := s.scheduler.wake }
  | join {s : State ι CallBack} {i : ι} : s.thread i = .joining →
      s.scheduler = .exited → Step s (s.setThread i .idle)
  | clock {s : State ι CallBack} (now : Int) : s.now ≤ now → Step s { s with now := now }
  /-- A timeout or a spurious wake-up. -/
  | wakeUp {s : State ι CallBack} : Step s { s with scheduler := s.scheduler.wake }
  /-- `while (running_.load())` -/
  | load {s : State ι CallBack} : s.scheduler = .head →
      Step s { s with scheduler := if s.running then .body else .exited }
  /-- The critical section on an empty queue: the wait, which looks at its predicate first. -/
  | waitEmpty {s : State ι CallBack} : s.scheduler = .body → s.timerTasks = 0 →
      Step s { s with scheduler := if s.running then .waiting else .head }
  /-- The predicate holds, ... -/
  | waitEnds {s : State ι CallBack} : s.scheduler = .woken → s.running = false ∨ s.timerTasks ≠ 0 →
      Step s { s with scheduler := .head }
  /-- ... or it does not. -/
  | waitAgain {s : State ι CallBack} : s.scheduler = .woken → s.running = true → s.timerTasks = 0 →
      Step s { s with scheduler := .waiting }
  /-- The critical section on a canceled task, ... -/
  | discard {s : State ι CallBack} {t : TimerTask CallBack}
      (rest : Multiset (TimerTask CallBack)) : s.scheduler = .body →
        t.IsTop s.timerTasks → s.timerTasks = t ::ₘ rest → t.taskId ∈ s.canceledIds →
      Step s { s with
        timerTasks := rest
        canceledIds := s.canceledIds.erase t.taskId
        discarded := t ::ₘ s.discarded
        scheduler := .head }
  /-- ... on a task that is due, ... -/
  | pop {s : State ι CallBack} {t : TimerTask CallBack}
      (rest : Multiset (TimerTask CallBack)) : s.scheduler = .body → t.IsTop s.timerTasks →
      s.timerTasks = t ::ₘ rest → t.taskId ∉ s.canceledIds → s.now ≥ t.execTime →
      Step s { s with timerTasks := rest, scheduler := .flying t }
  /-- ... and on one that is not. -/
  | waitUntil {s : State ι CallBack} {t : TimerTask CallBack} : s.scheduler = .body → t.IsTop s.timerTasks →
      t.taskId ∉ s.canceledIds → ¬ s.now ≥ t.execTime → Step s { s with scheduler := .sleeping t.execTime }
  /-- `thread_pool_->PostTask(std::move(cur_timer_task.callback))` -/
  | postTask {s : State ι CallBack} {t : TimerTask CallBack} : s.scheduler = .flying t →
      Step s { s with posted := s.posted ++ [t], scheduler := .head }

/-- A new scheduler, whatever the clock reads. -/
def Start (s : State ι CallBack) : Prop := ∃ now, s = { now := now }

/-! ## The invariant -/

/-- The task between the pop and `PostTask`. -/
def State.inFlight (s : State ι CallBack) : Multiset (TimerTask CallBack) :=
  match s.scheduler with
  | .flying t => {t}
  | _ => 0

/-- The id of a `ScheduleOnce` that has not pushed yet. -/
def Thread.taskId? : Thread CallBack → Option UInt64
  | .drawn id _ _ => some id
  | .timed t => some t.taskId
  | _ => none

structure Inv (s : State ι CallBack) : Prop where
  /-- Every task pushed is in one place. -/
  conserved : s.timerTasks + s.inFlight + s.posted + s.discarded = s.pushed
  nodup : (s.pushed.map TimerTask.taskId).Nodup
  nextId_eq : s.nextId.toNat = s.calls
  pushed_lt : ∀ t ∈ s.pushed, t.taskId.toNat < s.calls
  drawn_lt : ∀ i id, (s.thread i).taskId? = some id → id.toNat < s.calls
  drawn_fresh : ∀ i id, (s.thread i).taskId? = some id → id ∉ s.pushed.map TimerTask.taskId
  drawn_inj : ∀ i j id, (s.thread i).taskId? = some id → (s.thread j).taskId? = some id → i = j
  canceled_sub : s.canceledIds ⊆ s.cancels
  discarded_mem : ∀ t ∈ s.discarded, t.taskId ∈ s.cancels
  /-- A task that was hit waits to be discarded, or has been. -/
  hit_mem : ∀ t ∈ s.hit, t ∈ s.timerTasks ∧ t.taskId ∈ s.canceledIds ∨ t ∈ s.discarded

variable {s s' : State ι CallBack}

@[simp] theorem Loop.wake_inFlight {s : State ι CallBack} {l : Loop CallBack} :
    State.inFlight { s with scheduler := l.wake } = State.inFlight { s with scheduler := l } := by
  cases l <;> rfl

/-- What happens to threads that draw no id, and to the scheduler while its task
stays where it is, is no matter. -/
theorem Inv.frame (h : Inv s) {running : Bool} {scheduler : Loop CallBack} {thread : ι → Thread CallBack}
    {now : Int} (hf : State.inFlight { s with scheduler := scheduler } = s.inFlight)
    (hid : ∀ i id, (thread i).taskId? = some id → (s.thread i).taskId? = some id) :
    Inv { s with running := running, scheduler := scheduler, thread := thread, now := now } where
  conserved := by rw [← h.conserved]; exact congrArg (s.timerTasks + · + s.posted + s.discarded) hf
  nodup := h.nodup
  nextId_eq := h.nextId_eq
  pushed_lt := h.pushed_lt
  drawn_lt i id hi := h.drawn_lt i id (hid i id hi)
  drawn_fresh i id hi := h.drawn_fresh i id (hid i id hi)
  drawn_inj i j id hi hj := h.drawn_inj i j id (hid i id hi) (hid j id hj)
  canceled_sub := h.canceled_sub
  discarded_mem := h.discarded_mem
  hit_mem := h.hit_mem

theorem cancel_inv (h : Inv s) (taskId : UInt64) : Inv { s with
    canceledIds := insert taskId s.canceledIds
    cancels := insert taskId s.cancels
    hit := s.timerTasks.filter (·.taskId = taskId) + s.hit } where
  conserved := h.conserved
  nodup := h.nodup
  nextId_eq := h.nextId_eq
  pushed_lt := h.pushed_lt
  drawn_lt := h.drawn_lt
  drawn_fresh := h.drawn_fresh
  drawn_inj := h.drawn_inj
  canceled_sub := Finset.insert_subset_insert _ h.canceled_sub
  discarded_mem t ht := Finset.mem_insert_of_mem (h.discarded_mem t ht)
  hit_mem t ht := by
    rcases Multiset.mem_add.1 ht with ht | ht
    · obtain ⟨hq, rfl⟩ := Multiset.mem_filter.1 ht
      exact .inl ⟨hq, Finset.mem_insert_self _ _⟩
    · exact (h.hit_mem t ht).imp_left fun ⟨h1, h2⟩ => ⟨h1, Finset.mem_insert_of_mem h2⟩

section
variable {t : TimerTask CallBack} {rest : Multiset (TimerTask CallBack)} (hb : s.scheduler = .body)
  (hq : s.timerTasks = t ::ₘ rest)
include hq

/-- Ids tell pushed tasks apart. -/
theorem Inv.taskId_ne (h : Inv s) {t' : TimerTask CallBack} (ht : t' ∈ rest) : t'.taskId ≠ t.taskId := by
  have hn := h.nodup
  rw [← h.conserved, hq] at hn
  simp only [Multiset.cons_add, Multiset.map_cons, Multiset.nodup_cons] at hn
  intro he
  refine hn.1 (he ▸ Multiset.mem_map_of_mem _ ?_)
  simp only [Multiset.mem_add]
  exact .inl (.inl (.inl ht))

include hb

theorem discard_inv (h : Inv s) (hc : t.taskId ∈ s.canceledIds) : Inv { s with
    timerTasks := rest
    canceledIds := s.canceledIds.erase t.taskId
    discarded := t ::ₘ s.discarded
    scheduler := .head } := by
  refine ⟨?_, h.nodup, h.nextId_eq, h.pushed_lt, h.drawn_lt, h.drawn_fresh, h.drawn_inj,
    (Finset.erase_subset _ _).trans h.canceled_sub, fun t' ht' => ?_, fun t' ht' => ?_⟩
  · have hcons := h.conserved
    unfold State.inFlight at hcons
    rw [hq, hb] at hcons
    rw [← hcons]
    show rest + 0 + _ + (t ::ₘ s.discarded) = t ::ₘ rest + 0 + _ + s.discarded
    simp only [Multiset.cons_add, Multiset.add_cons]
  · rcases Multiset.mem_cons.1 ht' with rfl | ht'
    exacts [h.canceled_sub hc, h.discarded_mem t' ht']
  · rcases h.hit_mem t' ht' with ⟨h1, h2⟩ | h1
    · rw [hq] at h1
      rcases Multiset.mem_cons.1 h1 with rfl | h1
      · exact .inr (Multiset.mem_cons_self _ _)
      · exact .inl ⟨h1, Finset.mem_erase.2 ⟨h.taskId_ne hq h1, h2⟩⟩
    · exact .inr (Multiset.mem_cons_of_mem h1)

theorem pop_inv (h : Inv s) (hc : t.taskId ∉ s.canceledIds) :
    Inv { s with timerTasks := rest, scheduler := .flying t } := by
  refine ⟨?_, h.nodup, h.nextId_eq, h.pushed_lt, h.drawn_lt, h.drawn_fresh, h.drawn_inj, h.canceled_sub,
    h.discarded_mem, fun t' ht' => ?_⟩
  · have hcons := h.conserved
    unfold State.inFlight at hcons
    rw [hq, hb] at hcons
    rw [← hcons]
    show rest + {t} + _ + s.discarded = t ::ₘ rest + 0 + _ + s.discarded
    rw [Multiset.add_comm rest, Multiset.singleton_add, Multiset.add_zero]
  · rcases h.hit_mem t' ht' with ⟨h1, h2⟩ | h1
    · rw [hq] at h1
      rcases Multiset.mem_cons.1 h1 with rfl | h1
      · exact absurd h2 hc
      · exact .inl ⟨h1, h2⟩
    · exact .inr h1

end

theorem postTask_inv (h : Inv s) {t : TimerTask CallBack} (hf : s.scheduler = .flying t) :
    Inv { s with posted := s.posted ++ [t], scheduler := .head } := by
  refine ⟨?_, h.nodup, h.nextId_eq, h.pushed_lt, h.drawn_lt, h.drawn_fresh, h.drawn_inj, h.canceled_sub,
    h.discarded_mem, h.hit_mem⟩
  have hcons := h.conserved
  unfold State.inFlight at hcons
  rw [hf] at hcons
  rw [← hcons]
  show s.timerTasks + 0 +
    ((s.posted ++ [t] : List (TimerTask CallBack)) : Multiset (TimerTask CallBack)) + s.discarded =
    s.timerTasks + {t} + (s.posted : Multiset (TimerTask CallBack)) + s.discarded
  rw [← Multiset.coe_add, Multiset.coe_singleton, Multiset.add_zero,
    Multiset.add_comm (s.posted : Multiset (TimerTask CallBack)), ← Multiset.add_assoc]

section
variable [DecidableEq ι]

/-- A thread's own step, when it draws no id. -/
theorem update_taskId {i : ι} {p : Thread CallBack}
    (hp : ∀ id, p.taskId? = some id → (s.thread i).taskId? = some id) (j : ι)
    (id : UInt64) (h : (Function.update s.thread i p j).taskId? = some id) :
    (s.thread j).taskId? = some id := by
  by_cases hij : j = i
  · subst hij; rw [Function.update_self] at h; exact hp id h
  · rwa [Function.update_of_ne hij] at h

theorem fetchAdd_inv (h : Inv s) (hc : s.calls + 1 < 2 ^ 64) (i : ι) (delayMs : UInt64) (cbTask : CallBack) :
    Inv { s.setThread i (.drawn s.nextId delayMs cbTask) with
      nextId := s.nextId + 1, calls := s.calls + 1 } := by
  have thread (j : ι) (id : UInt64)
      (hj : (Function.update s.thread i (.drawn s.nextId delayMs cbTask) j).taskId? = some id) :
      j = i ∧ id = s.nextId ∨ j ≠ i ∧ (s.thread j).taskId? = some id := by
    by_cases hij : j = i
    · subst hij
      rw [Function.update_self] at hj
      exact .inl ⟨rfl, (Option.some.inj hj).symm⟩
    · rw [Function.update_of_ne hij] at hj; exact .inr ⟨hij, hj⟩
  have hnext (id : UInt64) (hid : id.toNat < s.calls) : id ≠ s.nextId := by
    rintro rfl; rw [h.nextId_eq] at hid; exact Nat.lt_irrefl _ hid
  refine ⟨h.conserved, h.nodup, ?_, fun t ht => Nat.lt_succ_of_lt (h.pushed_lt t ht), fun j id hj => ?_,
    fun j id hj => ?_, fun j k id hj hk => ?_, h.canceled_sub, h.discarded_mem, h.hit_mem⟩
  · show (s.nextId + 1).toNat = s.calls + 1
    rw [UInt64.toNat_add, h.nextId_eq]
    exact Nat.mod_eq_of_lt hc
  · rcases thread j id hj with ⟨-, rfl⟩ | ⟨-, hj⟩
    · exact Nat.lt_succ_of_le (Nat.le_of_eq h.nextId_eq)
    · exact Nat.lt_succ_of_lt (h.drawn_lt j id hj)
  · rcases thread j id hj with ⟨-, rfl⟩ | ⟨-, hj⟩
    · intro hm
      obtain ⟨t, ht, he⟩ := Multiset.mem_map.1 hm
      exact hnext _ (h.pushed_lt t ht) he
    · exact h.drawn_fresh j id hj
  · rcases thread j id hj with ⟨hji, hid⟩ | ⟨-, hj'⟩ <;> rcases thread k id hk with
      ⟨hki, hid'⟩ | ⟨-, hk'⟩
    · exact hji.trans hki.symm
    · exact absurd hid (hnext _ (h.drawn_lt k _ hk'))
    · exact absurd hid' (hnext _ (h.drawn_lt j _ hj'))
    · exact h.drawn_inj j k id hj' hk'

theorem push_inv (h : Inv s) {i : ι} {t : TimerTask CallBack} (ht : s.thread i = .timed t) :
    Inv { s.setThread i .notifyOne with timerTasks := t ::ₘ s.timerTasks, pushed := t ::ₘ s.pushed } := by
  have hid : (s.thread i).taskId? = some t.taskId := by rw [ht]; rfl
  have thread (j : ι) (id : UInt64) (hj : (Function.update s.thread i .notifyOne j).taskId? = some id) :
      j ≠ i ∧ (s.thread j).taskId? = some id := by
    by_cases hij : j = i
    · subst hij; rw [Function.update_self] at hj; cases hj
    · rw [Function.update_of_ne hij] at hj; exact ⟨hij, hj⟩
  refine ⟨?_, ?_, h.nextId_eq, fun t' ht' => ?_, fun j id hj => h.drawn_lt j id (thread j id hj).2,
    fun j id hj hm => ?_, fun j k id hj hk => h.drawn_inj j k id (thread j id hj).2 (thread k id hk).2,
    h.canceled_sub, h.discarded_mem, fun t' ht' => ?_⟩
  · show t ::ₘ s.timerTasks + s.inFlight + s.posted + s.discarded = t ::ₘ s.pushed
    rw [← h.conserved]; simp only [Multiset.cons_add]
  · show ((t ::ₘ s.pushed).map TimerTask.taskId).Nodup
    rw [Multiset.map_cons, Multiset.nodup_cons]
    exact ⟨h.drawn_fresh i _ hid, h.nodup⟩
  · rcases Multiset.mem_cons.1 ht' with rfl | ht'
    exacts [h.drawn_lt i _ hid, h.pushed_lt t' ht']
  · obtain ⟨hji, hj⟩ := thread j id hj
    rw [Multiset.map_cons, Multiset.mem_cons] at hm
    rcases hm with rfl | hm
    · exact hji (h.drawn_inj j i _ hj hid)
    · exact h.drawn_fresh j id hj hm
  · exact (h.hit_mem t' ht').imp_left fun ⟨h1, h2⟩ => ⟨Multiset.mem_cons_of_mem h1, h2⟩

theorem step_inv (h : Inv s) (hs : Step s s') (hc : s'.calls < 2 ^ 64) : Inv s' := by
  have none {p : Thread CallBack} (hp : p.taskId? = none) (i : ι) (id : UInt64) (hid : p.taskId? = some id) :
      (s.thread i).taskId? = some id := by rw [hp] at hid; cases hid
  have inFlight {l : Loop CallBack} (hl : ∀ t, s.scheduler ≠ .flying t) (hl' : ∀ t, l ≠ .flying t) :
      State.inFlight { s with scheduler := l } = s.inFlight := by
    have zero {s : State ι CallBack} (hs : ∀ t, s.scheduler ≠ .flying t) : s.inFlight = 0 := by
      unfold State.inFlight
      split
      · exact absurd ‹_› (hs _)
      · rfl
    rw [zero hl, zero (s := { s with scheduler := l }) hl']
  cases hs with
  | fetchAdd i delayMs cbTask => exact fetchAdd_inv h hc i delayMs cbTask
  | @readClock i id delayMs cbTask ht =>
    exact h.frame rfl (update_taskId fun id' hid' => by rw [ht]; exact hid')
  | push ht => exact push_inv h ht
  | @notifyOne i ht => exact h.frame Loop.wake_inFlight (update_taskId (none rfl i))
  | cancel taskId => exact cancel_inv h taskId
  | start hr hl =>
    refine h.frame (inFlight ?_ nofun) fun _ _ hi => hi
    rintro t ht
    rcases hl with hl | hl <;> rw [hl] at ht <;> cases ht
  | @stop i ht hr => exact h.frame rfl (update_taskId (none rfl i))
  | @clearRunning i ht => exact h.frame rfl (update_taskId (none rfl i))
  | @notifyAll i ht => exact h.frame Loop.wake_inFlight (update_taskId (none rfl i))
  | @join i ht hl => exact h.frame rfl (update_taskId (none rfl i))
  | clock now hn => exact h.frame rfl fun _ _ hi => hi
  | wakeUp => exact h.frame Loop.wake_inFlight fun _ _ hi => hi
  | load hl =>
    refine h.frame (inFlight (by rw [hl]; exact nofun) ?_) fun _ _ hi => hi
    split <;> exact nofun
  | waitEmpty hl hq =>
    refine h.frame (inFlight (by rw [hl]; exact nofun) ?_) fun _ _ hi => hi
    split <;> exact nofun
  | waitEnds hl hp => exact h.frame (inFlight (by rw [hl]; exact nofun) nofun) fun _ _ hi => hi
  | waitAgain hl hr hq => exact h.frame (inFlight (by rw [hl]; exact nofun) nofun) fun _ _ hi => hi
  | discard rest hl ht hq hmem => exact discard_inv hl hq h hmem
  | pop rest hl ht hq hmem hn => exact pop_inv hl hq h hmem
  | waitUntil hl ht hc hn => exact h.frame (inFlight (by rw [hl]; exact nofun) nofun) fun _ _ hi => hi
  | postTask hf => exact postTask_inv h hf

omit [DecidableEq ι] in
theorem start_inv (h : Start s) : Inv s := by
  obtain ⟨now, rfl⟩ := h
  constructor <;> simp [State.inFlight, Thread.taskId?]

theorem Step.calls_le (h : Step s s') : s.calls ≤ s'.calls := by
  cases h <;> first | exact Nat.le_refl _ | exact Nat.le_succ _

theorem reachable_inv (h : Reachable Start Step s) (hc : s.calls < 2 ^ 64) : Inv s := by
  refine Reachable.inv (I := fun s : State ι CallBack => s.calls < 2 ^ 64 → Inv s)
    (fun s hs _ => start_inv hs)
    (fun s s' _ hi hs hc => ?_) h hc
  exact step_inv (hi (Nat.lt_of_le_of_lt hs.calls_le hc)) hs hc

/-! ## The main result -/

open Classical in
/-- The task is in exactly one of the four places, and there once. -/
def State.InOnePlace (s : State ι CallBack) (t : TimerTask CallBack) : Prop :=
  s.timerTasks.count t + s.inFlight.count t + (s.posted : Multiset (TimerTask CallBack)).count t +
    s.discarded.count t = 1

omit [DecidableEq ι] in
theorem Inv.inOnePlace (h : Inv s) {t : TimerTask CallBack} (ht : t ∈ s.pushed) : s.InOnePlace t := by
  classical
  have hn : s.pushed.Nodup := h.nodup.of_map
  have hc := Multiset.count_eq_one_of_mem hn ht
  rw [← h.conserved] at hc
  unfold State.InOnePlace
  simpa only [Multiset.count_add] using hc

omit [DecidableEq ι] in
/-- What was hit in the queue is never on its way to the pool, nor there. -/
theorem Inv.hit_not_posted (h : Inv s) {t : TimerTask CallBack} (ht : t ∈ s.hit) :
    s.scheduler ≠ .flying t ∧ t ∉ s.posted := by
  classical
  have hpushed : t ∈ s.pushed := by
    rw [← h.conserved]
    simp only [Multiset.mem_add]
    rcases h.hit_mem t ht with ⟨h1, -⟩ | h1
    exacts [.inl (.inl (.inl h1)), .inr h1]
  have hone := h.inOnePlace hpushed
  unfold State.InOnePlace at hone
  have hpos : 0 < s.timerTasks.count t + s.discarded.count t := by
    rcases h.hit_mem t ht with ⟨h1, -⟩ | h1
    · have := Multiset.count_pos.2 h1; omega
    · have := Multiset.count_pos.2 h1; omega
  refine ⟨fun hf => ?_, fun hp => ?_⟩
  · have : s.inFlight.count t = 1 := by unfold State.inFlight; rw [hf]; exact Multiset.count_singleton_self t
    omega
  · have := Multiset.count_pos.2 (Multiset.mem_coe.2 hp)
    omega

/-- The step that takes a task off the queue for posting. -/
theorem Step.popped (h : Step s s') {t : TimerTask CallBack} (hf : s.scheduler ≠ .flying t)
    (hf' : s'.scheduler = .flying t) :
    t ∈ s.timerTasks ∧ t.execTime ≤ s.now ∧ ∀ t' ∈ s.timerTasks, t.execTime ≤ t'.execTime := by
  have wake (hw : s.scheduler.wake = .flying t) : s.scheduler = .flying t := by
    cases hl : s.scheduler <;> rw [hl] at hw <;> first | exact hw | cases hw
  cases h with
  | fetchAdd | readClock | push | cancel | stop | clearRunning | join | clock => exact absurd hf' hf
  | notifyOne | notifyAll | wakeUp => exact absurd (wake hf') hf
  | start | waitEnds | waitAgain | discard | waitUntil | postTask => cases hf'
  | load | waitEmpty =>
    change (if _ then _ else _) = _ at hf'
    split at hf' <;> cases hf'
  | pop rest hl ht hq hc hn =>
    cases hf'
    exact ⟨ht.1, hn, fun t' ht' => ht.le ht'⟩

/-- In every reachable state of fewer than `2 ^ 64` calls each pushed task is in one
place; what was discarded was canceled; what was canceled in the queue is not
posted; and what is popped for posting is due, with nothing earlier pending. -/
theorem timer_conservation (s : State ι CallBack) (h : Reachable Start Step s) (hc : s.calls < 2 ^ 64) :
    (∀ t ∈ s.pushed, s.InOnePlace t) ∧ (∀ t ∈ s.discarded, t.taskId ∈ s.cancels) ∧
    (∀ t ∈ s.hit, t ∉ s.posted) ∧
      ∀ s' t, Step s s' → s.scheduler ≠ .flying t → s'.scheduler = .flying t →
        t ∈ s.timerTasks ∧ t.execTime ≤ s.now ∧ ∀ t' ∈ s.timerTasks, t.execTime ≤ t'.execTime := by
  have hi := reachable_inv h hc
  exact ⟨fun t ht => hi.inOnePlace ht, hi.discarded_mem, fun t ht => (hi.hit_not_posted ht).2,
    fun s' t hs hf hf' => hs.popped hf hf'⟩

/-- The theorem after a task was scheduled, popped and posted. -/
theorem timer_conservation_one :
    ∃ (s : State Unit Nat) (t : TimerTask Nat), Reachable Start Step s ∧ s.calls < 2 ^ 64 ∧
    s.posted = [t] ∧ s.InOnePlace t := by
  let t : TimerTask Nat := ⟨execTime 0 0, 7, 0⟩
  have hdue : t.execTime ≤ 0 := by simp only [t, execTime]; decide
  have h₀ : Reachable Start Step ({ now := 0 } : State Unit Nat) := .start ⟨0, rfl⟩
  have h₁ := h₀.next (.fetchAdd () 0 7 rfl)
  have h₂ := h₁.next (.readClock (i := ()) rfl)
  have h₃ := h₂.next (.push (i := ()) (t := t) rfl)
  have h₄ := h₃.next (.start rfl (.inl rfl))
  have h₅ := h₄.next (.load rfl)
  have h₆ := h₅.next (.pop (t := t) 0 rfl t.isTop_singleton rfl (Finset.notMem_empty _) hdue)
  have h₇ := h₆.next (.postTask rfl)
  have hc := timer_conservation _ h₇ (by decide)
  exact ⟨_, t, h₇, by decide, rfl, hc.1 t (Multiset.mem_cons_self t 0)⟩

end

end TimerScheduler

end NebulaToolkit
