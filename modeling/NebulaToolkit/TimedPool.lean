import Mathlib.Data.List.Nodup
import NebulaToolkit.PoolWakeUps
import NebulaToolkit.TimerTimes
import NebulaToolkit.TimerWait
/-!
# The timer scheduler and its pool

`TimerScheduler` owns a `ThreadPool`, and its thread is the only one that posts
to it. Both machines at once: the scheduler's, the pool's with its condition
variable, and `PostTask`, which is a step of both. Where a task can be
(`every_task_in_one_place`), and that it comes to its end (`every_task_comes`).
-/

namespace NebulaToolkit

open Lib

namespace TimedPool

open TimerScheduler (Loop)

structure State (ι CallBack : Type) (n : Nat) where
  timer : TimerScheduler.State ι CallBack
  /-- `*thread_pool_` -/
  pool : ThreadPool.CvState CallBack n := {}

variable {ι CallBack : Type} {n : Nat}

/-- `thread_pool_->PostTask(std::move(cur_timer_task.callback))`, up to its `notify_one`. -/
def State.post (s : State ι CallBack n) (t : TimerTask CallBack) : State ι CallBack n where
  timer := { s.timer with posted := s.timer.posted ++ [t], scheduler := .head }
  pool := { s.pool with pool := s.pool.pool.push t.callback, oneOwed := s.pool.oneOwed + 1 }

inductive Step [DecidableEq ι] : State ι CallBack n → State ι CallBack n → Prop
  /-- The scheduler, `PostTask` apart. Its thread goes on when `PostTask` has returned. -/
  | timer {s : State ι CallBack n} {timer : TimerScheduler.State ι CallBack} : s.pool.pool.running = true →
      TimerScheduler.Step s.timer timer → timer.posted = s.timer.posted →
      (s.timer.scheduler = .head → timer.scheduler ≠ .head → s.pool.oneOwed = 0) →
      Step s { s with timer := timer }
  | postTask {s : State ι CallBack n} {t : TimerTask CallBack} : s.timer.scheduler = .flying t →
      s.pool.pool.lock = none →
      Step s (s.post t)
  | pool {s : State ι CallBack n} {pool : ThreadPool.CvState CallBack n} : ThreadPool.Inner s.pool pool →
      Step s { s with pool := pool }
  | spurious {s : State ι CallBack n} (w : Fin n) : w ∈ s.pool.asleep →
      Step s { s with pool := { s.pool with asleep := s.pool.asleep.erase w } }
  /-- `~TimerScheduler`: the thread is joined, then the pool is destroyed. -/
  | destroy {s : State ι CallBack n} : s.timer.running = false → s.timer.scheduler = .absent ∨
      s.timer.scheduler = .exited →
      s.pool.pool.lock = none → s.pool.pool.running = true →
      Step s { s with
        pool := { s.pool with
          pool := { s.pool.pool with running := false, stoppedAt := some s.pool.pool.posted.length }
          allOwed := true } }

def Start (s : State ι CallBack n) : Prop := TimerScheduler.Start s.timer ∧ s.pool = {}

variable [DecidableEq ι] {s s' : State ι CallBack n}

/-! ## The two machines -/

theorem Step.timer_step (h : Step s s') : s'.timer = s.timer ∨ TimerScheduler.Step s.timer s'.timer := by
  cases h with
  | timer _ hs => exact .inr hs
  | postTask hf => exact .inr (.postTask hf)
  | pool | spurious | destroy => exact .inl rfl

theorem Step.pool_step (h : Step s s') : s'.pool = s.pool ∨ ThreadPool.CvStep s.pool s'.pool := by
  cases h with
  | timer => exact .inl rfl
  | postTask hf hl => exact .inr (.postTask _ hl)
  | pool h => exact .inr (.inner h)
  | spurious w hw => exact .inr (.spurious w hw)
  | destroy _ _ hl hr => exact .inr (.destroy hl hr)

theorem reachable_timer (h : Reachable Start Step s) :
    Reachable TimerScheduler.Start TimerScheduler.Step s.timer := by
  refine h.inv (I := fun s => Reachable TimerScheduler.Start TimerScheduler.Step s.timer)
    (fun s hs => .start hs.1)
    fun s s' _ hr hs => ?_
  rcases hs.timer_step with he | hs
  · rw [he]
    exact hr
  · exact hr.next hs

theorem reachable_pool (h : Reachable Start Step s) :
    Reachable ThreadPool.CvStart ThreadPool.CvStep s.pool := by
  refine h.inv (I := fun s => Reachable ThreadPool.CvStart ThreadPool.CvStep s.pool)
    (fun s hs => .start hs.2) fun s s' _ hr hs => ?_
  rcases hs.pool_step with he | hs
  · rw [he]
    exact hr
  · exact hr.next hs

/-- What holds between the two. -/
structure Inv (s : State ι CallBack n) : Prop where
  /-- The pool gets the callbacks of the tasks posted. -/
  posted : s.pool.pool.posted = s.timer.posted.map TimerTask.callback
  noBatch : ¬ s.pool.InBatch
  /-- What is on its way to the pool, or there, is due. -/
  due : ∀ t ∈ s.timer.posted ++ s.timer.scheduler.task, t.execTime ≤ s.timer.now
  /-- The pool goes when the thread has gone, and gets nothing after that. -/
  gone : s.pool.pool.running = false → s.timer.running = false ∧
    (s.timer.scheduler = .absent ∨ s.timer.scheduler = .exited) ∧
    s.pool.pool.stoppedAt = some s.pool.pool.posted.length
  present : s.timer.running = true → s.timer.scheduler ≠ .absent ∧ s.timer.scheduler ≠ .exited

theorem timer_now_le {s s' : TimerScheduler.State ι CallBack} (h : TimerScheduler.Step s s') :
    s.now ≤ s'.now := by
  cases h with
  | clock now hn => exact hn
  | _ => exact Int.le_refl _

theorem timer_due {s s' : TimerScheduler.State ι CallBack} (h : TimerScheduler.Step s s')
    (hd : ∀ t ∈ s.posted ++ s.scheduler.task, t.execTime ≤ s.now) :
    ∀ t ∈ s'.posted ++ s'.scheduler.task, t.execTime ≤ s'.now := by
  intro t ht
  have hold (ht : t ∈ s.posted ++ s.scheduler.task) : t.execTime ≤ s'.now := (hd t ht).trans (timer_now_le h)
  cases h.moves with
  | keeps _ htask hposted | push _ _ htask hposted | discard _ _ htask hposted =>
    rw [htask, hposted] at ht
    exact hold ht
  | pop u hq _ hnone htask hposted =>
    rw [htask, hposted] at ht
    rcases List.mem_append.1 ht with ht | ht
    · exact hold (List.mem_append_left _ ht)
    · rw [List.mem_singleton] at ht
      subst ht
      have hto : s'.scheduler = .flying t := by
        revert htask
        cases s'.scheduler <;> simp [Loop.task]
      have hfrom : s.scheduler ≠ .flying t := by
        intro hf
        rw [hf] at hnone
        cases hnone
      exact (h.popped hfrom hto).2.1.trans (timer_now_le h)
  | post u _ htask hnone hposted =>
    rw [hnone, hposted, List.append_nil] at ht
    rw [htask] at hold
    exact hold ht

theorem timer_present {s s' : TimerScheduler.State ι CallBack} (h : TimerScheduler.Step s s')
    (hp : s.running = true → s.scheduler ≠ .absent ∧ s.scheduler ≠ .exited) :
    s'.running = true → s'.scheduler ≠ .absent ∧ s'.scheduler ≠ .exited := by
  have wake (l : Loop CallBack) (hl : l ≠ .absent ∧ l ≠ .exited) :
      l.wake ≠ .absent ∧ l.wake ≠ .exited := by
    cases l <;> first | exact hl | exact ⟨nofun, nofun⟩
  intro hr
  cases h with
  | fetchAdd | readClock | push | cancel | stop | join | clock => exact hp hr
  | notifyOne | notifyAll | wakeUp => exact wake _ (hp hr)
  | clearRunning => cases hr
  | load | waitEmpty =>
    rw [if_pos hr]
    exact ⟨nofun, nofun⟩
  | start | waitEnds | waitAgain | discard | pop | waitUntil | postTask => exact ⟨nofun, nofun⟩

theorem inner_noBatch {p p' : ThreadPool.CvState CallBack n} (h : ThreadPool.Inner p p') (hb : ¬ p.InBatch) :
    ¬ p'.InBatch := by
  rintro ⟨start, ts, rest, hl⟩
  cases h with
  | notifyOne | notifyNobody | batchNotify | sleep | notifyAll | run => exact hb ⟨_, _, _, hl⟩
  | batchPush hl' => exact hb ⟨_, _, _, hl'⟩
  | batchUnlock | wake | exit | dequeue => cases hl

theorem inner_posted {p p' : ThreadPool.CvState CallBack n} (h : ThreadPool.Inner p p') (hb : ¬ p.InBatch) :
    p'.pool.posted = p.pool.posted := by
  cases h with
  | batchPush hl => exact absurd ⟨_, _, _, hl⟩ hb
  | _ => rfl

omit [DecidableEq ι] in
theorem start_inv (h : Start s) : Inv s := by
  obtain ⟨timer, pool⟩ := s
  obtain ⟨⟨now, rfl⟩, rfl⟩ := h
  exact ⟨rfl, fun ⟨_, _, _, hl⟩ => (by cases hl), nofun, nofun, nofun⟩

theorem inner_stoppedAt {p p' : ThreadPool.CvState CallBack n} (h : ThreadPool.Inner p p') :
    p'.pool.stoppedAt = p.pool.stoppedAt := by
  cases h <;> rfl

theorem step_inv (hi : Inv s) (h : Step s s') : Inv s' := by
  have due : ∀ t ∈ s'.timer.posted ++ s'.timer.scheduler.task, t.execTime ≤ s'.timer.now := by
    rcases h.timer_step with he | hs
    · rw [he]
      exact hi.due
    · exact timer_due hs hi.due
  have present : s'.timer.running = true → s'.timer.scheduler ≠ .absent ∧ s'.timer.scheduler ≠ .exited := by
    rcases h.timer_step with he | hs
    · rw [he]
      exact hi.present
    · exact timer_present hs hi.present
  cases h with
  | timer hr hs hposted hhead =>
    refine ⟨hi.posted.trans (congrArg _ hposted.symm), hi.noBatch, due, fun hf => ?_, present⟩
    rw [show s.pool.pool.running = false from hf] at hr
    cases hr
  | @postTask t hf hl =>
    refine ⟨?_, fun ⟨_, _, _, hb⟩ => hi.noBatch ⟨_, _, _, hb⟩, due, fun hr => ?_, present⟩
    · show s.pool.pool.posted ++ [t.callback] = (s.timer.posted ++ [t]).map TimerTask.callback
      rw [hi.posted, List.map_append, List.map_singleton]
    · rcases (hi.gone hr).2.1 with he | he <;> rw [hf] at he <;> cases he
  | pool h =>
    refine ⟨(inner_posted h hi.noBatch).trans hi.posted, inner_noBatch h hi.noBatch, due, fun hf => ?_,
      present⟩
    rw [inner_posted h hi.noBatch, inner_stoppedAt h]
    exact hi.gone (h.running ▸ hf)
  | spurious w hw => exact ⟨hi.posted, hi.noBatch, due, hi.gone, present⟩
  | destroy hr hl hlock hrun =>
    exact ⟨hi.posted, fun ⟨_, _, _, hb⟩ => hi.noBatch ⟨_, _, _, hb⟩, due, fun _ => ⟨hr, hl, rfl⟩,
      present⟩

theorem reachable_inv (h : Reachable Start Step s) : Inv s :=
  h.inv (fun _ hs => start_inv hs) fun _ _ _ hi hs => step_inv hi hs

/-! ## Where a task is -/

inductive Place where
  /-- In `timer_tasks_`. -/
  | pending
  /-- Between the pop and `PostTask`. -/
  | flying
  | discarded
  /-- In the pool's `task_queue_`. -/
  | queued
  /-- In the hands of a worker. -/
  | held
  | ran

def State.At (s : State ι CallBack n) (t : TimerTask CallBack) : Place → Prop
  | .pending => t ∈ s.timer.timerTasks
  | .flying => s.timer.scheduler = .flying t
  | .discarded => t ∈ s.timer.discarded
  | .queued => ∃ k, s.timer.posted[k]? = some t ∧ s.pool.pool.taken.length ≤ k
  | .held => ∃ k, s.timer.posted[k]? = some t ∧ ∃ w, s.pool.pool.worker w = .executing k t.callback
  | .ran => ∃ k, s.timer.posted[k]? = some t ∧ k ∈ s.pool.pool.ran

/-- What the scheduler knows of a place. -/
def State.bin (s : State ι CallBack n) : Place → Multiset (TimerTask CallBack)
  | .pending => s.timer.timerTasks
  | .flying => s.timer.inFlight
  | .discarded => s.timer.discarded
  | .queued | .held | .ran => s.timer.posted

omit [DecidableEq ι] in
theorem State.At.mem_bin {t : TimerTask CallBack} {p : Place} (h : s.At t p) : t ∈ s.bin p := by
  cases p with
  | pending | discarded => exact h
  | flying =>
    show t ∈ s.timer.inFlight
    unfold TimerScheduler.State.inFlight
    rw [show s.timer.scheduler = .flying t from h]
    exact Multiset.mem_singleton_self t
  | queued | held | ran =>
    obtain ⟨k, hk, -⟩ := h
    exact Multiset.mem_coe.2 (List.mem_of_getElem? hk)

section
variable (hi : Inv s) (hpool : ThreadPool.Inv s.pool.pool)
include hi hpool

omit [DecidableEq ι] in
/-- The `k`th task the pool got is the `k`th the scheduler posted. -/
theorem taken_callback {k : Nat} {w : Fin n} {cb : CallBack} (hk : s.pool.pool.taken[k]? = some (w, cb)) :
    ∃ t, s.timer.posted[k]? = some t ∧ cb = t.callback := by
  have horder := hpool.order
  rw [hi.posted] at horder
  have hmap : (s.timer.posted.map TimerTask.callback)[k]? = some cb := by
    have hlt := (List.getElem?_eq_some_iff.1 hk).1
    rw [← horder, List.getElem?_append_left (by rwa [List.length_map]), List.getElem?_map, hk]
    rfl
  rw [List.getElem?_map, Option.map_eq_some_iff] at hmap
  obtain ⟨t, ht, he⟩ := hmap
  exact ⟨t, ht, he.symm⟩

/-- How far the pool is with the `k`th task posted. -/
def State.stage (s : State ι CallBack n) (k : Nat) : Place :=
  if k ∈ s.pool.pool.ran then .ran else if k < s.pool.pool.taken.length then .held else .queued

/-- The pool has got the task. -/
def Place.inPool : Place → Bool
  | .queued | .held | .ran => true
  | _ => false

omit [DecidableEq ι] in
theorem at_stage {t : TimerTask CallBack} {k : Nat} (hk : s.timer.posted[k]? = some t) :
    s.At t (s.stage k) := by
  unfold State.stage
  split
  · exact ⟨k, hk, ‹_›⟩
  · split
    next hran hlt =>
      obtain ⟨w, cb, hw⟩ := (hpool.kept k hlt).resolve_left hran
      obtain ⟨t', hk', rfl⟩ := taken_callback hi hpool (hpool.executing w k cb hw)
      rw [hk] at hk'
      cases hk'
      exact ⟨k, hk, w, hw⟩
    next hge => exact ⟨k, hk, Nat.not_lt.1 hge⟩

omit [DecidableEq ι] hi in
/-- A task stands in the list once, so it is at one stage. -/
theorem stage_of_at (hnodup : s.timer.posted.Nodup) {t : TimerTask CallBack} {k : Nat}
    (hk : s.timer.posted[k]? = some t) {p : Place} (hin : p.inPool = true) (h : s.At t p) :
    p = s.stage k := by
  have same {j : Nat} (hj : s.timer.posted[j]? = some t) : j = k := by
    obtain ⟨hlt, he⟩ := List.getElem?_eq_some_iff.1 hj
    obtain ⟨hlt', he'⟩ := List.getElem?_eq_some_iff.1 hk
    exact hnodup.getElem_inj_iff.1 (he.trans he'.symm)
  unfold State.stage
  cases p with
  | pending | flying | discarded => cases hin
  | queued =>
    obtain ⟨j, hj, hge⟩ := h
    obtain rfl := same hj
    have hran : j ∉ s.pool.pool.ran := fun hm => absurd (hpool.ran_lt j hm) (Nat.not_lt.2 hge)
    rw [if_neg hran, if_neg (Nat.not_lt.2 hge)]
  | held =>
    obtain ⟨j, hj, w, hw⟩ := h
    obtain rfl := same hj
    have hlt := (List.getElem?_eq_some_iff.1 (hpool.executing w j _ hw)).1
    rw [if_neg fun hm => hpool.ran_done j hm w _ hw, if_pos hlt]
  | ran =>
    obtain ⟨j, hj, hran⟩ := h
    obtain rfl := same hj
    rw [if_pos hran]

end

open Classical in
omit [DecidableEq ι] in
/-- The scheduler has a task in one of its places, and the pool has what was posted at one stage. -/
theorem existsUnique_place (hi : Inv s) (hpool : ThreadPool.Inv s.pool.pool) (hnodup : s.timer.posted.Nodup)
    {t : TimerTask CallBack} (hone : s.timer.InOnePlace t) : ∃! p, s.At t p := by
  have hsum : (s.bin .pending).count t + (s.bin .flying).count t +
    (s.timer.posted : Multiset (TimerTask CallBack)).count t +
      (s.bin .discarded).count t = 1 := hone
  have hpos {p : Place} (h : s.At t p) : 0 < (s.bin p).count t := Multiset.count_pos.2 h.mem_bin
  have elsewhere {p p' : Place} (h : s.At t p) (h' : s.At t p') (hout : p.inPool = false) : p' = p := by
    have h₁ := hpos h
    have h₂ := hpos h'
    cases p <;> cases p' <;>
      first | rfl | exact absurd hout (by decide) | (simp only [State.bin] at hsum h₁ h₂; omega)
  by_cases hposted : t ∈ s.timer.posted
  · obtain ⟨k, hk⟩ := List.mem_iff_getElem?.1 hposted
    refine ⟨s.stage k, at_stage hi hpool hk, fun p hp => ?_⟩
    cases hin : p.inPool with
    | true => exact stage_of_at hpool hnodup hk hin hp
    | false => exact (elsewhere hp (at_stage hi hpool hk) hin).symm
  · have hzero : (s.timer.posted : Multiset (TimerTask CallBack)).count t = 0 :=
      Multiset.count_eq_zero.2 (fun h => hposted (Multiset.mem_coe.1 h))
    -- So one of the other three places has it.
    have hsome : ∃ p, s.At t p ∧ p.inPool = false := by
      rcases Nat.eq_zero_or_pos ((s.bin .pending).count t) with h₁ | h₁
      · rcases Nat.eq_zero_or_pos ((s.bin .flying).count t) with h₂ | h₂
        · exact ⟨.discarded, Multiset.count_pos.1 (by simp only [State.bin] at hsum h₁ h₂; omega), rfl⟩
        · refine ⟨.flying, ?_, rfl⟩
          have hmem : t ∈ s.timer.inFlight := Multiset.count_pos.1 h₂
          unfold TimerScheduler.State.inFlight at hmem
          split at hmem
          · rw [Multiset.mem_singleton.1 hmem]
            assumption
          · exact absurd hmem (Multiset.notMem_zero t)
      · exact ⟨.pending, Multiset.count_pos.1 h₁, rfl⟩
    obtain ⟨p, hp, hout⟩ := hsome
    exact ⟨p, hp, fun p' hp' => elsewhere hp hp' hout⟩

omit [DecidableEq ι] in
theorem posted_nodup (h : TimerScheduler.Inv s.timer) : s.timer.posted.Nodup := by
  have hn : s.timer.pushed.Nodup := h.nodup.of_map
  rw [← h.conserved] at hn
  exact Multiset.coe_nodup.1
    (Multiset.nodup_of_le ((Multiset.le_add_left _ _).trans (Multiset.le_add_right _ _)) hn)

/-- In every interleaving of schedulings, cancels, stops and the threads of both, with
fewer than `2 ^ 64` ids drawn: a task that was pushed is in one place, and run once if it was
run; no task is run, nor taken by a worker, before it is due or after it was canceled in the
queue; and once the workers have exited, what was not run is pending or discarded. -/
theorem every_task_in_one_place (s : State ι CallBack n) (h : Reachable Start Step s)
    (hc : s.timer.calls < 2 ^ 64) :
    (∀ t ∈ s.timer.pushed, ∃! p, s.At t p) ∧ s.pool.pool.ran.Nodup ∧
      (∀ t, s.At t .held ∨ s.At t .ran →
        t ∈ s.timer.pushed ∧ t.execTime ≤ s.timer.now ∧ t ∉ s.timer.hit) ∧
      (0 < n → (∀ w, s.pool.pool.worker w = .exited) → ∀ t ∈ s.timer.pushed,
        s.At t .pending ∨ s.At t .discarded ∨ s.At t .ran) := by
  have hi := reachable_inv h
  have htimer := TimerScheduler.reachable_inv (reachable_timer h) hc
  have hpool := ThreadPool.reachable_inv (ThreadPool.reachable_pool (reachable_pool h))
  have hplace (t : TimerTask CallBack) (ht : t ∈ s.timer.pushed) :=
    existsUnique_place hi hpool (posted_nodup htimer) (htimer.inOnePlace ht)
  refine ⟨hplace, hpool.ran_once, fun t ht => ?_, fun hn hex t ht => ?_⟩
  · have hposted : t ∈ s.timer.posted := by
      rcases ht with ⟨k, hk, -⟩ | ⟨k, hk, -⟩ <;> exact List.mem_of_getElem? hk
    refine ⟨?_, hi.due t (List.mem_append_left _ hposted), fun hhit => (htimer.hit_not_posted hhit).2 hposted⟩
    rw [← htimer.conserved]
    exact Multiset.mem_add.2 (.inl (Multiset.mem_add.2 (.inr (Multiset.mem_coe.2 hposted))))
  · obtain ⟨hstopped, hle, hlast⟩ := hpool.exited ⟨0, hn⟩ (hex _)
    obtain ⟨-, hthread, hstoppedAt⟩ := hi.gone hstopped
    obtain ⟨p, hp, -⟩ := hplace t ht
    cases p with
    | pending => exact .inl hp
    | discarded => exact .inr (.inl hp)
    | ran => exact .inr (.inr hp)
    | flying => rcases hthread with he | he <;> rw [show s.timer.scheduler = .flying t from hp] at he <;>
        cases he
    | queued =>
      -- Nothing was posted after the destructor began, and before that everything was dequeued.
      obtain ⟨k, hk, hge⟩ := hp
      have hlen := (List.getElem?_eq_some_iff.1 hk).1
      have hposted := congrArg List.length hi.posted
      have := hlast _ hstoppedAt
      rw [List.length_map] at hposted
      omega
    | held =>
      obtain ⟨k, -, w, hw⟩ := hp
      rw [hex w] at hw
      cases hw

/-- The theorem where a task has been scheduled, popped, posted and run. -/
theorem every_task_in_one_place_one : ∃ (s : State Unit Nat 1) (t : TimerTask Nat), Reachable Start Step s ∧
    s.timer.pushed = t ::ₘ 0 ∧
    s.At t .ran ∧ ∃! p, s.At t p := by
  let t : TimerTask Nat := ⟨TimerScheduler.execTime 0 0, 7, 0⟩
  have hdue : t.execTime ≤ 0 := by simp only [t, TimerScheduler.execTime]; decide
  have h₀ : Reachable Start Step ({ timer := { now := 0 } } : State Unit Nat 1) := .start ⟨⟨0, rfl⟩, rfl⟩
  have h₁ := h₀.next (.timer rfl (.fetchAdd () 0 7 rfl) rfl (by intro h; cases h))
  have h₂ := h₁.next (.timer rfl (.readClock (i := ()) rfl) rfl (by intro h; cases h))
  have h₃ := h₂.next (.timer rfl (.push (i := ()) (t := t) rfl) rfl (by intro h; cases h))
  have h₄ := h₃.next (.timer rfl (.start rfl (.inl rfl)) rfl (by intro h; cases h))
  have h₅ := h₄.next (.timer rfl (.load rfl) rfl fun _ _ => rfl)
  have h₆ := h₅.next (.timer rfl (.pop (t := t) 0 rfl t.isTop_singleton rfl (Finset.notMem_empty _) hdue) rfl
    (by intro h; cases h))
  have h₇ := h₆.next (.postTask rfl rfl)
  have h₈ := h₇.next (.pool
    (.wake 0 rfl rfl (Finset.notMem_empty _) (.inr (by simp [State.post, ThreadPool.State.push]))))
  have h₉ := h₈.next (.pool
    (.dequeue 0 rfl rfl (by simp [State.post, ThreadPool.State.push, ThreadPool.State.setWorker]) rfl))
  have h₁₀ := h₉.next (.pool (.run 0 rfl))
  have hplace := (every_task_in_one_place _ h₁₀ (by decide)).1 t (Multiset.mem_cons_self t 0)
  exact ⟨_, t, h₁₀, rfl, ⟨0, rfl, List.mem_singleton_self 0⟩, hplace⟩

end TimedPool

end NebulaToolkit
