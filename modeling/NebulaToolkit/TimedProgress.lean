import Mathlib.Data.Multiset.MapFold
import NebulaToolkit.TimedPool
/-!
# Every task comes

What the threads of the scheduler and of its pool do, once no more calls begin,
is bounded, and ends where it should: if the clock stands still, with nothing
due that has not been run or discarded; if it goes on, with nothing left at all
(`every_task_comes`).
-/

namespace NebulaToolkit

open Lib

namespace TimerScheduler

variable {ι CallBack : Type}

/-- In `Stop`, not yet joining. -/
def Thread.inStop : Thread CallBack → Bool
  | .stopping | .notifyAll => true
  | _ => false

/-- What the threads do that are in the code: the scheduler's, `PostTask` apart, and calls of
`ScheduleOnce` that have begun. `oneOwed` are the `notify_one` calls of `PostTask` to come. -/
inductive Onward [DecidableEq ι] (oneOwed : Nat) : State ι CallBack → State ι CallBack → Prop
  | readClock {s : State ι CallBack} {i : ι} {id delayMs : UInt64} {cbTask : CallBack} :
      s.thread i = .drawn id delayMs cbTask →
        Onward oneOwed s (s.setThread i (.timed ⟨execTime s.now delayMs, cbTask, id⟩))
  | push {s : State ι CallBack} {i : ι} {t : TimerTask CallBack} : s.thread i = .timed t →
      Onward oneOwed s { s.setThread i .notifyOne with
        timerTasks := t ::ₘ s.timerTasks, pushed := t ::ₘ s.pushed }
  | notifyOne {s : State ι CallBack} {i : ι} : s.thread i = .notifyOne →
      Onward oneOwed s { s.setThread i .idle with scheduler := s.scheduler.wake }
  /-- `wait_until` returns in time. -/
  | timeout {s : State ι CallBack} {d : Int} : s.scheduler = .sleeping d → d ≤ s.now →
      Onward oneOwed s { s with scheduler := s.scheduler.wake }
  | load {s : State ι CallBack} : s.scheduler = .head → oneOwed = 0 →
      Onward oneOwed s { s with scheduler := if s.running then .body else .exited }
  | waitEmpty {s : State ι CallBack} : s.scheduler = .body → s.timerTasks = 0 →
      Onward oneOwed s { s with scheduler := if s.running then .waiting else .head }
  | waitEnds {s : State ι CallBack} : s.scheduler = .woken → s.running = false ∨ s.timerTasks ≠ 0 →
      Onward oneOwed s { s with scheduler := .head }
  | waitAgain {s : State ι CallBack} : s.scheduler = .woken → s.running = true → s.timerTasks = 0 →
      Onward oneOwed s { s with scheduler := .waiting }
  | discard {s : State ι CallBack} {t : TimerTask CallBack} (rest : Multiset (TimerTask CallBack)) :
      s.scheduler = .body →
      t.IsTop s.timerTasks → s.timerTasks = t ::ₘ rest → t.taskId ∈ s.canceledIds →
      Onward oneOwed s { s with
        timerTasks := rest
        canceledIds := s.canceledIds.erase t.taskId
        discarded := t ::ₘ s.discarded
        scheduler := .head }
  | pop {s : State ι CallBack} {t : TimerTask CallBack}
      (rest : Multiset (TimerTask CallBack)) : s.scheduler = .body → t.IsTop s.timerTasks →
        s.timerTasks = t ::ₘ rest → t.taskId ∉ s.canceledIds → s.now ≥ t.execTime →
      Onward oneOwed s { s with timerTasks := rest, scheduler := .flying t }
  | waitUntil {s : State ι CallBack} {t : TimerTask CallBack} : s.scheduler = .body → t.IsTop s.timerTasks →
      t.taskId ∉ s.canceledIds → ¬ s.now ≥ t.execTime →
      Onward oneOwed s { s with scheduler := .sleeping t.execTime }

variable {s s' : State ι CallBack}

section
variable [DecidableEq ι] {oneOwed : Nat}

theorem Onward.step (h : Onward oneOwed s s') : Step s s' := by
  cases h with
  | readClock ht => exact .readClock ht
  | push ht => exact .push ht
  | notifyOne ht => exact .notifyOne ht
  | timeout => exact .wakeUp
  | load hl => exact .load hl
  | waitEmpty hl hq => exact .waitEmpty hl hq
  | waitEnds hl hp => exact .waitEnds hl hp
  | waitAgain hl hr hq => exact .waitAgain hl hr hq
  | discard rest hl ht hq hmem => exact .discard rest hl ht hq hmem
  | pop rest hl ht hq hmem hn => exact .pop rest hl ht hq hmem hn
  | waitUntil hl ht hc hn => exact .waitUntil hl ht hc hn

theorem Onward.kept (h : Onward oneOwed s s') :
    s'.posted = s.posted ∧ s'.running = s.running ∧ s'.calls = s.calls ∧
    (s.scheduler = .head → s'.scheduler ≠ .head → oneOwed = 0) := by
  have other {l l' : Loop CallBack} (hl : s.scheduler = l) (hne : l ≠ .head) :
      s.scheduler = .head → l' ≠ .head →
    oneOwed = 0 := by
    intro he
    rw [hl] at he
    exact absurd he hne
  cases h with
  | readClock | push => exact ⟨rfl, rfl, rfl, fun he hne => absurd he hne⟩
  | notifyOne =>
    refine ⟨rfl, rfl, rfl, fun he hne => absurd ?_ hne⟩
    rw [he]
    rfl
  | load _ howed => exact ⟨rfl, rfl, rfl, fun _ _ => howed⟩
  | timeout hl | waitEmpty hl | waitEnds hl | waitAgain hl | discard _ hl | pop _ hl | waitUntil hl =>
    exact ⟨rfl, rfl, rfl, other hl nofun⟩

theorem Onward.inStop (h : Onward oneOwed s s') (hs : ∀ i, (s.thread i).inStop = false) (i : ι) :
    (s'.thread i).inStop = false := by
  have update {j : ι} {p : Thread CallBack} (hp : p.inStop = false) :
    (Function.update s.thread j p i).inStop = false := by
    by_cases hij : i = j
    · subst hij
      rwa [Function.update_self]
    · rw [Function.update_of_ne hij]
      exact hs i
  cases h with
  | readClock | push | notifyOne => exact update rfl
  | _ => exact hs i

/-! ## When the sleep is over a task is due -/

/-- `wait_until` is for a task of the queue, or for one before it. -/
def State.Aims (s : State ι CallBack) : Prop :=
  ∀ d, s.scheduler = .sleeping d → ∃ t ∈ s.timerTasks, t.execTime ≤ d

theorem step_aims (ha : s.Aims) (h : Step s s') : s'.Aims := by
  have wake (l : Loop CallBack) (d : Int) : l.wake ≠ .sleeping d := by cases l <;> nofun
  cases h with
  | fetchAdd | readClock | cancel | stop | clearRunning | join | clock => exact ha
  | @push i t ht =>
    intro d hd
    obtain ⟨u, hu, hle⟩ := ha d hd
    exact ⟨u, Multiset.mem_cons_of_mem hu, hle⟩
  | notifyOne | notifyAll | wakeUp => exact fun d hd => absurd hd (wake _ d)
  | load | waitEmpty =>
    intro d hd
    change (if _ then _ else _) = _ at hd
    split at hd <;> cases hd
  | start | waitEnds | waitAgain | discard | pop | postTask => exact nofun
  | @waitUntil t hl ht hc hn =>
    intro d hd
    cases hd
    exact ⟨t, ht.1, Int.le_refl _⟩

theorem reachable_aims (h : Reachable Start Step s) : s.Aims := by
  refine h.inv (I := State.Aims) (fun s hs => ?_) fun s s' _ ha hs => step_aims ha hs
  obtain ⟨now, rfl⟩ := hs
  exact nofun

omit [DecidableEq ι] in
/-- A queue that is not empty has a top. -/
theorem exists_isTop {q : Multiset (TimerTask CallBack)} (hq : q ≠ 0) : ∃ t :
    TimerTask CallBack, t.IsTop q := by
  induction q using Multiset.induction_on with
  | empty => exact absurd rfl hq
  | cons a q ih =>
    by_cases h0 : q = 0
    · subst h0
      exact ⟨a, a.isTop_singleton⟩
    · obtain ⟨t, ht⟩ := ih h0
      -- The earlier one of the two.
      rcases Int.le_total a.execTime t.execTime with hle | hle
      · refine ⟨a, Multiset.mem_cons_self a q, fun t' ht' => Int.not_lt.2 ?_⟩
        rcases Multiset.mem_cons.1 ht' with rfl | ht'
        · exact Int.le_refl _
        · exact hle.trans (ht.le ht')
      · refine ⟨t, Multiset.mem_cons_of_mem ht.1, fun t' ht' => Int.not_lt.2 ?_⟩
        rcases Multiset.mem_cons.1 ht' with rfl | ht'
        · exact hle
        · exact ht.le ht'

end

/-! ## How much there is to do -/

/-- A task of the queue is due. -/
def State.IsDue (s : State ι CallBack) : Prop := ∃ t ∈ s.timerTasks, t.execTime ≤ s.now

instance (s : State ι CallBack) : Decidable s.IsDue := Multiset.decidableExistsMultiset

/-- What a call of `ScheduleOnce` may still do. -/
def Thread.weight : Thread CallBack → Nat
  | .drawn _ _ _ => 30
  | .timed _ => 29
  | .notifyOne => 8
  | _ => 0

/-- What the scheduler's thread may still do, apart from the tasks: a look at the queue
that finds none due ends in a sleep. -/
def Loop.weight (due : Bool) : Loop CallBack → Nat
  | .head => if due then 2 else 6
  | .body => if due then 1 else 5
  | .sleeping _ => 4
  | .woken => 7
  | .flying _ => 16
  | .absent | .waiting | .exited => 0

def State.toDo [Fintype ι] (s : State ι CallBack) : Nat :=
  ∑ i, (s.thread i).weight + 20 * s.timerTasks.card + s.scheduler.weight (decide s.IsDue)

theorem Loop.weight_le (l : Loop CallBack) (due : Bool) : l.weight due ≤ l.weight false := by
  cases l <;> cases due <;> simp [Loop.weight]

theorem Loop.weight_wake (l : Loop CallBack) (due due' : Bool) : l.wake.weight due' ≤ l.weight due + 7 := by
  cases l <;> cases due <;> cases due' <;> simp [Loop.wake, Loop.weight]

/-- What is due stays so. -/
theorem Loop.weight_mono {l : Loop CallBack} {P Q : Prop} [Decidable P] [Decidable Q] (h : P → Q) :
    l.weight (decide Q) ≤ l.weight (decide P) := by
  by_cases hP : P
  · rw [decide_eq_true hP, decide_eq_true (h hP)]
  · rw [decide_eq_false hP]
    exact l.weight_le _

section
variable [Fintype ι]

/-- The clock only makes tasks due. -/
theorem toDo_clock {now : Int} (h : s.now ≤ now) : State.toDo { s with now := now } ≤ s.toDo := by
  have hdue : s.IsDue → State.IsDue { s with now := now } := fun ⟨t, ht, hle⟩ => ⟨t, ht, hle.trans h⟩
  have := Loop.weight_mono (l := s.scheduler) hdue
  unfold State.toDo
  exact Nat.add_le_add_left this _

variable [DecidableEq ι]

theorem sum_update (i : ι) (p : Thread CallBack) :
    ∑ j, (Function.update s.thread i p j).weight + (s.thread i).weight = ∑ j,
    (s.thread j).weight + p.weight := by
  have h := sum_change (f := fun j => (s.thread j).weight)
    (g := fun j => (Function.update s.thread i p j).weight)
    (i := i)
    fun j hj => by rw [Function.update_of_ne hj]
  rwa [Function.update_self] at h

/-- Every step takes something off, while the scheduler is running. -/
theorem onward_toDo {oneOwed : Nat} (hr : s.running = true) (ha : s.Aims) (h : Onward oneOwed s s') :
    s'.toDo < s.toDo := by
  unfold State.toDo
  cases h with
  | @readClock i id delayMs cbTask ht =>
    have hsum := sum_update (s := s) i (.timed ⟨execTime s.now delayMs, cbTask, id⟩)
    rw [ht] at hsum
    change _ + 30 = _ + 29 at hsum
    change _ + s.scheduler.weight (decide s.IsDue) < _
    simp only [State.setThread]
    omega
  | @push i t ht =>
    have hsum := sum_update (s := s) i .notifyOne
    rw [ht] at hsum
    change _ + 29 = _ + 8 at hsum
    have hdue := Loop.weight_mono (l := s.scheduler) (P := s.IsDue)
      (Q := State.IsDue { s.setThread i .notifyOne with
        timerTasks := t ::ₘ s.timerTasks, pushed := t ::ₘ s.pushed })
      (.imp fun u hu => ⟨Multiset.mem_cons_of_mem hu.1, hu.2⟩)
    rw [Multiset.card_cons]
    simp only [State.setThread] at hdue ⊢
    omega
  | @notifyOne i ht =>
    have hsum := sum_update (s := s) i .idle
    rw [ht] at hsum
    change _ + 8 = _ + 0 at hsum
    have hwake := s.scheduler.weight_wake (decide s.IsDue)
      (decide (State.IsDue { s.setThread i .idle with scheduler := s.scheduler.wake }))
    simp only [State.setThread] at hwake ⊢
    omega
  | @timeout d hl hd =>
    obtain ⟨t, ht, hle⟩ := ha d hl
    have hdue : State.IsDue { s with scheduler := s.scheduler.wake } := ⟨t, ht, hle.trans hd⟩
    rw [decide_eq_true hdue, hl]
    simp only [Loop.wake, Loop.weight, if_true]
    omega
  | load hl howed =>
    change _ + (if s.running then _ else _ : Loop CallBack).weight (decide s.IsDue) < _
    rw [hl, hr, if_pos rfl]
    cases decide s.IsDue <;> simp [Loop.weight]
  | waitEmpty hl hq =>
    rw [hl, hr, if_pos rfl]
    cases decide s.IsDue <;> simp [Loop.weight]
  | waitEnds hl hp =>
    change _ + Loop.head.weight (decide s.IsDue) < _
    rw [hl]
    cases decide s.IsDue <;> simp [Loop.weight]
  | waitAgain hl hr hq =>
    rw [hl]
    simp [Loop.weight]
  | @discard t rest hl ht hq hmem =>
    have hhead := (Loop.head : Loop CallBack).weight_le (decide (State.IsDue { s with
      timerTasks := rest
      canceledIds := s.canceledIds.erase t.taskId
      discarded := t ::ₘ s.discarded
      scheduler := .head }))
    rw [hl, hq, Multiset.card_cons]
    simp only [Loop.weight] at hhead ⊢
    simp only [Bool.false_eq_true, if_false] at hhead
    omega
  | @pop t rest hl ht hq hmem hn =>
    rw [hl, hq, Multiset.card_cons]
    have hbody : 0 < (Loop.body : Loop CallBack).weight (decide s.IsDue) := by
      cases decide s.IsDue <;> simp [Loop.weight]
    simp only [Loop.weight] at hbody ⊢
    omega
  | @waitUntil t hl ht hc hn =>
    have hdue : ¬ s.IsDue := by
      rintro ⟨u, hu, hle⟩
      exact hn ((ht.le hu).trans hle)
    rw [hl, decide_eq_false hdue]
    simp only [Loop.weight, Bool.false_eq_true, if_false]
    omega

end

end TimerScheduler

namespace TimedPool

variable {ι CallBack : Type} {n : Nat}

/-- What the threads of both do, no call beginning. -/
inductive Inner [DecidableEq ι] : State ι CallBack n → State ι CallBack n → Prop
  | timer {s : State ι CallBack n} {timer : TimerScheduler.State ι CallBack} :
      TimerScheduler.Onward s.pool.oneOwed s.timer timer → Inner s { s with timer := timer }
  | postTask {s : State ι CallBack n} {t : TimerTask CallBack} : s.timer.scheduler = .flying t →
      s.pool.pool.lock = none →
      Inner s (s.post t)
  | pool {s : State ι CallBack n} {pool : ThreadPool.CvState CallBack n} : ThreadPool.Inner s.pool pool →
      Inner s { s with pool := pool }

/-- The clock reads `now`. -/
def State.at (s : State ι CallBack n) (now : Int) : State ι CallBack n :=
  { s with timer := { s.timer with now := now } }

/-- Time passes, then a thread does something. -/
def Later [DecidableEq ι] (s s' : State ι CallBack n) : Prop := ∃ now, s.timer.now ≤ now ∧ Inner (s.at now) s'

def State.toDo [Fintype ι] (s : State ι CallBack n) : Nat := s.timer.toDo + s.pool.toDo

/-- Started, not stopped, and no call of `Stop` has begun. -/
structure Live [DecidableEq ι] (s : State ι CallBack n) : Prop where
  reach : Reachable Start Step s
  running : s.timer.running = true
  noStop : ∀ i, (s.timer.thread i).inStop = false
  calls : s.timer.calls < 2 ^ 64

/-- Nobody will do anything until time passes, and nothing that is due is left. -/
structure Done (s : State ι CallBack n) : Prop where
  pool : ThreadPool.AtRest s.pool
  threads : ∀ i, (s.timer.thread i).weight = 0
  later : ∀ t ∈ s.timer.timerTasks, s.timer.now < t.execTime
  ended : ∀ t ∈ s.timer.pushed, s.At t .pending ∨ s.At t .discarded ∨ s.At t .ran

section
variable [DecidableEq ι] {s s' : State ι CallBack n}

/-- The pool is there. -/
theorem Live.pool (h : Live s) : s.pool.pool.running = true := by
  by_contra hr
  have := ((reachable_inv h.reach).gone (Bool.eq_false_iff.2 hr)).1
  rw [h.running] at this
  cases this

theorem Inner.step (h : Inner s s') (hl : Live s) : Step s s' := by
  cases h with
  | timer h => exact .timer hl.pool h.step h.kept.1 h.kept.2.2.2
  | postTask hf hlock => exact .postTask hf hlock
  | pool h => exact .pool h

theorem Live.at (h : Live s) {now : Int} (hn : s.timer.now ≤ now) : Live (s.at now) :=
  ⟨h.reach.next (.timer h.pool (.clock now hn) rfl fun he hne => absurd he hne), h.running, h.noStop, h.calls⟩

theorem inner_live (hl : Live s) (h : Inner s s') : Live s' := by
  have hreach := hl.reach.next (h.step hl)
  cases h with
  | timer h =>
    obtain ⟨-, hr, hc, -⟩ := h.kept
    exact ⟨hreach, hr.trans hl.running, h.inStop hl.noStop, hc ▸ hl.calls⟩
  | postTask | pool => exact ⟨hreach, hl.running, hl.noStop, hl.calls⟩

section
variable [Fintype ι]

omit [DecidableEq ι] in
theorem post_toDo {t : TimerTask CallBack} (hf : s.timer.scheduler = .flying t)
    (hlock : s.pool.pool.lock = none) :
    (s.post t).toDo < s.toDo := by
  have hhead :=
    (TimerScheduler.Loop.head : TimerScheduler.Loop CallBack).weight_le (decide (s.post t).timer.IsDue)
  have htimer : (s.post t).timer.toDo + 10 ≤ s.timer.toDo := by
    unfold TimerScheduler.State.toDo
    rw [hf]
    simp only [State.post, TimerScheduler.Loop.weight, Bool.false_eq_true, if_false] at hhead ⊢
    omega
  have hpool : (s.post t).pool.toDo = s.pool.toDo + 9 := by
    unfold ThreadPool.CvState.toDo
    simp only [State.post, ThreadPool.State.push, hlock, ThreadPool.holding, List.length_append,
      List.length_singleton, ThreadPool.CvState.weights]
    omega
  unfold State.toDo
  omega

theorem inner_toDo (hl : Live s) (h : Inner s s') : s'.toDo < s.toDo := by
  cases h with
  | timer h =>
    have := TimerScheduler.onward_toDo hl.running (TimerScheduler.reachable_aims (reachable_timer hl.reach)) h
    unfold State.toDo
    dsimp only
    omega
  | postTask hf hlock => exact post_toDo hf hlock
  | pool h =>
    have := ThreadPool.inner_toDo (ThreadPool.reachable_cvInv (reachable_pool hl.reach)) h
    unfold State.toDo
    dsimp only
    omega

theorem later_step (hl : Live s) (h : Later s s') : Live s' ∧ s'.toDo < s.toDo := by
  obtain ⟨now, hn, h⟩ := h
  refine ⟨inner_live (hl.at hn) h, Nat.lt_of_lt_of_le (inner_toDo (hl.at hn) h) ?_⟩
  have := TimerScheduler.toDo_clock hn
  unfold State.toDo
  exact Nat.add_le_add_right this _

end

/-! ## Where it ends -/

variable (hl : Live s) (hstuck : ∀ s', ¬ Inner s s')
include hl hstuck

theorem stuck_pool (hn : 0 < n) : ThreadPool.AtRest s.pool := by
  have hreach := reachable_pool hl.reach
  have hpool := ThreadPool.reachable_pool hreach
  refine ThreadPool.stuck_atRest true hn
    ⟨hpool, ThreadPool.reachable_cvInv hreach, .inl ⟨⟨0, hn⟩, fun hex => ?_⟩, hl.pool⟩
    fun p h => hstuck _ (.pool h)
  have := ((ThreadPool.reachable_inv hpool).exited _ hex).1
  rw [hl.pool] at this
  cases this

omit hl in
theorem stuck_threads (i : ι) : (s.timer.thread i).weight = 0 ∧ s.timer.thread i ≠ .notifyOne := by
  cases ht : s.timer.thread i with
  | drawn => exact absurd (.timer (.readClock ht)) (hstuck _)
  | timed => exact absurd (.timer (.push ht)) (hstuck _)
  | notifyOne => exact absurd (.timer (.notifyOne ht)) (hstuck _)
  | idle | stopping | notifyAll | joining => exact ⟨rfl, nofun⟩

/-- The scheduler's thread sleeps. -/
theorem stuck_scheduler (hrest : ThreadPool.AtRest s.pool) :
    s.timer.scheduler = .waiting ∨ ∃ d, s.timer.scheduler = .sleeping d ∧ s.timer.now < d := by
  have hpresent := (reachable_inv hl.reach).present hl.running
  cases hs : s.timer.scheduler with
  | absent => exact absurd hs hpresent.1
  | exited => exact absurd hs hpresent.2
  | waiting => exact .inl rfl
  | head => exact absurd (.timer (.load hs hrest.notified.1)) (hstuck _)
  | flying t => exact absurd (.postTask hs hrest.free) (hstuck _)
  | woken =>
    by_cases hq : s.timer.timerTasks = 0
    · exact absurd (.timer (.waitAgain hs hl.running hq)) (hstuck _)
    · exact absurd (.timer (.waitEnds hs (.inr hq))) (hstuck _)
  | sleeping d =>
    by_cases hd : d ≤ s.timer.now
    · exact absurd (.timer (.timeout hs hd)) (hstuck _)
    · exact .inr ⟨d, rfl, Int.not_le.1 hd⟩
  | body =>
    by_cases hq : s.timer.timerTasks = 0
    · exact absurd (.timer (.waitEmpty hs hq)) (hstuck _)
    · obtain ⟨t, ht⟩ := TimerScheduler.exists_isTop hq
      obtain ⟨rest, hrest⟩ := Multiset.exists_cons_of_mem ht.1
      by_cases hmem : t.taskId ∈ s.timer.canceledIds
      · exact absurd (.timer (.discard rest hs ht hrest hmem)) (hstuck _)
      · by_cases hdue : s.timer.now ≥ t.execTime
        · exact absurd (.timer (.pop rest hs ht hrest hmem hdue)) (hstuck _)
        · exact absurd (.timer (.waitUntil hs ht hmem hdue)) (hstuck _)

theorem stuck_done (hn : 0 < n) : Done s := by
  have hrest := stuck_pool hl hstuck hn
  have hthreads := stuck_threads hstuck
  have hscheduler := stuck_scheduler hl hstuck hrest
  have hcovered := (TimerScheduler.reachable_covered (reachable_timer hl.reach)).resolve_right fun ⟨i, hi⟩ =>
    (hthreads i).2 hi
  refine ⟨hrest, fun i => (hthreads i).1, fun t ht => ?_, fun t ht => ?_⟩
  · rcases hscheduler with hs | ⟨d, hs, hd⟩
    · rw [hcovered.1 hs] at ht
      exact absurd ht (Multiset.notMem_zero t)
    · exact Int.lt_of_lt_of_le hd (hcovered.2 d hs t ht)
  · have hpool := ThreadPool.reachable_inv (ThreadPool.reachable_pool (reachable_pool hl.reach))
    have htimer := TimerScheduler.reachable_inv (reachable_timer hl.reach) hl.calls
    have hi := reachable_inv hl.reach
    obtain ⟨p, hp, -⟩ := existsUnique_place hi hpool (posted_nodup htimer) (htimer.inOnePlace ht)
    cases p with
    | pending => exact .inl hp
    | discarded => exact .inr (.inl hp)
    | ran => exact .inr (.inr hp)
    | flying =>
      rcases hscheduler with hs | ⟨d, hs, -⟩ <;> rw [show s.timer.scheduler = .flying t from hp] at hs <;>
        cases hs
    | queued | held =>
      -- The pool has run what it got.
      obtain ⟨k, hk, -⟩ := hp
      have hlen := (List.getElem?_eq_some_iff.1 hk).1
      have hposted := congrArg List.length hi.posted
      rw [List.length_map] at hposted
      have hran := hrest.ran k (by omega)
      exact .inr (.inr ⟨k, hk, List.count_pos_iff.1 (by omega)⟩)

/-- If not even time helps, the queue is empty. -/
theorem stuck_forever (hn : 0 < n) (hlater : ∀ s', ¬ Later s s') : s.timer.timerTasks = 0 := by
  have hthreads := stuck_threads hstuck
  have hcovered := (TimerScheduler.reachable_covered (reachable_timer hl.reach)).resolve_right fun ⟨i, hi⟩ =>
    (hthreads i).2 hi
  rcases stuck_scheduler hl hstuck (stuck_pool hl hstuck hn) with hs | ⟨d, hs, hd⟩
  · exact hcovered.1 hs
  · exact absurd ⟨d, Int.le_of_lt hd, .timer (.timeout hs (Int.le_refl d))⟩ (hlater _)

end

/-- A scheduler that was started and has workers, in any state any interleaving reaches, no
call of `Stop` begun and no further calls or spurious wake-ups to come: however the threads
interleave, and however far the clock moves between their steps, they do at most `toDo`
steps; where they can do nothing before time passes, everything that is due was run or
discarded as canceled; and where they can do nothing ever, all tasks are. -/
theorem every_task_comes [DecidableEq ι] [Fintype ι] (s : State ι CallBack n) (hl : Live s) (hn : 0 < n) :
    (∀ s', Relation.ReflTransGen Later s s' → (∀ s'', ¬ Inner s' s'') → Done s') ∧
      Settles Later s s.toDo fun s' => s'.timer.timerTasks = 0 ∧ ∀ t ∈ s'.timer.pushed, s'.At t .discarded ∨
        s'.At t .ran := by
  have live {s' : State ι CallBack n} (hr : Relation.ReflTransGen Later s s') : Live s' := by
    induction hr with
    | refl => exact hl
    | tail _ h ih => exact (later_step ih h).1
  refine ⟨fun s' hr hstuck => stuck_done (live hr) hstuck hn,
    settles_of_measure (I := Live) (fun _ _ hl h => later_step hl h) hl ?_⟩
  intro s' hl' hlater
  have hstuck (s'' : State ι CallBack n) : ¬ Inner s' s'' :=
    fun h => hlater s'' ⟨s'.timer.now, Int.le_refl _, h⟩
  have hempty := stuck_forever hl' hstuck hn hlater
  refine ⟨hempty, fun t ht => ((stuck_done hl' hstuck hn).ended t ht).resolve_left fun hp => ?_⟩
  exact absurd (hempty ▸ hp : t ∈ (0 : Multiset (TimerTask CallBack))) (Multiset.notMem_zero t)

/-- The theorem for a call of `ScheduleOnce` that has its id: its task is pushed, waits for a second and
is run. -/
theorem every_task_comes_one : ∃ s s' : State Unit Nat 1, Live s ∧ s.timer.thread () = .drawn 0 1000 7 ∧
    Relation.ReflTransGen Later s s' ∧ s'.timer.timerTasks = 0 ∧ ∀ t ∈ s'.timer.pushed, s'.At t .discarded ∨
      s'.At t .ran := by
  have h₀ : Reachable Start Step ({ timer := { now := 0 } } : State Unit Nat 1) := .start ⟨⟨0, rfl⟩, rfl⟩
  have h₁ := h₀.next (.timer rfl (.fetchAdd () 1000 7 rfl) rfl nofun)
  have h₂ := h₁.next (.timer rfl (.start rfl (.inl rfl)) rfl nofun)
  obtain ⟨s', hr, hq⟩ := (every_task_comes _ ⟨h₂, rfl, fun _ => rfl, by decide⟩ Nat.one_pos).2.reaches
  exact ⟨_, s', ⟨h₂, rfl, fun _ => rfl, by decide⟩, rfl, hr, hq⟩

end TimedPool

end NebulaToolkit
