import NebulaToolkit.Jobs
import NebulaToolkit.Session
/-!
# The reactor on its scheduler

`net::ReactorCore`, the `TimerScheduler` it was given and the scheduler's pool:
all three machines at once. A read loop that finds packets calls
`ScheduleOnce(0, timer_task)`, whose task goes through the scheduler's queue and
the pool's, until a worker calls back. What `EventLoop` counts, the tasks of a
handler and the orphans, are the lambdas on their way (`tasks_on_their_way`),
and they all come (`callbacks_come`).
-/

namespace NebulaToolkit.Dispatch

open Lib
open EventLoop (framing)

variable {ι α : Type} {n : Nat}

structure State (ι α : Type) (n : Nat) where
  loop : EventLoop.State
  /-- `*timer_shceduler_` -/
  timed : TimedPool.State ι (Job α) n
  /-- The `timer_task` of a read loop that is to call `ScheduleOnce`. -/
  timerTask : Option (Job α) := none
  /-- How many handlers of a descriptor have been destroyed. -/
  lives : Int → Nat := fun _ => 0

namespace State

/-- The reactor's thread `r` is neither in `ScheduleOnce` nor about to call it. -/
def Free (s : State ι α n) (r : ι) : Prop := s.timerTask = none ∧ s.timed.timer.thread r = .idle

/-- The event loop has done a step, which may have destroyed a handler. -/
def goOn (s : State ι α n) (loop : EventLoop.State) : State ι α n :=
  { s with
    loop := loop
    lives := fun fd =>
      if (s.loop.protocolHandlers fd).isSome && (loop.protocolHandlers fd).isNone then s.lives fd + 1
      else s.lives fd }

/-- Worker `w` is done with the task the pool got `k`th. -/
def ran (s : State ι α n) (w : Fin n) (k : Nat) : TimedPool.State ι (Job α) n :=
  { s.timed with
    pool := { s.timed.pool with
      pool := { s.timed.pool.pool.setWorker w .waiting with ran := s.timed.pool.pool.ran ++ [k] } } }

/-- The lambdas that have been made and have not run. -/
def underway (s : State ι α n) (r : ι) : Multiset (Int × Nat) :=
  s.timerTask.elim 0 Job.captured + ((s.timed.timer.thread r).captured + s.timed.captured)

end State

/-- No handler that is there gets a task or runs one, and no orphan is run. -/
structure Keeps (loop loop' : EventLoop.State) : Prop where
  tasks : ∀ fd, (loop'.protocolHandlers fd).isSome → loop'.tasksAt fd = loop.tasksAt fd
  orphans : loop.orphans ≤ loop'.orphans

inductive Step [DecidableEq ι] (r : ι) : State ι α n → State ι α n → Prop
  /-- The reactor does anything but schedule. -/
  | loop {s : State ι α n} {loop : EventLoop.State} : s.Free r → EventLoop.Step s.loop loop →
      Keeps s.loop loop → Step r s (s.goOn loop)
  /-- A pass of a read loop finds packets and makes its `timer_task`, ... -/
  | extract {s : State ι α n} {loop : EventLoop.State} (fd : Int) : s.Free r → EventLoop.Step s.loop loop →
      loop.tasksAt fd = s.loop.tasksAt fd + 1 →
      Step r s { s with loop := loop, timerTask := some (.packs fd (s.lives fd)) }
  /-- ... and calls `ScheduleOnce(0, timer_task)`, ... -/
  | scheduleOnce {s : State ι α n} {job : Job α} : s.timerTask = some job → s.timed.timer.thread r = .idle →
      s.timed.pool.pool.running = true →
      Step r s { s with timed := s.timed.fetchAdd r job, timerTask := none }
  /-- ... which goes on; and all that scheduler and pool do besides. -/
  | timed {s : State ι α n} {timed : TimedPool.State ι (Job α) n} : TimedPool.Step s.timed timed →
      TimedPool.Apart r s.timed timed → Step r s { s with timed := timed }
  /-- A worker runs a lambda whose handler is there, ... -/
  | runTask {s : State ι α n} (w : Fin n) {k : Nat} {fd : Int} {h : ProtocolHandler} :
      s.timed.pool.pool.worker w = .executing k (.packs fd (s.lives fd)) →
      s.loop.protocolHandlers fd = some (some h) →
      Step r s { s with loop := s.loop.setHandler fd h.runTask, timed := s.ran w k }
  /-- ... or one whose handler is gone. -/
  | runStale {s : State ι α n} (w : Fin n) {k : Nat} {fd : Int} {life : Nat} :
      s.timed.pool.pool.worker w = .executing k (.packs fd life) → life ≠ s.lives fd →
      Step r s { s with
        loop := { s.loop with orphans := s.loop.orphans - 1, stale := s.loop.stale + 1 }
        timed := s.ran w k }

/-- A new reactor, configured, and a new scheduler. -/
def Start (params : ConnParams) (s : State ι α n) : Prop :=
  ∃ loop timed, EventLoop.Start params loop ∧ TimedPool.Start timed ∧ s = { loop := loop, timed := timed }

/-! ## Lambdas and tasks -/

/-- The lambdas on their way, by the handler they captured: one that is there has them as its
tasks, the others are the orphans. -/
structure Counts (loop : EventLoop.State) (lives : Int → Nat) (way : Multiset (Int × Nat)) : Prop where
  known : ∀ x ∈ way, x.2 ≤ lives x.1
  held : ∀ fd, loop.tasksAt fd = way.count (fd, lives fd)
  lost : loop.orphans = way.countP fun x => x.2 ≠ lives x.1

variable {loop loop' : EventLoop.State} {lives : Int → Nat} {way : Multiset (Int × Nat)}

theorem Counts.of_same (h : Counts loop lives way) (ht : ∀ fd, loop'.tasksAt fd = loop.tasksAt fd)
    (ho : loop'.orphans = loop.orphans) :
    Counts loop' lives way :=
  ⟨h.known, fun fd => (ht fd).trans (h.held fd), ho.trans h.lost⟩

/-- When the handler of `fd` goes, its lambdas become orphans. -/
theorem countP_outlived {fd : Int} (hk : ∀ x ∈ way, x.2 ≤ lives x.1) :
    (way.countP fun x => x.2 ≠ Function.update lives fd (lives fd + 1) x.1) =
      (way.countP fun x => x.2 ≠ lives x.1) + way.count (fd, lives fd) := by
  induction way using Multiset.induction_on with
  | empty => rfl
  | cons x way ih =>
    have hx := hk x (Multiset.mem_cons_self x way)
    rw [Multiset.countP_cons, Multiset.countP_cons, Multiset.count_cons,
      ih fun y hy => hk y (Multiset.mem_cons_of_mem hy)]
    obtain ⟨x, life⟩ := x
    dsimp only at hx ⊢
    by_cases hf : x = fd
    · subst hf
      rw [Function.update_self]
      by_cases hl : life = lives x
      · subst hl
        simp
        omega
      · have hne : life ≠ lives x + 1 := by omega
        simp [hl, hne, Ne.symm hl]
        omega
    · have hne : (fd, lives fd) ≠ (x, life) := fun h => hf (Prod.mk.inj h).1.symm
      rw [Function.update_of_ne hf, if_neg hne]
      omega

theorem Counts.erased (h : Counts loop lives way) {fd : Int}
    (hp : loop'.protocolHandlers = Function.update loop.protocolHandlers fd none)
    (ho : loop'.orphans = loop.orphans + loop.tasksAt fd) :
    Counts loop' (Function.update lives fd (lives fd + 1)) way := by
  refine ⟨fun x hx => ?_, fun x => ?_, ?_⟩
  · have hle := h.known x hx
    by_cases hf : x.1 = fd
    · rw [hf, Function.update_self]
      rw [hf] at hle
      omega
    · rwa [Function.update_of_ne hf]
  · by_cases hf : x = fd
    · subst hf
      rw [EventLoop.tasksAt_none (by rw [hp, Function.update_self]), Function.update_self, eq_comm,
        Multiset.count_eq_zero]
      intro hm
      have hle := h.known _ hm
      dsimp only at hle
      omega
    · have hsame : loop'.tasksAt x = loop.tasksAt x :=
        EventLoop.tasksAt_congr (by rw [hp, Function.update_of_ne hf])
      rw [hsame, Function.update_of_ne hf]
      exact h.held x
  · rw [ho, h.lost, h.held fd, countP_outlived h.known]

theorem Counts.made (h : Counts loop lives way) {fd : Int} (ht : loop'.tasksAt fd = loop.tasksAt fd + 1)
    (hother : ∀ x, x ≠ fd → loop'.tasksAt x = loop.tasksAt x) (ho : loop'.orphans = loop.orphans) :
    Counts loop' lives ((fd, lives fd) ::ₘ way) := by
  refine ⟨fun x hx => ?_, fun x => ?_, ?_⟩
  · rcases Multiset.mem_cons.1 hx with rfl | hx
    · exact Nat.le_refl _
    · exact h.known x hx
  · by_cases hf : x = fd
    · subst hf
      rw [ht, h.held x, Multiset.count_cons_self]
    · have hne : (x, lives x) ≠ (fd, lives fd) := fun he => hf (Prod.mk.inj he).1
      rw [hother x hf, h.held x, Multiset.count_cons_of_ne hne]
  · rw [ho, h.lost, Multiset.countP_cons_of_neg _ (by simp)]

/-- A lambda on its way whose handler has not been destroyed. -/
theorem Counts.handler {fd : Int} (h : Counts loop lives ((fd, lives fd) ::ₘ way)) :
    ∃ handler, loop.protocolHandlers fd = some (some handler) := by
  refine EventLoop.exists_handler ?_
  rw [h.held fd, Multiset.count_cons_self]
  exact Nat.succ_ne_zero _

/-- A lambda has run whose handler is there. -/
theorem Counts.ran {fd : Int} {h₀ : ProtocolHandler} (h₁ : ProtocolHandler)
    (h : Counts loop lives ((fd, lives fd) ::ₘ way))
    (hp : loop.protocolHandlers fd = some (some h₀)) (ht : h₁.tasks = h₀.tasks - 1) :
    h₀.tasks ≠ 0 ∧ Counts (loop.setHandler fd h₁) lives way := by
  have hfd := h.held fd
  rw [EventLoop.tasksAt_some hp, Multiset.count_cons_self] at hfd
  refine ⟨by omega, fun x hx => h.known x (Multiset.mem_cons_of_mem hx), fun x => ?_, ?_⟩
  · by_cases hf : x = fd
    · subst hf
      rw [EventLoop.tasksAt_setHandler, ht]
      omega
    · have hne : (x, lives x) ≠ (fd, lives fd) := fun he => hf (Prod.mk.inj he).1
      have hx := h.held x
      rw [Multiset.count_cons_of_ne hne] at hx
      rw [← hx]
      exact EventLoop.tasksAt_congr (Function.update_of_ne hf _ _)
  · have hlost := h.lost
    rwa [Multiset.countP_cons_of_neg _ (by simp)] at hlost

/-- A lambda has run whose handler is gone. -/
theorem Counts.stale {fd : Int} {life : Nat} (h : Counts loop lives ((fd, life) ::ₘ way))
    (hl : life ≠ lives fd) (stale : Nat) :
    loop.orphans ≠ 0 ∧ Counts { loop with orphans := loop.orphans - 1, stale := stale } lives way := by
  have hlost := h.lost
  rw [Multiset.countP_cons_of_pos (p := fun x : Int × Nat => x.2 ≠ lives x.1) way hl] at hlost
  refine ⟨by omega, fun x hx => h.known x (Multiset.mem_cons_of_mem hx), fun x => ?_, by dsimp only; omega⟩
  have hne : (x, lives x) ≠ (fd, life) := by
    rintro he
    obtain ⟨rfl, rfl⟩ := Prod.mk.inj he
    exact hl rfl
  have hx := h.held x
  rwa [Multiset.count_cons_of_ne hne] at hx

/-! ## The three machines -/

structure Inv (params : ConnParams) (r : ι) [DecidableEq ι] (s : State ι α n) : Prop where
  loop : Reachable (EventLoop.Start params) EventLoop.Step s.loop
  timed : Reachable TimedPool.Start TimedPool.Step s.timed
  armed : ∀ fd h, s.loop.protocolHandlers fd = some (some h) → h.Armed
  spared : TimedPool.Spared r s.timed
  schedules : (s.timed.timer.thread r).schedules = true
  counts : Counts s.loop s.lives (s.underway r)

section
variable [DecidableEq ι] {params : ConnParams} {r : ι} {s s' : State ι α n}

theorem reachable_keyed (h : Reachable (EventLoop.Start params) EventLoop.Step loop) : EventLoop.Keyed loop :=
  h.inv (I := EventLoop.Keyed)
    (fun s hs fd hx => by rw [hs] at hx; cases hx) fun _ _ _ hk hs => EventLoop.step_keyed hk hs

theorem start_inv (h : Start params s) : Inv params r s := by
  obtain ⟨loop, timed, rfl, ⟨⟨now, htimer⟩, hpool⟩, rfl⟩ := h
  obtain ⟨timer, pool⟩ := timed
  dsimp only at htimer hpool
  subst htimer hpool
  refine ⟨.start rfl, .start ⟨⟨now, rfl⟩, rfl⟩, nofun,
    ⟨fun _ _ => rfl, fun id hid => absurd hid (Finset.notMem_empty id)⟩, rfl, ?_⟩
  have hnone :
      ({ loop := { params := params }, timed := ⟨{ now := now }, {}⟩ } : State ι α n).underway r = 0 := by
    simp [State.underway, TimedPool.State.captured, TimerScheduler.State.captured, ThreadPool.State.captured,
      TimerScheduler.Loop.task, TimerScheduler.Thread.captured, ThreadPool.Worker.captured]
  rw [hnone]
  exact ⟨fun x hx => absurd hx (Multiset.notMem_zero x), fun fd => rfl, rfl⟩

omit [DecidableEq ι] in
/-- A worker holds a lambda: it is one of those on their way, the others are those when it has run. -/
theorem captured_ran {w : Fin n} {k : Nat} {job : Job α}
    (hw : s.timed.pool.pool.worker w = .executing k job) :
    s.timed.captured = job.captured + (s.ran w k).captured := by
  have h := ThreadPool.ran_captured hw (s.timed.pool.pool.ran ++ [k])
  unfold TimedPool.State.captured
  rw [← h]
  simp only [State.ran]
  ac_rfl

omit [DecidableEq ι] in
theorem underway_ran {w : Fin n} {k : Nat} {job : Job α} (hw : s.timed.pool.pool.worker w = .executing k job)
    (loop : EventLoop.State) :
    s.underway r = job.captured + ({ s with loop := loop, timed := s.ran w k } : State ι α n).underway r := by
  have hthread : (s.ran w k).timer = s.timed.timer := rfl
  unfold State.underway
  rw [captured_ran hw, hthread]
  ac_rfl

omit [DecidableEq ι] in
/-- Which handlers are destroyed. -/
theorem goOn_same (hp : ∀ x, (s.loop.protocolHandlers x).isSome → (loop.protocolHandlers x).isSome) :
    (s.goOn loop).lives = s.lives := by
  funext x
  refine if_neg fun hx => ?_
  rw [Bool.and_eq_true] at hx
  have hsome := hp x hx.1
  rw [Option.isNone_iff_eq_none.1 hx.2] at hsome
  cases hsome

omit [DecidableEq ι] in
theorem goOn_erased {fd : Int} (hp : loop.protocolHandlers = Function.update s.loop.protocolHandlers fd none)
    (hsome : (s.loop.protocolHandlers fd).isSome) :
    (s.goOn loop).lives = Function.update s.lives fd (s.lives fd + 1) := by
  funext x
  by_cases hx : x = fd
  · subst hx
    rw [Function.update_self]
    refine if_pos ?_
    rw [hsome, hp, Function.update_self]
    rfl
  · rw [Function.update_of_ne hx]
    refine if_neg fun h => ?_
    rw [hp, Function.update_of_ne hx, Bool.and_eq_true] at h
    rw [Option.isNone_iff_eq_none.1 h.2] at h
    cases h.1

omit [DecidableEq ι] in
theorem loop_counts (hk : EventLoop.Keyed s.loop) (h : Counts s.loop s.lives way)
    (hs : EventLoop.Step s.loop loop) (hkeep : Keeps s.loop loop) : Counts loop (s.goOn loop).lives way := by
  cases EventLoop.step_tasks hk hs with
  | handler fd hother ho hp hfd =>
    rw [goOn_same hp]
    refine h.of_same (fun x => ?_) ho
    by_cases hx : x = fd
    · subst hx
      exact hfd.elim (hkeep.tasks x) fun he => he
    · exact hother x hx
  | stale hlt => exact absurd hkeep.orphans (Nat.not_le.2 hlt)
  | erased fd ho hp =>
    cases hold : s.loop.protocolHandlers fd with
    | some entry =>
      rw [goOn_erased hp (by rw [hold]; rfl)]
      exact h.erased hp ho
    | none =>
      -- There was none to destroy.
      have hsame : loop.protocolHandlers = s.loop.protocolHandlers := by
        rw [hp, ← hold, Function.update_eq_self]
      rw [goOn_same fun x hx => by rwa [hsame]]
      refine h.of_same (fun x => EventLoop.tasksAt_congr (by rw [hsame])) ?_
      rw [ho, EventLoop.tasksAt_none hold, Nat.add_zero]

omit [DecidableEq ι] in
theorem extract_counts (hk : EventLoop.Keyed s.loop) (h : Counts s.loop s.lives way)
    (hs : EventLoop.Step s.loop loop) {fd : Int} (ht : loop.tasksAt fd = s.loop.tasksAt fd + 1) :
    Counts loop s.lives ((fd, s.lives fd) ::ₘ way) := by
  cases EventLoop.step_tasks hk hs with
  | handler x hother ho hp hfd =>
    have hx : fd = x := by
      by_contra hx
      have := hother fd hx
      omega
    subst hx
    exact h.made ht hother ho
  | stale _ hp =>
    have := EventLoop.tasksAt_congr (s := s.loop) (congrFun hp fd)
    omega
  | erased x ho hp =>
    by_cases hx : fd = x
    · subst hx
      rw [EventLoop.tasksAt_none (by rw [hp, Function.update_self])] at ht
      omega
    · have hsame : loop.tasksAt fd = s.loop.tasksAt fd :=
        EventLoop.tasksAt_congr (by rw [hp, Function.update_of_ne hx])
      omega

/-- What the reactor does in all this is a step of its own. -/
theorem loop_step (hi : Inv params r s) (h : Step r s s') :
    s'.loop = s.loop ∨ EventLoop.Step s.loop s'.loop := by
  cases h with
  | loop _ hs | extract _ _ hs => exact .inr hs
  | scheduleOnce | timed => exact .inl rfl
  | @runTask w k fd h hw hp =>
    have hcounts := hi.counts
    rw [underway_ran hw (s.loop.setHandler fd h.runTask)] at hcounts
    obtain ⟨h0, -⟩ := Counts.ran h.runTask hcounts hp (by cases h <;> rfl)
    obtain ⟨hstep, hlt⟩ := (hi.armed fd h hp).runTask h0
    exact .inr (.runTask hp hstep hlt)
  | @runStale w k fd life hw hl =>
    have hcounts := hi.counts
    rw [underway_ran hw s.loop] at hcounts
    exact .inr (.runOrphan (Counts.stale hcounts hl s.loop.stale).1)

theorem step_counts (hi : Inv params r s) (h : Step r s s') (hc : s'.timed.timer.calls < 2 ^ 64) :
    Counts s'.loop s'.lives (s'.underway r) := by
  have hkeyed := reachable_keyed hi.loop
  cases h with
  | loop hfree hs hkeep => exact loop_counts hkeyed hi.counts hs hkeep
  | extract fd hfree hs ht =>
    have hcounts := extract_counts hkeyed hi.counts hs ht
    unfold State.underway at hcounts ⊢
    rw [hfree.1] at hcounts
    rw [← Multiset.singleton_add] at hcounts
    rwa [show (none : Option (Job α)).elim 0 Job.captured = (0 : Multiset (Int × Nat)) from rfl,
      zero_add] at hcounts
  | @scheduleOnce job hjob hidle hr =>
    have hsame : s.underway r =
      ({ s with timed := s.timed.fetchAdd r job, timerTask := none } : State ι α n).underway r := by
      unfold State.underway
      rw [hjob, hidle]
      show job.captured + (0 + _) = 0 + ((Function.update s.timed.timer.thread r _ r).captured + _)
      rw [Function.update_self, zero_add, zero_add]
      rfl
    rw [← hsame]
    exact hi.counts
  | @timed timed hs hapart =>
    have htimer := TimerScheduler.reachable_inv (TimedPool.reachable_timer hi.timed)
      (Nat.lt_of_le_of_lt (TimedPool.step_calls hs) hc)
    have hsame := hapart.captured hs hi.spared htimer (TimedPool.reachable_inv hi.timed)
    unfold State.underway
    rw [hsame]
    exact hi.counts
  | @runTask w k fd h hw hp =>
    have hcounts := hi.counts
    rw [underway_ran hw (s.loop.setHandler fd h.runTask)] at hcounts
    exact (Counts.ran _ hcounts hp (by cases h <;> rfl)).2
  | @runStale w k fd life hw hl =>
    have hcounts := hi.counts
    rw [underway_ran hw { s.loop with orphans := s.loop.orphans - 1, stale := s.loop.stale + 1 }] at hcounts
    exact (Counts.stale hcounts hl _).2

theorem timed_step (h : Step r s s') : s'.timed = s.timed ∨ TimedPool.Step s.timed s'.timed := by
  cases h with
  | loop | extract => exact .inl rfl
  | @scheduleOnce job hjob hidle hr => exact .inr (TimedPool.fetchAdd_step hidle hr job)
  | timed hs => exact .inr hs
  | runTask w hw | runStale w hw => exact .inr (.pool (.run w hw))

theorem step_spared (h : Step r s s') (hi : TimedPool.Spared r s.timed)
    (hs : (s.timed.timer.thread r).schedules = true) :
    TimedPool.Spared r s'.timed ∧ (s'.timed.timer.thread r).schedules = true := by
  cases h with
  | loop | extract => exact ⟨hi, hs⟩
  | @scheduleOnce job =>
    refine ⟨hi.fetchAdd job, ?_⟩
    show (Function.update s.timed.timer.thread r _ r).schedules = true
    rw [Function.update_self]
    rfl
  | timed hstep hapart => exact ⟨hapart.spared hstep hi, hapart.schedules hstep hs⟩
  | runTask | runStale => exact ⟨⟨hi.others, hi.canceled⟩, hs⟩

theorem step_inv (hi : Inv params r s) (h : Step r s s') (hc : s'.timed.timer.calls < 2 ^ 64) :
    Inv params r s' := by
  obtain ⟨hspared, hschedules⟩ := step_spared h hi.spared hi.schedules
  have htimed : Reachable TimedPool.Start TimedPool.Step s'.timed := by
    rcases timed_step h with he | hs
    · rw [he]
      exact hi.timed
    · exact hi.timed.next hs
  rcases loop_step hi h with he | hs
  · exact ⟨he ▸ hi.loop, htimed, he ▸ hi.armed, hspared, hschedules, step_counts hi h hc⟩
  · exact ⟨hi.loop.next hs, htimed, EventLoop.step_armed hi.armed hs, hspared, hschedules,
      step_counts hi h hc⟩

theorem step_calls (h : Step r s s') : s.timed.timer.calls ≤ s'.timed.timer.calls := by
  rcases timed_step h with he | hs
  · rw [he]
  · exact TimedPool.step_calls hs

theorem reachable_inv (h : Reachable (Start params) (Step r) s) (hc : s.timed.timer.calls < 2 ^ 64) :
    Inv params r s := by
  refine Reachable.inv (I := fun s : State ι α n => s.timed.timer.calls < 2 ^ 64 → Inv params r s)
    (fun s hs _ => start_inv hs) ?_ h hc
  intro s s' _ hi hs hc
  exact step_inv (hi (Nat.lt_of_le_of_lt (step_calls hs) hc)) hs hc

end

/-- A step in which no registration of a connection fails. -/
def Sound [DecidableEq ι] (r : ι) (s s' : State ι α n) : Prop :=
  Step r s s' ∧ ¬ EventLoop.Leaks s.loop s'.loop

theorem reachable_step [DecidableEq ι] {params : ConnParams} {r : ι} {s : State ι α n}
    (h : Reachable (Start params) (Sound r) s) :
    Reachable (Start params) (Step r) s :=
  h.inv (I := fun s : State ι α n => Reachable (Start params) (Step r) s)
    (fun _ hs => .start hs) fun _ _ _ hr hs =>
    hr.next hs.1

section
open EventLoop

/-! ## A connection whose read loop has found packets -/

/-- The handler of the connection accepted. -/
def connection : TcpHandler.System :=
  { handler := TcpHandler.setCallback { fd := 5, unpacker := unpackerOf framing } (some id) }

open UnPacker in
theorem connection_gets : [1, 7, 2].length ≤ connection.handler.unpacker.getLinearWriteSpace.2 ∧
    ∃ u', (TcpHandler.filled connection.handler.unpacker [1, 7, 2]).Gets [[1, 7, 2]] u' := by
  have hb : (unpackerOf framing).Bytes :=
    ⟨.inr rfl, create_inv [1] [2] none none kilobyte_le_maxSize (by decide), rfl, rfl⟩
  have hcap : (unpackerOf framing).toRingBuffer.capacity = 1024 :=
    RingBuffer.ofSize_capacity kilobyte_le_maxSize
  have hwindow : [1, 7, 2].length ≤ (unpackerOf framing).getLinearWriteSpace.2 := by
    rw [RingBuffer.getLinearWriteSpace_eq hb.inv, hcap]
    exact Nat.le_min.2 ⟨(by decide : 3 ≤ 1024 - 0), (by decide : 3 ≤ 1024 - 0)⟩
  have hroom : (unpackerOf framing).length + [1, 7, 2].length ≤ (unpackerOf framing).capacity := by
    rw [hcap]
    exact (by decide : 0 + 3 ≤ 1024)
  have hne : ([1, 7, 2] : List UInt8) ≠ [] := by decide
  obtain ⟨hone, hpacks, -⟩ := call_with_frame (h := 1) (t := 2) (p := [7]) (r := []) (by decide) (by decide)
  obtain ⟨n, v, -, hpush, -, -⟩ := hb.push hne hroom hone
  refine ⟨hwindow, v, ?_⟩
  have hcall :
      ((unpackerOf framing).writeRing [1, 7, 2]).Packs (packetsOf [1] [2] 1 (framed 1 2 [7] ++ []), v) :=
    pushes_iff.1 hpush
  rw [hpacks] at hcall
  show (TcpHandler.filled (unpackerOf framing) [1, 7, 2]).Gets _ _
  rw [filled_eq_writeRing hb.inv hne hwindow]
  exact gets_iff.2 hcall

/-- As long as there are no tasks, none comes or goes. -/
theorem keeps_of_none {loop loop' : EventLoop.State} (h : ∀ fd, loop.tasksAt fd = 0)
    (h' : ∀ fd, loop'.tasksAt fd = 0) (ho : loop.orphans ≤ loop'.orphans) : Keeps loop loop' :=
  ⟨fun fd _ => by rw [h, h'], ho⟩

theorem tasksAt_update (loop : EventLoop.State) (x : Int) (entry : Option ProtocolHandler)
    (hp : loop'.protocolHandlers = Function.update loop.protocolHandlers x (some entry))
    (h : ∀ fd, loop.tasksAt fd = 0) (h0 : entry.elim 0 ProtocolHandler.tasks = 0) (fd : Int) :
    loop'.tasksAt fd = 0 := by
  by_cases hf : fd = x
  · subst hf
    unfold State.tasksAt
    rw [hp, Function.update_self]
    exact h0
  · rw [← h fd]
    exact tasksAt_congr (by rw [hp, Function.update_of_ne hf])

theorem connection_extracts : ∃ (s : State Unit Nat 1) (sys : TcpHandler.System),
    Reachable (Start framing) (Sound ()) s ∧
    s.timed = { timer := { now := 0 } } ∧ s.timerTask = some (.packs 5 (s.lives 5)) ∧ s.loop.accepted = {5} ∧
    s.loop.protocolHandlers 5 = some (some (.tcp sys)) ∧ sys.tasks = 1 ∧ sys.extracted = [(1, [1, 7, 2])] ∧
    ∀ fd, fd ≠ 5 → (s.loop.protocolHandlers fd).bind id = none := by
  obtain ⟨hw, u', hg⟩ := connection_gets
  have step {s : State Unit Nat 1} (loop : EventLoop.State) (hr : Reachable (Start framing) (Sound ()) s)
      (hf : s.Free ()) (hs : EventLoop.Step s.loop loop) (hk : Keeps s.loop loop) (hl : ¬ Leaks s.loop loop) :
      Reachable (Start framing) (Sound ()) (s.goOn loop) := hr.next ⟨.loop hf hs hk, hl⟩
  have hlistening : ∀ fd, (listening framing).tasksAt fd = 0 :=
    tasksAt_update { params := framing } 3 none rfl (fun _ => rfl) rfl
  have hconnected : ∀ fd, (connected framing {}).tasksAt fd = 0 :=
    tasksAt_update (listening framing) 5 (some (.tcp connection)) rfl hlistening rfl
  have h₀ : Reachable (Start framing) (Sound ())
    ({ loop := { params := framing }, timed := { timer := { now := 0 } } } : State Unit Nat 1) :=
    .start ⟨_, _, rfl, ⟨⟨0, rfl⟩, rfl⟩, rfl⟩
  have h₁ := step _ h₀ ⟨rfl, rfl⟩ (.socket 3 (Finset.notMem_empty 3) (Finset.notMem_empty 3))
    (keeps_of_none (fun _ => rfl) (fun _ => rfl) (Nat.le_refl 0)) (not_leaks_of_accepted rfl)
  have h₂ := step (listening framing) h₁ ⟨rfl, rfl⟩ (.registerProtocol 3 none true {} fun h hh => by cases hh)
    (keeps_of_none (fun _ => rfl) hlistening (Nat.le_refl 0)) (not_leaks_of_accepted rfl)
  have hleak : ¬ Leaks (listening framing) (connected framing {}) := by
    intro hl
    obtain ⟨connFd, -, -, -, -, hep⟩ := hl.left
    revert hep
    decide
  have h₃ := step (connected framing {}) h₂ ⟨rfl, rfl⟩
    (.newConnection 3 5 {} rfl (Finset.mem_singleton_self 3)
      (Finset.notMem_empty 5) fun h => by cases Finset.mem_singleton.1 h)
    (keeps_of_none hlistening hconnected (Nat.le_refl 0)) hleak
  have h₄ := step _ h₃ ⟨rfl, rfl⟩
    (@EventLoop.Step.handleEvent _ 5 (.tcp connection) EventFlags.kReadable rfl (by decide) rfl)
    (keeps_of_none hconnected (tasksAt_update _ 5 _ rfl hconnected rfl) (Nat.le_refl 0))
      (not_leaks_of_accepted rfl)
  have h₅ := h₄.next ⟨.extract 5 ⟨rfl, rfl⟩
    (@EventLoop.Step.pass _ 5 (.tcp { connection with reading := true }) _ rfl rfl rfl
    (.tcp (.read rfl (by decide) hw hg)) (Nat.le_succ 0)) rfl, not_leaks_of_accepted rfl⟩
  refine ⟨_, _, h₅, rfl, rfl, rfl, rfl, rfl, rfl, fun fd hfd => ?_⟩
  have hother (table : Int → Option (Option ProtocolHandler)) (x y z : Option (Option ProtocolHandler)) :
      Function.update (Function.update (Function.update table 5 x) 5 y) 5 z fd = table fd := by
    rw [Function.update_of_ne hfd, Function.update_of_ne hfd, Function.update_of_ne hfd]
  refine (congrArg (Option.bind · id) (hother (listening framing).protocolHandlers _ _ _)).trans ?_
  by_cases h3 : fd = 3 <;> simp [listening, h3]

end

/-! ## What is on its way -/

end NebulaToolkit.Dispatch
