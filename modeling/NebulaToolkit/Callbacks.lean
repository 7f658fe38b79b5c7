import NebulaToolkit.Dispatch
/-!
# Every callback comes

The reactor on its scheduler, once no more events come and nobody begins a
call: what the threads still do is bounded, and ends with no lambda left on its
way. What a connection has extracted has then been passed to its callback
(`callbacks_come`).
-/

namespace NebulaToolkit.Dispatch

open Lib
open EventLoop (framing)

variable {ι α : Type} {n : Nat}

/-- What the threads do, no event coming and no call beginning but that of a read loop that has its task. -/
inductive Inner [DecidableEq ι] (r : ι) : State ι α n → State ι α n → Prop
  | scheduleOnce {s : State ι α n} {job : Job α} : s.timerTask = some job → s.timed.timer.thread r = .idle →
      Inner r s { s with timed := s.timed.fetchAdd r job, timerTask := none }
  | timed {s : State ι α n} {timed : TimedPool.State ι (Job α) n} : TimedPool.Inner s.timed timed →
      (∀ w, (s.timed.pool.pool.worker w).captured ≠ 0 →
        timed.pool.pool.worker w = s.timed.pool.pool.worker w) → Inner r s { s with timed := timed }
  | runTask {s : State ι α n} (w : Fin n) {k : Nat} {fd : Int} {h : ProtocolHandler} :
      s.timed.pool.pool.worker w = .executing k (.packs fd (s.lives fd)) →
      s.loop.protocolHandlers fd = some (some h) →
      Inner r s { s with loop := s.loop.setHandler fd h.runTask, timed := s.ran w k }
  | runStale {s : State ι α n} (w : Fin n) {k : Nat} {fd : Int} {life : Nat} :
      s.timed.pool.pool.worker w = .executing k (.packs fd life) → life ≠ s.lives fd →
      Inner r s { s with
        loop := { s.loop with orphans := s.loop.orphans - 1, stale := s.loop.stale + 1 }
        timed := s.ran w k }

/-- The clock reads `now`. -/
def State.at (s : State ι α n) (now : Int) : State ι α n := { s with timed := s.timed.at now }

/-- Time passes, then a thread does something. -/
def Later [DecidableEq ι] (r : ι) (s s' : State ι α n) : Prop :=
  ∃ now, s.timed.timer.now ≤ now ∧ Inner r (s.at now) s'

/-- The calls of `ScheduleOnce` a read loop is about to make. -/
def State.toCall (s : State ι α n) : Nat := s.timerTask.elim 0 fun _ => 1

def State.toDo [Fintype ι] (s : State ι α n) : Nat := s.timed.toDo + 31 * s.toCall

/-- The scheduler was started, and no call of `Stop` has begun. -/
structure Live [DecidableEq ι] (params : ConnParams) (r : ι) (s : State ι α n) : Prop where
  reach : Reachable (Start params) (Sound r) s
  running : s.timed.timer.running = true
  noStop : ∀ i, (s.timed.timer.thread i).inStop = false
  calls : s.timed.timer.calls + s.toCall < 2 ^ 64

section
variable [DecidableEq ι] {params : ConnParams} {r : ι} {s s' : State ι α n}

theorem Live.inv (h : Live params r s) : Inv params r s :=
  reachable_inv (reachable_step h.reach) (Nat.lt_of_le_of_lt (Nat.le_add_right _ _) h.calls)

theorem Live.timed (h : Live params r s) : TimedPool.Live s.timed :=
  ⟨h.inv.timed, h.running, h.noStop, Nat.lt_of_le_of_lt (Nat.le_add_right _ _) h.calls⟩

/-! ## What a step takes off -/

/-- No call begins by itself. -/
theorem onward_idle {t t' : TimerScheduler.State ι (Job α)} {oneOwed : Nat}
    (h : TimerScheduler.Onward oneOwed t t') (hr : t.thread r = .idle) : t'.thread r = .idle := by
  have update {i : ι} {p : TimerScheduler.Thread (Job α)} (hne : t.thread i ≠ .idle) :
      Function.update t.thread i p r = .idle := by
    have hri : r ≠ i := by
      rintro rfl
      exact hne hr
    rw [Function.update_of_ne hri, hr]
  cases h with
  | readClock ht | push ht | notifyOne ht => exact update (by rw [ht]; nofun)
  | _ => exact hr

/-- What goes on by itself schedules no lambda and cancels nothing. -/
theorem onward_captured {t t' : TimerScheduler.State ι (Job α)} {oneOwed : Nat}
    (h : TimerScheduler.Onward oneOwed t t') :
    (∀ i, (t.thread i).captured = 0 → (t'.thread i).captured = 0) ∧ t'.cancels = t.cancels := by
  have update {i : ι} {p : TimerScheduler.Thread (Job α)} (hp : (t.thread i).captured = 0 →
      p.captured = 0) (j : ι)
      (hj : (t.thread j).captured = 0) : (Function.update t.thread i p j).captured = 0 := by
    by_cases hi : j = i
    · subst hi
      rw [Function.update_self]
      exact hp hj
    · rw [Function.update_of_ne hi]
      exact hj
  cases h with
  | readClock ht => exact ⟨update fun h0 => by rw [ht] at h0; exact h0, rfl⟩
  | push ht | notifyOne ht => exact ⟨update fun _ => rfl, rfl⟩
  | _ => exact ⟨fun _ => id, rfl⟩

theorem inner_apart {t t' : TimedPool.State ι (Job α) n} (h : TimedPool.Inner t t')
    (hi : TimedPool.Spared r t)
    (hheld : ∀ w, (t.pool.pool.worker w).captured ≠ 0 → t'.pool.pool.worker w = t.pool.pool.worker w) :
    TimedPool.Apart r t t' := by
  cases h with
  | timer h =>
    obtain ⟨hnone, hcancels⟩ := onward_captured h
    exact ⟨onward_idle h, fun i hne => hnone i (hi.others i hne), fun id hid => .inl (hcancels ▸ hid), hheld⟩
  | postTask | pool => exact ⟨id, hi.others, fun id hid => .inl hid, hheld⟩

theorem inner_sound (hl : Live params r s) (h : Inner r s s') : Sound r s s' := by
  cases h with
  | scheduleOnce hjob hidle =>
    exact ⟨.scheduleOnce hjob hidle hl.timed.pool, EventLoop.not_leaks_of_accepted rfl⟩
  | timed h hheld => exact ⟨.timed (h.step hl.timed) (inner_apart h hl.inv.spared hheld),
      EventLoop.not_leaks_of_accepted rfl⟩
  | runTask w hw hp => exact ⟨.runTask w hw hp, EventLoop.not_leaks_of_accepted rfl⟩
  | runStale w hw hne => exact ⟨.runStale w hw hne, EventLoop.not_leaks_of_accepted rfl⟩

theorem inner_live (hl : Live params r s) (h : Inner r s s') : Live params r s' := by
  have hreach := hl.reach.next (inner_sound hl h)
  cases h with
  | @scheduleOnce job hjob hidle =>
    refine ⟨hreach, hl.running, fun i => ?_, ?_⟩
    · show (Function.update s.timed.timer.thread r _ i).inStop = false
      by_cases hi : i = r
      · subst hi
        rw [Function.update_self]
        rfl
      · rw [Function.update_of_ne hi, hl.noStop i]
    · have hcalls := hl.calls
      unfold State.toCall at hcalls
      rw [hjob] at hcalls
      exact hcalls
  | timed h hheld =>
    have hlive := TimedPool.inner_live hl.timed h
    refine ⟨hreach, hlive.running, hlive.noStop, ?_⟩
    cases h with
    | timer h => exact h.kept.2.2.1 ▸ hl.calls
    | postTask | pool => exact hl.calls
  | runTask | runStale => exact ⟨hreach, hl.running, hl.noStop, hl.calls⟩

theorem Live.at (h : Live params r s) {now : Int} (hn : s.timed.timer.now ≤ now) :
    Live params r (s.at now) := by
  have hclock : TimedPool.Step s.timed (s.timed.at now) :=
    .timer h.timed.pool (.clock now hn) rfl fun he hne => absurd he hne
  refine ⟨h.reach.next
    ⟨.timed hclock ⟨id, h.inv.spared.others, fun id hid => .inl hid, fun _ _ => rfl⟩, ?_⟩,
    h.running, h.noStop, h.calls⟩
  exact EventLoop.not_leaks_of_accepted rfl

variable [Fintype ι]

theorem fetchAdd_toDo {t : TimedPool.State ι (Job α) n} (hidle : t.timer.thread r = .idle) (job : Job α) :
    (t.fetchAdd r job).toDo = t.toDo + 30 := by
  have hsum := TimerScheduler.sum_update (s := t.timer) r (.drawn t.timer.nextId 0 job)
  rw [hidle] at hsum
  change _ + 0 = _ + 30 at hsum
  show (∑ i, (Function.update t.timer.thread r _ i).weight + 20 * t.timer.timerTasks.card +
    t.timer.scheduler.weight (decide t.timer.IsDue)) + t.pool.toDo = (_ + _ + _) + _ + 30
  omega

theorem inner_toDo (hl : Live params r s) (h : Inner r s s') : s'.toDo < s.toDo := by
  unfold State.toDo
  cases h with
  | @scheduleOnce job hjob hidle =>
    have hmore := fetchAdd_toDo hidle job
    unfold State.toCall
    rw [hjob]
    simp only [Option.elim_none, Option.elim_some]
    omega
  | timed h hheld => exact Nat.add_lt_add_right (TimedPool.inner_toDo hl.timed h) _
  | runTask w hw | runStale w hw =>
    exact Nat.add_lt_add_right (TimedPool.inner_toDo hl.timed (.pool (.run w hw))) _

theorem later_step (hl : Live params r s) (h : Later r s s') : Live params r s' ∧ s'.toDo < s.toDo := by
  obtain ⟨now, hn, h⟩ := h
  refine ⟨inner_live (hl.at hn) h, Nat.lt_of_lt_of_le (inner_toDo (hl.at hn) h) ?_⟩
  exact Nat.add_le_add_right (Nat.add_le_add_right (TimerScheduler.toDo_clock hn) _) _

end

/-! ## Where it ends -/

/-- Where scheduler and pool can do nothing ever, they have no lambda left. -/
theorem stuck_captured [DecidableEq ι] {t : TimedPool.State ι (Job α) n} (hl : TimedPool.Live t)
    (hstuck : ∀ t', ¬ TimedPool.Later t t') (hn : 0 < n) : t.captured = 0 := by
  have hinner (t' : TimedPool.State ι (Job α) n) : ¬ TimedPool.Inner t t' :=
    fun h => hstuck t' ⟨t.timer.now, Int.le_refl _, h⟩
  have hrest := TimedPool.stuck_pool hl hinner hn
  have hqueue := TimedPool.stuck_forever hl hinner hn hstuck
  have hloop : t.timer.scheduler.task = [] := by
    rcases TimedPool.stuck_scheduler hl hinner hrest with hs | ⟨d, hs, -⟩ <;> rw [hs] <;> rfl
  have hworkers (w : Fin n) : (t.pool.pool.worker w).captured = 0 := by
    cases hw : t.pool.pool.worker w with
    | waiting | checked | exited => rfl
    | executing k job => exact absurd (.pool (.run w hw)) (hinner _)
  unfold TimedPool.State.captured TimerScheduler.State.captured ThreadPool.State.captured
  rw [hqueue, hloop, hrest.empty, Finset.sum_eq_zero fun w _ => hworkers w]
  rfl

section
variable [DecidableEq ι] {params : ConnParams} {r : ι} {s : State ι α n} (hl : Live params r s)
    (hstuck : ∀ s', ¬ Later r s s')
include hl hstuck

omit hl in
theorem stuck_inner (s' : State ι α n) : ¬ Inner r s s' :=
  fun h => hstuck s' ⟨s.timed.timer.now, Int.le_refl _, h⟩

/-- No worker holds a lambda: he could run it. -/
theorem stuck_workers (w : Fin n) : (s.timed.pool.pool.worker w).captured = 0 := by
  cases hw : s.timed.pool.pool.worker w with
  | waiting | checked | exited => rfl
  | executing k job =>
    cases job with
    | other a => rfl
    | packs fd life =>
      by_cases hlife : life = s.lives fd
      · subst hlife
        have hcounts := hl.inv.counts
        rw [underway_ran hw s.loop] at hcounts
        obtain ⟨h, hp⟩ := Counts.handler hcounts
        exact absurd (.runTask w hw hp) (stuck_inner hstuck _)
      · exact absurd (.runStale w hw hlife) (stuck_inner hstuck _)

theorem stuck_timed (t : TimedPool.State ι (Job α) n) : ¬ TimedPool.Later s.timed t := by
  rintro ⟨now, hn, h⟩
  exact hstuck _ ⟨now, hn, .timed h fun w hw => absurd (stuck_workers hl hstuck w) hw⟩

theorem stuck_underway (hn : 0 < n) : s.underway r = 0 := by
  have hlater := stuck_timed hl hstuck
  have hthread : s.timed.timer.thread r = .idle := by
    have hinner (t : TimedPool.State ι (Job α) n) : ¬ TimedPool.Inner s.timed t :=
      fun h => hlater t ⟨s.timed.timer.now, Int.le_refl _, h⟩
    have hcall := TimedPool.stuck_threads hinner r
    have hschedules := hl.inv.schedules
    revert hcall hschedules
    cases s.timed.timer.thread r <;> simp [TimerScheduler.Thread.weight, TimerScheduler.Thread.schedules]
  have htask : s.timerTask = none := by
    cases ht : s.timerTask with
    | none => rfl
    | some job => exact absurd (.scheduleOnce ht hthread) (stuck_inner hstuck _)
  unfold State.underway
  rw [htask, hthread, stuck_captured hl.timed hlater hn]
  rfl

end

/-- Where the runs that are sound lead the reactor. -/
theorem Live.served [DecidableEq ι] {params : ConnParams} {r : ι} {s : State ι α n} (h : Live params r s) :
    EventLoop.Served params s.loop := by
  have hi : s.timed.timer.calls < 2 ^ 64 →
      Inv params r s ∧ (EventLoop.Keyed s.loop ∧ s.loop.Booked) ∧ EventLoop.Served params s.loop := by
    refine Reachable.inv (I := fun s : State ι α n => s.timed.timer.calls < 2 ^ 64 →
      Inv params r s ∧ (EventLoop.Keyed s.loop ∧ s.loop.Booked) ∧ EventLoop.Served params s.loop)
        (fun s hs _ => ?_) ?_ h.reach
    · refine ⟨start_inv hs, EventLoop.start_served ?_⟩
      obtain ⟨loop, timed, hloop, -, rfl⟩ := hs
      exact hloop
    · intro s s' _ hi hs hc
      obtain ⟨hinv, hserved⟩ := hi (Nat.lt_of_le_of_lt (step_calls hs.1) hc)
      refine ⟨step_inv hinv hs.1 hc, ?_⟩
      rcases loop_step hinv hs.1 with he | hloop
      · rw [he]
        exact hserved
      · exact EventLoop.served_step hserved hloop hs.2
  exact (hi h.timed.calls).2.2

/-- A reactor whose scheduler was started and has workers, in any state any interleaving
reaches: if no more events come and no calls begin, the threads do at most `toDo` steps,
however they interleave and however far the clock moves; where they can do nothing ever no
lambda is on its way, and what a connection has extracted was passed to its callback,
unless a `Get` came while a task was still to run. -/
theorem callbacks_come [DecidableEq ι] [Fintype ι] (params : ConnParams) (r : ι) (s : State ι α n)
    (hl : Live params r s) (hn : 0 < n) :
    Settles (Later r) s s.toDo fun s' => s'.underway r = 0 ∧ s'.loop.orphans = 0 ∧
    (∀ fd, s'.loop.tasksAt fd = 0) ∧
      ∀ fd ∈ s'.loop.accepted, ∃ sys, s'.loop.protocolHandlers fd = some (some (.tcp sys)) ∧ sys.tasks = 0 ∧
        (params.execCb.isSome → sys.overlaps = 0 → sys.delivered = sys.extracted) := by
  refine settles_of_measure (I := Live params r) (fun _ _ hl h => later_step hl h) hl fun s' hl' hstuck => ?_
  have hnone := stuck_underway hl' hstuck hn
  have hcounts := hl'.inv.counts
  rw [hnone] at hcounts
  refine ⟨hnone, hcounts.lost, hcounts.held, fun fd hfd => ?_⟩
  obtain ⟨sys, params', hp, -, hr⟩ := hl'.served.alone fd hfd
  have htasks : sys.tasks = 0 := by
    have := hcounts.held fd
    rwa [EventLoop.tasksAt_some hp] at this
  refine ⟨sys, hp, htasks, fun hcb hover => ?_⟩
  obtain ⟨cb, hcb⟩ := Option.isSome_iff_exists.1 hcb
  rw [hcb] at hr
  have hi : TcpHandler.Inv cb sys :=
    hr.inv (fun _ hs => TcpHandler.start_inv hs) fun _ _ _ hi hs => TcpHandler.step_inv hi hs
  have heq := (hi.fine hover).extracted_eq
  rw [if_pos htasks, List.append_nil] at heq
  exact heq.symm

/-- The theorem for the connection with one lambda to schedule: its packet comes. -/
theorem callbacks_come_one : ∃ (s s' : State Unit Nat 1) (sys : TcpHandler.System), Live framing () s ∧
    s.loop.accepted = {5} ∧
    s.loop.protocolHandlers 5 = some (some (.tcp sys)) ∧ sys.extracted = [(1, [1, 7, 2])] ∧
    Relation.ReflTransGen (Later ()) s s' ∧ s'.underway () = 0 ∧ s'.loop.tasksAt 5 = 0 := by
  obtain ⟨s, sys, hr, htimed, htask, hacc, hp, -, hext, -⟩ := connection_extracts
  have hstart : TimedPool.Step s.timed
    { s.timed with timer := { s.timed.timer with running := true, scheduler := .head } } := by
    rw [htimed]
    exact .timer rfl (.start rfl (.inl rfl)) rfl nofun
  have hapart : TimedPool.Apart () s.timed
    { s.timed with timer := { s.timed.timer with running := true, scheduler := .head } } :=
    .sole id rfl fun _ _ => rfl
  have hl : Live framing ()
    { s with timed :=
      { s.timed with timer := { s.timed.timer with running := true, scheduler := .head } } } := by
    refine ⟨hr.next ⟨.timed hstart hapart, EventLoop.not_leaks_of_accepted rfl⟩, rfl, fun i => ?_, ?_⟩
    · show (s.timed.timer.thread i).inStop = false
      rw [htimed]
      rfl
    · show s.timed.timer.calls + s.timerTask.elim 0 (fun _ => 1) < 2 ^ 64
      rw [htimed, htask]
      exact (by decide : 0 + 1 < 2 ^ 64)
  obtain ⟨s', hr', hq⟩ := (callbacks_come framing () _ hl Nat.one_pos).reaches
  exact ⟨_, s', sys, hl, hacc, hp, hext, hr', hq.1, hq.2.2.1 5⟩

end NebulaToolkit.Dispatch
