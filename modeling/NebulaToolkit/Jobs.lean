import NebulaToolkit.Connections
import NebulaToolkit.HandlerTasks
import NebulaToolkit.TimedProgress
/-!
# Lambdas on their way

What a read loop schedules is a lambda that captured `this`. Where the lambdas
are, in the scheduler and in its pool, and that none of them comes or goes by
what scheduler and pool do for others; and what the reactor does to the tasks
that `EventLoop` counts.
-/

namespace NebulaToolkit

open Lib

/-- What is scheduled. -/
inductive Job (α : Type) where
  /-- The lambda of a read loop, `cb_(packs_)`. It captured the handler that `fd` had when
  `life` handlers of `fd` had been destroyed. -/
  | packs (fd : Int) (life : Nat)
  /-- What somebody else scheduled. -/
  | other (a : α)

variable {ι α : Type} {n : Nat}

/-- The handler a lambda captured. -/
def Job.captured : Job α → Multiset (Int × Nat)
  | .packs fd life => {(fd, life)}
  | .other _ => 0

def TimerTask.captured (t : TimerTask (Job α)) : Multiset (Int × Nat) := t.callback.captured

/-! ## What the scheduler and the pool hold -/

namespace TimerScheduler

/-- What a call of `ScheduleOnce` has not pushed yet. -/
def Thread.captured : Thread (Job α) → Multiset (Int × Nat)
  | .drawn _ _ job => job.captured
  | .timed t => t.captured
  | _ => 0

/-- Idle, or in `ScheduleOnce`. -/
def Thread.schedules : Thread (Job α) → Bool
  | .stopping | .notifyAll | .joining => false
  | _ => true

/-- In the queue, or between the pop and `PostTask`. -/
def State.captured (s : State ι (Job α)) : Multiset (Int × Nat) :=
  s.timerTasks.bind TimerTask.captured +
    (s.scheduler.task : Multiset (TimerTask (Job α))).bind TimerTask.captured

variable [DecidableEq ι] {s s' : State ι (Job α)} {r : ι}

theorem update_captured {i : ι} {p : Thread (Job α)} (h : p.captured = (s.thread i).captured) :
    (Function.update s.thread i p r).captured = (s.thread r).captured := by
  by_cases hi : r = i
  · subst hi
    rw [Function.update_self, h]
  · rw [Function.update_of_ne hi]

/-- No lambda comes or goes unless a thread begins a call or a lambda is discarded. -/
theorem step_captured (h : Step s s') (hposted : s'.posted = s.posted)
    (hidle : s.thread r = .idle → (s'.thread r).captured = 0)
    (hothers : ∀ i, i ≠ r → (s.thread i).captured = 0)
    (hcanceled : ∀ t ∈ s.timerTasks, t.taskId ∈ s.canceledIds → t.captured = 0) :
    (s'.thread r).captured + s'.captured = (s.thread r).captured + s.captured := by
  have same (hthread : (s'.thread r).captured = (s.thread r).captured) (htasks : s'.timerTasks = s.timerTasks)
      (hloop : s'.scheduler.task = s.scheduler.task) :
        (s'.thread r).captured + s'.captured = (s.thread r).captured + s.captured := by
    unfold State.captured
    rw [hthread, htasks, hloop]
  cases h with
  | fetchAdd i delayMs cbTask ht =>
    refine same ?_ rfl rfl
    by_cases hir : r = i
    · subst hir
      rw [hidle ht, ht]
      rfl
    · exact congrArg _ (Function.update_of_ne hir _ _)
  | readClock ht | stop ht | clearRunning ht | join ht =>
    exact same (update_captured (by rw [ht]; rfl)) rfl rfl
  | notifyOne ht | notifyAll ht => exact same (update_captured (by rw [ht]; rfl)) rfl (Loop.wake_task _)
  | cancel | clock => exact same rfl rfl rfl
  | wakeUp => exact same rfl rfl (Loop.wake_task _)
  | start hr hl =>
    refine same rfl rfl ?_
    rcases hl with hl | hl <;> rw [hl] <;> rfl
  | load hl | waitEmpty hl =>
    refine same rfl rfl ?_
    rw [hl]
    show (if _ then _ else _ : Loop (Job α)).task = _
    split <;> rfl
  | waitEnds hl | waitAgain hl | waitUntil hl => exact same rfl rfl (by rw [hl]; rfl)
  | @push i t ht =>
    show (Function.update s.thread i .notifyOne r).captured +
      ((t ::ₘ s.timerTasks).bind TimerTask.captured + _) = _
    rw [Multiset.cons_bind]
    by_cases hi : r = i
    · subst hi
      rw [Function.update_self, ht]
      show 0 + (t.captured + _ + _) = t.captured + _
      rw [zero_add, add_assoc]
      rfl
    · have h0 := hothers i fun he => hi he.symm
      rw [ht] at h0
      rw [Function.update_of_ne hi, show t.captured = 0 from h0, zero_add]
      rfl
  | @discard t rest hl ht hq hc =>
    show _ + (rest.bind TimerTask.captured + _) = _ + (s.timerTasks.bind TimerTask.captured + _)
    rw [hq, Multiset.cons_bind, hcanceled t ht.1 hc, hl, zero_add]
    rfl
  | @pop t rest hl ht hq hc hn =>
    show _ + (rest.bind TimerTask.captured +
      (([t] : List _) : Multiset (TimerTask (Job α))).bind TimerTask.captured) =
      _ + (s.timerTasks.bind TimerTask.captured + _)
    rw [hq, Multiset.cons_bind, hl, Multiset.coe_singleton, Multiset.singleton_bind]
    show _ = _ + (_ + (0 : Multiset (TimerTask (Job α))).bind TimerTask.captured)
    rw [Multiset.zero_bind, add_zero, add_comm t.captured]
  | postTask hf =>
    have hlen := congrArg List.length hposted
    simp at hlen

/-- A thread that only calls `ScheduleOnce` goes on to do so. -/
theorem step_schedules (h : Step s s') (hidle : s.thread r = .idle → s'.thread r = .idle)
    (hs : (s.thread r).schedules = true) :
    (s'.thread r).schedules = true := by
  have update {i : ι} {p : Thread (Job α)} (hp : r = i → p.schedules = true) :
    (Function.update s.thread i p r).schedules = true := by
    by_cases hi : r = i
    · subst hi
      rw [Function.update_self, hp rfl]
    · rw [Function.update_of_ne hi, hs]
  cases h with
  | fetchAdd | readClock | push | notifyOne | join => exact update fun _ => rfl
  | @stop i ht hr =>
    refine update fun hi => ?_
    subst hi
    have := hidle ht
    simp [State.setThread] at this
  | clearRunning ht | notifyAll ht =>
    refine update fun hi => ?_
    rw [hi, ht] at hs
    cases hs
  | _ => exact hs

end TimerScheduler

namespace ThreadPool

def Worker.captured : Worker (Job α) → Multiset (Int × Nat)
  | .executing _ job => job.captured
  | _ => 0

/-- In the queue, or in the hands of a worker. -/
def State.captured (s : State (Job α) n) : Multiset (Int × Nat) :=
  (s.taskQueue : Multiset (Job α)).bind Job.captured + ∑ w, (s.worker w).captured

variable {s : State (Job α) n} {p p' : CvState (Job α) n}

/-- One worker goes on. -/
theorem workers_captured (w : Fin n) (x : Worker (Job α)) :
    ∑ v, ((s.setWorker w x).worker v).captured + (s.worker w).captured = ∑ v,
    (s.worker v).captured + x.captured := by
  have h := sum_change (f := fun v => (s.worker v).captured)
    (g := fun v => ((s.setWorker w x).worker v).captured)
    (i := w)
    fun v hv => by rw [setWorker_other s x hv]
  rwa [setWorker_self] at h

theorem workers_same {w : Fin n} {x : Worker (Job α)} (h : x.captured = (s.worker w).captured) :
    ∑ v, ((s.setWorker w x).worker v).captured = ∑ v, (s.worker v).captured := by
  have := workers_captured (s := s) w x
  rw [h] at this
  exact add_right_cancel this

/-- A worker is done with its task. -/
theorem ran_captured {w : Fin n} {k : Nat} {job : Job α} (hw : s.worker w = .executing k job)
    (ran : List Nat) :
    State.captured { s.setWorker w .waiting with ran := ran } + job.captured = s.captured := by
  have h := workers_captured (s := s) w .waiting
  rw [hw] at h
  show _ + ∑ v, ((s.setWorker w .waiting).worker v).captured + _ = _
  rw [add_assoc, show job.captured = (Worker.executing k job).captured from rfl, h]
  show _ + (_ + 0) = _
  rw [add_zero]
  rfl

theorem push_captured (job : Job α) : (s.push job).captured = s.captured + job.captured := by
  show ((s.taskQueue ++ [job] : List (Job α)) : Multiset (Job α)).bind Job.captured + _ = _
  rw [← Multiset.coe_add, Multiset.add_bind, Multiset.coe_singleton, Multiset.singleton_bind, add_right_comm]
  rfl

/-- No lambda comes or goes unless a batch is posted or a worker is done with one. -/
theorem inner_captured (h : Inner p p') (hb : ¬ p.InBatch)
    (hheld : ∀ w, (p.pool.worker w).captured ≠ 0 → p'.pool.worker w = p.pool.worker w) :
    p'.pool.captured = p.pool.captured := by
  cases h with
  | notifyOne | notifyNobody | batchNotify | batchUnlock | sleep | notifyAll => rfl
  | batchPush hl => exact absurd ⟨_, _, _, hl⟩ hb
  | wake w hl hw => exact congrArg (_ + ·) (workers_same (by rw [hw]; rfl))
  | exit w hl hw => exact congrArg (_ + ·) (workers_same (by rw [hw]; rfl))
  | @dequeue w t q hl hw hp hq =>
    have h := workers_captured (s := p.pool) w (.executing p.pool.taken.length t)
    rw [hw] at h
    show (q : Multiset (Job α)).bind Job.captured + ∑ v, ((p.pool.setWorker w _).worker v).captured = _ + _
    rw [hq, ← Multiset.cons_coe, Multiset.cons_bind,
      ← add_zero (∑ v, ((p.pool.setWorker w _).worker v).captured)]
    rw [show (0 : Multiset (Int × Nat)) = (Worker.checked : Worker (Job α)).captured from rfl, h]
    show _ + (_ + t.captured) = _
    rw [← add_assoc, add_comm (t.captured), add_right_comm]
  | @run w k job hw =>
    have h := ran_captured hw (p.pool.ran ++ [k])
    by_cases h0 : job.captured = 0
    · rwa [h0, add_zero] at h
    · have := hheld w (by rw [hw]; exact h0)
      rw [hw] at this
      simp at this

end ThreadPool

namespace TimedPool

def State.captured (s : State ι (Job α) n) : Multiset (Int × Nat) := s.timer.captured + s.pool.pool.captured

/-- What scheduler and pool do by themselves, and what others ask of them: the thread `r`
begins no call, nobody else schedules lambdas or cancels other tasks than his own, and no lambda is run. -/
structure Apart (r : ι) (s s' : State ι (Job α) n) : Prop where
  idle : s.timer.thread r = .idle → s'.timer.thread r = .idle
  others : ∀ i, i ≠ r → (s'.timer.thread i).captured = 0
  cancels : ∀ id ∈ s'.timer.cancels, id ∈ s.timer.cancels ∨ ∃ t ∈ s.timer.pushed, t.taskId = id ∧
    t.captured = 0
  held : ∀ w, (s.pool.pool.worker w).captured ≠ 0 → s'.pool.pool.worker w = s.pool.pool.worker w

/-- There is no other thread than `r`. -/
theorem Apart.sole {s s' : State Unit (Job α) n}
    (hidle : s.timer.thread () = .idle → s'.timer.thread () = .idle)
    (hcancels : s'.timer.cancels = s.timer.cancels)
    (hheld : ∀ w, (s.pool.pool.worker w).captured ≠ 0 → s'.pool.pool.worker w = s.pool.pool.worker w) :
    Apart () s s' :=
  ⟨hidle, fun _ hi => absurd rfl hi, fun _ hid => .inl (hcancels ▸ hid), hheld⟩

/-- Nobody but `r` schedules lambdas, and nobody cancels them. -/
structure Spared (r : ι) (s : State ι (Job α) n) : Prop where
  others : ∀ i, i ≠ r → (s.timer.thread i).captured = 0
  canceled : ∀ id ∈ s.timer.cancels, ∃ t ∈ s.timer.pushed, t.taskId = id ∧ t.captured = 0

/-- `ScheduleOnce(0, job)` by the thread `r`, up to its id. -/
def State.fetchAdd [DecidableEq ι] (s : State ι (Job α) n) (r : ι) (job : Job α) : State ι (Job α) n :=
  { s with
    timer := { s.timer.setThread r (.drawn s.timer.nextId 0 job) with
      nextId := s.timer.nextId + 1, calls := s.timer.calls + 1 } }

variable [DecidableEq ι] {s s' : State ι (Job α) n} {r : ι}

theorem fetchAdd_step (hidle : s.timer.thread r = .idle) (hr : s.pool.pool.running = true) (job : Job α) :
    Step s (s.fetchAdd r job) :=
  .timer hr (.fetchAdd r 0 job hidle) rfl fun he hne => absurd he hne

theorem step_calls (h : Step s s') : s.timer.calls ≤ s'.timer.calls := by
  rcases h.timer_step with he | hs
  · rw [he]
  · exact hs.calls_le

theorem step_pushed (h : Step s s') {t : TimerTask (Job α)} (ht : t ∈ s.timer.pushed) :
    t ∈ s'.timer.pushed := by
  rcases h.timer_step with he | hs
  · rwa [he]
  · cases hs.moves with
    | keeps _ _ _ hp | discard _ _ _ _ hp | pop _ _ _ _ _ _ hp | post _ _ _ _ _ hp => rwa [hp]
    | push u _ _ _ hp =>
      rw [hp]
      exact Multiset.mem_cons_of_mem ht

theorem canceled_kept (h : Step s s')
    (hcancels : ∀ id ∈ s'.timer.cancels, id ∈ s.timer.cancels ∨ ∃ t ∈ s.timer.pushed,
      t.taskId = id ∧ t.captured = 0)
    (hi : ∀ id ∈ s.timer.cancels, ∃ t ∈ s.timer.pushed, t.taskId = id ∧ t.captured = 0) :
    ∀ id ∈ s'.timer.cancels, ∃ t ∈ s'.timer.pushed, t.taskId = id ∧ t.captured = 0 := by
  intro id hid
  obtain ⟨t, ht, hrest⟩ := (hcancels id hid).elim (hi id) fun h => h
  exact ⟨t, step_pushed h ht, hrest⟩

theorem Apart.spared (ha : Apart r s s') (h : Step s s') (hi : Spared r s) : Spared r s' :=
  ⟨ha.others, canceled_kept h ha.cancels hi.canceled⟩

theorem Spared.fetchAdd (hi : Spared r s) (job : Job α) : Spared r (s.fetchAdd r job) := by
  refine ⟨fun i hir => ?_, hi.canceled⟩
  show (Function.update s.timer.thread r _ i).captured = 0
  rw [Function.update_of_ne hir, hi.others i hir]

theorem Apart.schedules (ha : Apart r s s') (h : Step s s') (hs : (s.timer.thread r).schedules = true) :
    (s'.timer.thread r).schedules = true := by
  rcases h.timer_step with he | hstep
  · rwa [he]
  · exact TimerScheduler.step_schedules hstep ha.idle hs

omit [DecidableEq ι] in
/-- A lambda in the queue is not canceled: ids tell tasks apart. -/
theorem Spared.queued (hi : Spared r s) (ht : TimerScheduler.Inv s.timer) {t : TimerTask (Job α)}
    (hq : t ∈ s.timer.timerTasks) (hc : t.taskId ∈ s.timer.canceledIds) : t.captured = 0 := by
  obtain ⟨u, hu, hid, h0⟩ := hi.canceled _ (ht.canceled_sub hc)
  have hpushed : t ∈ s.timer.pushed := by
    rw [← ht.conserved]
    simp only [Multiset.mem_add]
    exact .inl (.inl (.inl hq))
  obtain rfl := Multiset.inj_on_of_nodup_map ht.nodup u hu t hpushed hid
  exact h0

/-- No lambda comes or goes where `r` begins no call with one and no worker is done with one. -/
theorem captured_kept (h : Step s s') (hidle : s.timer.thread r = .idle → (s'.timer.thread r).captured = 0)
    (hheld : ∀ w, (s.pool.pool.worker w).captured ≠ 0 → s'.pool.pool.worker w = s.pool.pool.worker w)
    (hi : Spared r s) (ht : TimerScheduler.Inv s.timer) (hp : Inv s) :
    (s'.timer.thread r).captured + s'.captured = (s.timer.thread r).captured + s.captured := by
  unfold State.captured
  cases h with
  | timer hr hs hposted hhead =>
    have hkept := TimerScheduler.step_captured hs hposted hidle hi.others fun t hq hc => hi.queued ht hq hc
    rw [← add_assoc, ← add_assoc, hkept]
  | @postTask t hf hl =>
    have htimer : s.timer.captured = (s.post t).timer.captured + t.captured := by
      unfold TimerScheduler.State.captured
      rw [hf]
      show _ + (([t] : List _) : Multiset (TimerTask (Job α))).bind TimerTask.captured =
        _ + (0 : Multiset (TimerTask (Job α))).bind TimerTask.captured + _
      rw [Multiset.coe_singleton, Multiset.singleton_bind, Multiset.zero_bind, add_zero]
      rfl
    show _ + (_ + (s.pool.pool.push t.callback).captured) = _
    rw [ThreadPool.push_captured, htimer, add_assoc (s.post t).timer.captured, add_comm t.captured]
    rfl
  | pool h =>
    have hkept := ThreadPool.inner_captured h hp.noBatch hheld
    dsimp only
    rw [hkept]
  | spurious | destroy => rfl

theorem Apart.captured (ha : Apart r s s') (h : Step s s') (hi : Spared r s) (ht : TimerScheduler.Inv s.timer)
    (hp : Inv s) :
    (s'.timer.thread r).captured + s'.captured = (s.timer.thread r).captured + s.captured :=
  captured_kept h (fun hr => by rw [ha.idle hr]; rfl) ha.held hi ht hp

end TimedPool

/-! ## What the reactor does to the tasks of its handlers -/

/-- The lambda runs. -/
def ProtocolHandler.runTask : ProtocolHandler → ProtocolHandler
  | .tcp s => .tcp { s with
      handler := { s.handler with packs := (s.handler.cb.getD id) s.handler.packs }
      tasks := s.tasks - 1
      delivered := s.delivered ++ s.held }
  | .udp s => .udp { s with
      handler := { s.handler with packs := (s.handler.cb.getD id) s.handler.packs }
      tasks := s.tasks - 1 }

namespace EventLoop

open ReactorCore (Registering)

variable {s s' : State}

/-- What a step does to the tasks: one handler gets some or runs one, a handler goes, or an orphan is run. -/
inductive Tasks (s s' : State) : Prop
  | handler (fd : Int) : (∀ x, x ≠ fd → s'.tasksAt x = s.tasksAt x) → s'.orphans = s.orphans →
      (∀ x, (s.protocolHandlers x).isSome → (s'.protocolHandlers x).isSome) →
      (s'.protocolHandlers fd).isSome ∨ s'.tasksAt fd = s.tasksAt fd → Tasks s s'
  | erased (fd : Int) : s'.orphans = s.orphans + s.tasksAt fd →
      s'.protocolHandlers = Function.update s.protocolHandlers fd none →
      Tasks s s'
  | stale : s'.orphans < s.orphans → s'.protocolHandlers = s.protocolHandlers → Tasks s s'

theorem tasksAt_congr {x : Int} (h : s'.protocolHandlers x = s.protocolHandlers x) :
    s'.tasksAt x = s.tasksAt x := by
  unfold State.tasksAt
  rw [h]

@[simp] theorem tasksAt_setHandler (fd : Int) (h : ProtocolHandler) :
    (s.setHandler fd h).tasksAt fd = h.tasks := by
  unfold State.tasksAt State.setHandler
  simp

theorem tasksAt_some {fd : Int} {h : ProtocolHandler} (hp : s.protocolHandlers fd = some (some h)) :
    s.tasksAt fd = h.tasks := by
  unfold State.tasksAt
  rw [hp]
  rfl

theorem exists_handler {fd : Int} (h : s.tasksAt fd ≠ 0) :
    ∃ handler, s.protocolHandlers fd = some (some handler) := by
  unfold State.tasksAt at h
  cases hp : s.protocolHandlers fd with
  | none =>
    rw [hp] at h
    exact absurd rfl h
  | some entry =>
    cases entry with
    | none =>
      rw [hp] at h
      exact absurd rfl h
    | some handler => exact ⟨handler, rfl⟩

/-- The handler of one descriptor is another one, or was not there. -/
theorem tasks_of_update {fd : Int} {entry : Option ProtocolHandler}
    (hp : s'.protocolHandlers = Function.update s.protocolHandlers fd (some entry))
    (ho : s'.orphans = s.orphans) :
    Tasks s s' := by
  refine .handler fd (fun x hx => tasksAt_congr ?_) ho (fun x hx => ?_) (.inl ?_)
  · rw [hp, Function.update_of_ne hx]
  · rw [hp]
    by_cases hxf : x = fd
    · subst hxf
      rw [Function.update_self]
      rfl
    · rwa [Function.update_of_ne hxf]
  · rw [hp, Function.update_self]
    rfl

theorem step_tasks (hk : Keyed s) (hs : Step s s') : Tasks s s' := by
  have same (hp : s'.protocolHandlers = s.protocolHandlers) (ho : s'.orphans = s.orphans) : Tasks s s' :=
    .handler 0 (fun x _ => tasksAt_congr (by rw [hp])) ho (fun x hx => by rwa [hp])
      (.inr (tasksAt_congr (by rw [hp])))
  have registered (accepted : State) {fd : Int} {handler : Option ProtocolHandler}
      (hp : accepted.protocolHandlers = s.protocolHandlers) (ho : accepted.orphans = s.orphans)
        (hkeyed : Keyed accepted)
      (hr : Registered accepted fd handler s') : Tasks s s' :=
    tasks_of_update (by rw [hr.handlers, hp]) ((hr.orphans_same hkeyed).1.trans ho)
  cases hs with
  | socket | keep => exact same rfl rfl
  | registerProtocol fd handler isListener os hnew =>
    rcases registerProtocol_cases s fd handler isListener os with ⟨e, he⟩ | ⟨s₁, he, hr⟩
    · rw [he] at same ⊢
      exact same rfl rfl
    · rw [he] at registered ⊢
      exact registered s rfl rfl hk hr
  | newConnection listenFd connFd os =>
    rcases createConnHandler_cases (s.accept connFd) connFd os with
      ⟨e, params, he⟩ | ⟨params, handler, s₁, he, hr⟩
    · rw [he] at same ⊢
      exact same rfl rfl
    · rw [he] at registered ⊢
      exact registered { s.accept connFd with params := params } rfl rfl hk hr
  | handleEvent flags | pass | runTask => exact tasks_of_update rfl rfl
  | @unregister fd => exact .erased fd rfl rfl
  | runOrphan h0 => exact .stale (Nat.sub_lt (Nat.pos_of_ne_zero h0) Nat.one_pos) rfl

/-- A new handler, or one that did a step of its own. -/
theorem step_handler (hs : Step s s') {fd : Int} {h' : ProtocolHandler}
    (hp : s'.protocolHandlers fd = some (some h')) :
    h'.tasks = 0 ∨ ∃ h, s.protocolHandlers fd = some (some h) ∧
      (h' = h ∨ h.Step h' ∨ ∃ event, h' = h.handleEvent event) := by
  have of_update {x : Int} {entry : Option (Option ProtocolHandler)} {table : Int →
      Option (Option ProtocolHandler)}
      (htable : table = Function.update s.protocolHandlers x entry) (hp : table fd = some (some h'))
      (hnew : entry = some (some h') → fd = x → h'.tasks = 0 ∨
        ∃ h, s.protocolHandlers fd = some (some h) ∧
        (h' = h ∨ h.Step h' ∨ ∃ event, h' = h.handleEvent event)) :
      h'.tasks = 0 ∨ ∃ h, s.protocolHandlers fd = some (some h) ∧
        (h' = h ∨ h.Step h' ∨ ∃ event, h' = h.handleEvent event) := by
    rw [htable] at hp
    by_cases hx : fd = x
    · rw [hx, Function.update_self] at hp
      exact hnew hp hx
    · rw [Function.update_of_ne hx] at hp
      exact .inr ⟨h', hp, .inl rfl⟩
  cases hs with
  | socket | keep | runOrphan => exact .inr ⟨h', hp, .inl rfl⟩
  | registerProtocol x handler isListener os hnew =>
    rcases registerProtocol_cases s x handler isListener os with ⟨e, he⟩ | ⟨s₁, he, hr⟩ <;> rw [he] at hp
    · exact .inr ⟨h', hp, .inl rfl⟩
    · refine of_update hr.handlers hp fun hentry _ => .inl ?_
      cases hentry
      exact (hnew h' rfl).1
  | newConnection listenFd connFd os =>
    cases hcreate : (s.accept connFd).createConnHandler connFd os with
    | mk e s₁ =>
      rw [hcreate] at hp
      cases e with
      | none =>
        refine of_update (createConnHandler_ok hcreate).1.handlers hp fun hentry _ => .inl ?_
        cases hentry
        rfl
      | some e =>
        rcases createConnHandler_cases (s.accept connFd) connFd os with
          ⟨e, params, he⟩ | ⟨params, handler, s₂, he, -⟩
        · rw [hcreate] at he
          cases he
          exact .inr ⟨h', hp, .inl rfl⟩
        · rw [hcreate] at he
          cases he
  | @handleEvent x _ flags _ _ hold =>
    refine of_update rfl hp fun hentry hx => .inr ⟨_, hx ▸ hold, .inr (.inr ⟨⟨x, flags⟩, ?_⟩)⟩
    cases hentry
    rfl
  | pass _ hold _ hs | runTask hold hs =>
    refine of_update rfl hp fun hentry hx => .inr ⟨_, hx ▸ hold, .inr (.inl ?_)⟩
    cases hentry
    exact hs
  | unregister _ hold => exact of_update rfl hp nofun

end EventLoop

namespace ProtocolHandler

/-- `TcpHandler` looks at its callback before it schedules. -/
def Armed : ProtocolHandler → Prop
  | .tcp s => s.tasks ≠ 0 → s.handler.cb.isSome
  | .udp _ => True

variable {h h' : ProtocolHandler}

theorem armed_of_none (h0 : h.tasks = 0) : h.Armed := by
  cases h with
  | tcp s => exact fun ht => absurd h0 ht
  | udp s => trivial

theorem Armed.step (ha : h.Armed) (hs : h.Step h') : h'.Armed := by
  cases hs with
  | udp => trivial
  | @tcp s _ hs =>
    cases hs with
    | handleEvent event =>
      intro ht
      rw [(TcpHandler.handleEvent_same s.handler event).1]
      exact ha ht
    | bufferFull => exact ha
    | readEnds r => cases r <;> exact ha
    | runTask _ hcb =>
      intro _
      show s.handler.cb.isSome
      rw [hcb]
      rfl
    | @read _ packs =>
      intro ht
      change (if packs ≠ [] ∧ s.handler.cb.isSome then s.tasks + 1 else s.tasks) ≠ 0 at ht
      by_cases hsched : packs ≠ [] ∧ s.handler.cb.isSome
      · exact hsched.2
      · rw [if_neg hsched] at ht
        exact ha ht

theorem Armed.handleEvent (ha : h.Armed) (event : Event) : (h.handleEvent event).Armed := by
  cases h with
  | udp => trivial
  | tcp s =>
    intro ht
    show (s.handler.handleEvent event).2.cb.isSome
    rw [(TcpHandler.handleEvent_same s.handler event).1]
    exact ha ht

/-- A lambda of a handler that is there is a step of this handler. -/
theorem Armed.runTask (ha : h.Armed) (h0 : h.tasks ≠ 0) : h.Step h.runTask ∧ h.runTask.tasks < h.tasks := by
  cases h with
  | udp s => exact ⟨.udp (.runTask h0), Nat.sub_lt (Nat.pos_of_ne_zero h0) Nat.one_pos⟩
  | tcp s =>
    obtain ⟨cb, hcb⟩ := Option.isSome_iff_exists.1 (ha h0)
    have hf : s.handler.cb.getD id = cb := by rw [hcb]; rfl
    refine ⟨?_, Nat.sub_lt (Nat.pos_of_ne_zero h0) Nat.one_pos⟩
    have hrun := TcpHandler.Step.runTask h0 hcb
    rw [← hf] at hrun
    exact .tcp hrun

end ProtocolHandler

theorem EventLoop.step_armed {s s' : EventLoop.State}
    (ha : ∀ fd h, s.protocolHandlers fd = some (some h) → h.Armed) (hs : EventLoop.Step s s') :
    ∀ fd h, s'.protocolHandlers fd = some (some h) → h.Armed := by
  intro fd h' hp
  rcases EventLoop.step_handler hs hp with h0 | ⟨h, hold, rfl | hstep | ⟨event, rfl⟩⟩
  · exact ProtocolHandler.armed_of_none h0
  · exact ha fd _ hold
  · exact (ha fd h hold).step hstep
  · exact (ha fd h hold).handleEvent event

end NebulaToolkit
