import NebulaToolkit.TimerScheduler
/-!
# When the scheduler thread sleeps

`RunScheduler` blocks in two places, and a notification that comes while it
does not block is lost. Said once for both questions (does it sleep past a
task, does it sleep past `Stop`): what a step can have done that leaves the
thread blocked (`Step.blocked`).
-/

namespace NebulaToolkit

open Lib

namespace TimerScheduler

variable {ι CallBack : Type} {s s' : State ι CallBack}

def Loop.Blocked : Loop CallBack → Prop
  | .waiting | .sleeping _ => True
  | _ => False

theorem Loop.wake_not_blocked (l : Loop CallBack) : ¬ l.wake.Blocked := by
  cases l <;> exact id

/-- The thread is in a call that has a notification still to send: in
`ScheduleOnce` behind its push, or in `Stop`. -/
def Thread.Owes : Thread CallBack → Prop
  | .notifyOne | .stopping | .notifyAll => True
  | _ => False

/-- What a step has done that leaves the scheduler thread blocked. -/
inductive Blocked (s s' : State ι CallBack) : Prop
  | waits : s.running = true → s.timerTasks = 0 → s' = { s with scheduler := .waiting } → Blocked s s'
  | sleeps (t : TimerTask CallBack) : s.scheduler = .body → t.IsTop s.timerTasks → s.now < t.execTime →
      s' = { s with scheduler := .sleeping t.execTime } → Blocked s s'
  | pushed (i : ι) : s'.scheduler = s.scheduler → s'.running = s.running → s'.thread i = .notifyOne →
      Blocked s s'
  | cleared (i : ι) : s'.scheduler = s.scheduler → s'.timerTasks = s.timerTasks → s'.thread i = .notifyAll →
      (∀ j, s.thread j = .notifyOne → s'.thread j = .notifyOne) → Blocked s s'
  | kept : s'.scheduler = s.scheduler → s'.timerTasks = s.timerTasks → s'.running = s.running →
      (∀ j, s.thread j = .notifyOne → s'.thread j = .notifyOne) →
      (∀ j, (s.thread j).Owes → (s'.thread j).Owes) → Blocked s s'

section
variable [DecidableEq ι]

/-- A thread's own step keeps what it does not take away. -/
theorem update_keeps {P : Thread CallBack → Prop} {i : ι} {p : Thread CallBack}
    (hp : P (s.thread i) → P p) (j : ι) (h : P (s.thread j)) : P (Function.update s.thread i p j) := by
  by_cases hij : j = i
  · subst hij; rw [Function.update_self]; exact hp h
  · rwa [Function.update_of_ne hij]

/-- A thread's step from a place where it owes nothing. -/
theorem Blocked.thread {i : ι} {p : Thread CallBack} {nextId : UInt64} {calls : Nat}
    (h₁ : s.thread i ≠ .notifyOne) (h₂ : ¬ (s.thread i).Owes) :
    Blocked s { s.setThread i p with nextId := nextId, calls := calls } :=
  .kept rfl rfl rfl (update_keeps (P := (· = .notifyOne)) fun h => absurd h h₁)
    (update_keeps fun h => absurd h h₂)

theorem Step.blocked (h : Step s s') (hb : s'.scheduler.Blocked) : Blocked s s' := by
  cases h with
  | @fetchAdd i delayMs cbTask ht => exact .thread (by rw [ht]; exact nofun) (by rw [ht]; exact id)
  | @readClock i taskId delayMs cbTask ht => exact .thread (by rw [ht]; exact nofun) (by rw [ht]; exact id)
  | @push i t ht => exact .pushed i rfl rfl (Function.update_self ..)
  | notifyOne | notifyAll | wakeUp => exact absurd hb (Loop.wake_not_blocked _)
  | cancel | clock => exact .kept rfl rfl rfl (fun _ => id) (fun _ => id)
  | start | waitEnds | discard | pop | postTask => exact hb.elim
  | @stop i ht hr => exact .thread (by rw [ht]; exact nofun) (by rw [ht]; exact id)
  | @clearRunning i ht =>
    refine .cleared i rfl rfl (Function.update_self ..) (update_keeps (P := (· = .notifyOne)) fun h => ?_)
    rw [ht] at h; cases h
  | @join i ht hl => exact .thread (by rw [ht]; exact nofun) (by rw [ht]; exact id)
  | load hl =>
    change (if _ then _ else _ : Loop CallBack).Blocked at hb
    split at hb <;> exact hb.elim
  | waitEmpty hl hq =>
    by_cases hr : s.running = true
    · refine .waits hr hq ?_
      rw [if_pos hr]
    · rw [if_neg hr] at hb
      exact hb.elim
  | waitAgain hl hr hq => exact .waits hr hq rfl
  | @waitUntil t hl ht hc hn => exact .sleeps t hl ht (Int.not_le.1 hn) rfl

/-- A scheduler whose thread has one task, not due yet, and has not taken the lock. -/
theorem one_pending : ∃ t : TimerTask Nat, 0 < t.execTime ∧
    Reachable Start Step
      ({ now := 0, timerTasks := {t}, nextId := 1, running := true, scheduler := .body, calls := 1
         pushed := {t} } : State Unit Nat) := by
  refine ⟨⟨execTime 0 1000, 7, 0⟩, by simp only [execTime]; decide, ?_⟩
  have h₀ : Reachable Start Step ({ now := 0 } : State Unit Nat) := .start ⟨0, rfl⟩
  have h₁ := h₀.next (.fetchAdd () 1000 7 rfl)
  have h₂ := h₁.next (.readClock (i := ()) rfl)
  have h₃ := h₂.next (.push (i := ()) (t := ⟨execTime 0 1000, 7, 0⟩) rfl)
  have h₄ := h₃.next (.notifyOne (i := ()) rfl)
  have h₅ := h₄.next (.start rfl (.inl rfl))
  have h₆ := h₅.next (.load rfl)
  exact h₆

/-! ## Past a task -/

/-- No task of the queue is due before the scheduler thread wakes up. -/
def State.Covered (s : State ι CallBack) : Prop :=
  (s.scheduler = .waiting → s.timerTasks = 0) ∧ ∀ d, s.scheduler = .sleeping d →
  ∀ t ∈ s.timerTasks, d ≤ t.execTime

omit [DecidableEq ι] in
theorem covered_of_not_blocked (h : ¬ s.scheduler.Blocked) : s.Covered := by
  constructor
  · intro hw; rw [hw] at h; exact absurd trivial h
  · intro d hd; rw [hd] at h; exact absurd trivial h

theorem step_covered (h : s.Covered ∨ ∃ i, s.thread i = .notifyOne) (hs : Step s s') :
    s'.Covered ∨ ∃ i, s'.thread i = .notifyOne := by
  by_cases hb : s'.scheduler.Blocked
  · cases hs.blocked hb with
    | waits hr hq he => subst he; exact .inl ⟨fun _ => hq, nofun⟩
    | sleeps t hl ht hn he =>
      subst he
      refine .inl ⟨nofun, fun d hd t' ht' => ?_⟩
      cases hd
      exact ht.le ht'
    | pushed i hl hr hi => exact .inr ⟨i, hi⟩
    | cleared i hl hq hi hone | kept hl hq hr hone howes =>
      refine h.imp (fun hc => ?_) fun ⟨j, hj⟩ => ⟨j, hone j hj⟩
      unfold State.Covered
      rw [hl, hq]
      exact hc
  · exact .inl (covered_of_not_blocked hb)

theorem reachable_covered (h : Reachable Start Step s) : s.Covered ∨ ∃ i, s.thread i = .notifyOne := by
  refine Reachable.inv (I := fun s => s.Covered ∨ ∃ i, s.thread i = .notifyOne) (fun s hs => ?_)
    (fun s s' _ hc hs => step_covered hc hs) h
  obtain ⟨now, rfl⟩ := hs
  exact .inl ⟨nofun, nofun⟩

/-- Where no `ScheduleOnce` owes a notification, the untimed wait is for an empty
queue and `wait_until` for no later than any task of the queue. -/
theorem never_oversleeps (s : State ι CallBack) (h : Reachable Start Step s)
    (hone : ∀ i, s.thread i ≠ .notifyOne) :
    (s.scheduler = .waiting → s.timerTasks = 0) ∧ ∀ d, s.scheduler = .sleeping d →
    ∀ t ∈ s.timerTasks, d ≤ t.execTime := by
  rcases reachable_covered h with hc | ⟨i, hi⟩
  · exact hc
  · exact absurd hi (hone i)

/-- The theorem with one task that is not due. -/
theorem never_oversleeps_one : ∃ (s : State Unit Nat) (t : TimerTask Nat), Reachable Start Step s ∧
    s.timerTasks = {t} ∧ ∃ d, s.scheduler = .sleeping d ∧ d ≤ t.execTime := by
  obtain ⟨t, hpos, h⟩ := one_pending
  have h' := h.next (.waitUntil (t := t) rfl t.isTop_singleton (Finset.notMem_empty _) (Int.not_le.2 hpos))
  have hd := (never_oversleeps _ h' fun i hi => by cases hi).2 _ rfl t (Multiset.mem_singleton_self t)
  exact ⟨_, t, h', rfl, _, rfl, hd⟩

/-! ## Past `Stop` -/

/-- Stopped, and still blocked, with nothing to come that would wake it up. -/
def State.Asleep (s : State ι CallBack) : Prop :=
  s.running = false ∧ (s.scheduler = .waiting ∨ ∃ d, s.scheduler = .sleeping d ∧ s.now < d) ∧
  ∀ i, ¬ (s.thread i).Owes

/-- `wait_until` is entered when `running_` was cleared and the notification for it is
gone: unlike the untimed wait it looks at no predicate. -/
def LateWait (s s' : State ι CallBack) : Prop :=
  s.running = false ∧ (∀ i, ¬ (s.thread i).Owes) ∧ s.scheduler = .body ∧ ∃ d, s'.scheduler = .sleeping d

/-- Stopped and blocked, then a notification is owed. -/
def State.Wakes (s : State ι CallBack) : Prop :=
  s.running = false → s.scheduler.Blocked → ∃ i, (s.thread i).Owes

theorem step_wakes (h : s.Wakes) (hs : Step s s') (hl : ¬ LateWait s s') : s'.Wakes := by
  intro hr' hb'
  cases hs.blocked hb' with
  | waits hr hq he =>
    subst he
    rw [hr] at hr'
    cases hr'
  | sleeps t hbody ht hn he =>
    subst he
    by_contra hno
    exact hl ⟨hr', not_exists.1 hno, hbody, _, rfl⟩
  | pushed i _ _ hi | cleared i _ _ hi _ => exact ⟨i, by rw [hi]; trivial⟩
  | kept hl hq hr hone howes =>
    rw [hl] at hb'
    obtain ⟨i, hi⟩ := h (hr ▸ hr') hb'
    exact ⟨i, howes i hi⟩

omit [DecidableEq ι] in
theorem State.Wakes.not_asleep (h : s.Wakes) : ¬ s.Asleep := by
  rintro ⟨hr, hb, hno⟩
  have hblocked : s.scheduler.Blocked := by
    rcases hb with hb | ⟨d, hb, -⟩ <;> rw [hb] <;> trivial
  obtain ⟨i, hi⟩ := h hr hblocked
  exact hno i hi

/-- A late `wait_until` puts the thread to sleep there and then. -/
theorem LateWait.asleep (hs : Step s s') (h : LateWait s s') : s'.Asleep := by
  obtain ⟨hr, hno, hbody, d, hd⟩ := h
  have hb : s'.scheduler.Blocked := by rw [hd]; trivial
  cases hs.blocked hb with
  | waits _ _ he => subst he; cases hd
  | sleeps t _ _ hn he => subst he; exact ⟨hr, .inr ⟨_, rfl, hn⟩, hno⟩
  | pushed _ hl | cleared _ hl | kept hl =>
    rw [hl, hbody] at hd
    cases hd

/-- A run never leaves the scheduler thread asleep after `Stop` if and only if no step
of it enters `wait_until` when `running_` is cleared and no notification is owed. -/
theorem stop_wakes (s₀ : State ι CallBack) (run : List (State ι CallBack)) (h : IsRun Start Step s₀ run) :
    (∀ s ∈ s₀ :: run, ¬ s.Asleep) ↔ (s₀ :: run).IsChain fun s s' => ¬ LateWait s s' := by
  refine h.forall_iff (I := State.Wakes) (fun s hs => ?_) (fun s s' hi hs hl => step_wakes hi hs hl)
    (fun s hi => hi.not_asleep) fun s s' hs hna hl => hna (hl.asleep hs)
  obtain ⟨now, rfl⟩ := hs
  exact fun _ hb => hb.elim

/-- The theorem for a `Stop` that finds the thread in the untimed wait. -/
theorem stop_wakes_waiting : ∃ (s₀ : State Unit Nat) (run : List (State Unit Nat)), IsRun Start Step s₀ run ∧
    run.length = 6 ∧ ∀ s ∈ s₀ :: run, ¬ s.Asleep := by
  let stands (l : Loop Nat) (r : Bool) (p : Thread Nat) : State Unit Nat :=
    { now := 0, running := r, scheduler := l, thread := fun _ => p }
  have hrun : IsRun Start Step (stands .absent false .idle) [stands .head true .idle,
      stands .body true .idle, stands .waiting true .idle, stands .waiting true .stopping,
      stands .waiting false .notifyAll, stands .woken false .joining] :=
    ⟨⟨0, rfl⟩, .cons_cons (.start rfl (.inl rfl)) <| .cons_cons (.load rfl) <|
      .cons_cons (.waitEmpty rfl rfl) <|
      .cons_cons (.stop (i := ()) rfl rfl) <| .cons_cons (.clearRunning (i := ()) rfl) <|
      .cons_cons (.notifyAll (i := ()) rfl) (.singleton _)⟩
  refine ⟨_, _, hrun, rfl, (stop_wakes _ _ hrun).2 ?_⟩
  iterate 6 refine .cons_cons (fun ⟨_, _, _, d, hd⟩ => by cases hd) ?_
  exact .singleton _

/-- `Stop` clears `running_` and notifies while the thread is between its look at
`running_` and the lock; the thread then waits for a task of the far future. -/
theorem stop_leaves_asleep : ∃ s :
    State Unit Nat, Reachable Start Step s ∧ s.thread () = .joining ∧ s.Asleep := by
  obtain ⟨t, hpos, h⟩ := one_pending
  have h₁ := h.next (.stop (i := ()) rfl rfl)
  have h₂ := h₁.next (.clearRunning (i := ()) rfl)
  have h₃ := h₂.next (.notifyAll (i := ()) rfl)
  have h₄ := h₃.next (.waitUntil (t := t) rfl t.isTop_singleton (Finset.notMem_empty _) (Int.not_le.2 hpos))
  exact ⟨_, h₄, rfl, rfl, .inr ⟨_, rfl, hpos⟩, fun _ hi => hi⟩

end

end TimerScheduler

end NebulaToolkit
