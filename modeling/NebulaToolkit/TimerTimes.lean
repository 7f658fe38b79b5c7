import Mathlib.Algebra.Group.Int.Defs
import NebulaToolkit.TimerScheduler
/-!
# The times of the tasks

A task's `exec_time` is the clock's reading plus the delay, on signed 64-bit
counters. The sum wraps, so a delay long enough comes out as one in the past
(`delay_kept_iff`). It is also all that the queue's order knows of: among tasks
of one time any may be on top. Tasks whose times grow as they are pushed are
posted in that order (`posted_in_order`).
-/

namespace NebulaToolkit

open Lib

namespace TimerScheduler

/-! ## Delays -/

/-- `steady_clock::time_point::max()` -/
def maxTime : Int := 2 ^ 63 - 1

/-- The sum as a number, in nanoseconds. -/
def due (now : Int) (delayMs : UInt64) : Int := now + delayMs.toNat * 1000000

/-- The task is not due before its delay is over, or never; a shorter delay is due no later. -/
structure Kept (now : Int) (delayMs : UInt64) : Prop where
  not_early : due now delayMs ≤ execTime now delayMs ∨ execTime now delayMs = maxTime
  mono : ∀ shorter ≤ delayMs, execTime now shorter ≤ execTime now delayMs

theorem execTime_eq (now : Int) (delayMs : UInt64) :
    execTime now delayMs = (due now delayMs).bmod (2 ^ 64) := by
  unfold execTime due
  rw [Int.add_bmod_bmod, ← Int.add_bmod_bmod, Int.bmod_mul_bmod, Int.add_bmod_bmod]

theorem execTime_le (now : Int) (delayMs : UInt64) : execTime now delayMs ≤ maxTime := by
  rw [execTime_eq]
  have := Int.bmod_lt (x := due now delayMs) (m := 2 ^ 64) (by decide)
  unfold maxTime
  omega

/-- As long as the sum is a time point it is the `exec_time`. -/
theorem execTime_exact {now : Int} {delayMs : UInt64} (h₀ : -2 ^ 63 ≤ now) (h : due now delayMs ≤ maxTime) :
    execTime now delayMs = due now delayMs := by
  rw [execTime_eq]
  unfold maxTime due at *
  exact Int.bmod_eq_of_le (by omega) (by omega)

theorem due_le {now : Int} {shorter delayMs : UInt64} (h : shorter ≤ delayMs) :
    due now shorter ≤ due now delayMs := by
  have : shorter.toNat ≤ delayMs.toNat := h
  unfold due
  omega

/-- A delay is kept if and only if the sum is a time point, or wraps round to the very
last one; and a task whose delay is kept is taken off the queue when it is over. -/
theorem delay_kept_iff {ι CallBack : Type} [DecidableEq ι] (now : Int) (delayMs : UInt64)
    (h₀ : -2 ^ 63 ≤ now) :
    (Kept now delayMs ↔ due now delayMs ≤ maxTime ∨ due now delayMs % 2 ^ 64 = maxTime) ∧
    (Kept now delayMs → ∀ (s s' : State ι CallBack) (t : TimerTask CallBack),
      t.execTime = execTime now delayMs →
      Step s s' → s.scheduler ≠ .flying t → s'.scheduler = .flying t → due now delayMs ≤ s.now ∨
      maxTime ≤ s.now) := by
  have hlast : due now delayMs % 2 ^ 64 = maxTime ↔ execTime now delayMs = maxTime := by
    rw [execTime_eq, Int.bmod_def]
    unfold maxTime
    split <;> omega
  refine ⟨⟨fun hk => ?_, fun hc => ?_⟩, fun hk s s' t ht hs hf hf' => ?_⟩
  · rcases hk.not_early with hle | hmax
    · exact .inl (hle.trans (execTime_le now delayMs))
    · exact .inr (hlast.2 hmax)
  · rcases hc with hle | hmax
    · refine ⟨.inl (Int.le_of_eq (execTime_exact h₀ hle).symm), fun shorter hs => ?_⟩
      rw [execTime_exact h₀ hle, execTime_exact h₀ ((due_le hs).trans hle)]
      exact due_le hs
    · rw [hlast] at hmax
      refine ⟨.inr hmax, fun shorter _ => ?_⟩
      rw [hmax]
      exact execTime_le now shorter
  · obtain ⟨-, htime, -⟩ := hs.popped hf hf'
    rw [ht] at htime
    rcases hk.not_early with hle | hmax
    · exact .inl (hle.trans htime)
    · rw [hmax] at htime
      exact .inr htime

/-- The theorem for a second, from a reading of 5 ns. -/
theorem delay_kept_second : Kept 5 1000 ∧ execTime 5 1000 = 1000000005 :=
  ⟨(@delay_kept_iff Unit Nat _ 5 1000 (by decide)).1.2 (.inl (by decide)), by decide⟩

/-- The longest delay there is lies a millisecond in the past. -/
theorem never_is_now : execTime 0 18446744073709551615 = -1000000 ∧ ¬ Kept 0 18446744073709551615 := by
  have hexec : execTime 0 18446744073709551615 = -1000000 := by decide
  refine ⟨hexec, fun h => ?_⟩
  rcases h.not_early with hle | hmax
  · rw [hexec] at hle
    revert hle
    decide
  · rw [hexec] at hmax
    revert hmax
    decide

/-! ## The order -/

variable {ι CallBack : Type} {s s' : State ι CallBack}

/-- The task between the pop and `PostTask`. -/
def Loop.task : Loop CallBack → List (TimerTask CallBack)
  | .flying t => [t]
  | _ => []

@[simp] theorem Loop.wake_task (l : Loop CallBack) : l.wake.task = l.task := by cases l <;> rfl

/-- What a step does to the tasks. -/
inductive Moves (s s' : State ι CallBack) : Prop
  | keeps : s'.timerTasks = s.timerTasks → s'.scheduler.task = s.scheduler.task → s'.posted = s.posted →
      s'.pushed = s.pushed → Moves s s'
  | push (t : TimerTask CallBack) : s'.timerTasks = t ::ₘ s.timerTasks →
      s'.scheduler.task = s.scheduler.task → s'.posted = s.posted → s'.pushed = t ::ₘ s.pushed → Moves s s'
  | discard (t : TimerTask CallBack) : s.timerTasks = t ::ₘ s'.timerTasks →
      s'.scheduler.task = s.scheduler.task → s'.posted = s.posted → s'.pushed = s.pushed → Moves s s'
  | pop (t : TimerTask CallBack) : s.timerTasks = t ::ₘ s'.timerTasks → t.IsTop s.timerTasks →
      s.scheduler.task = [] → s'.scheduler.task = [t] → s'.posted = s.posted → s'.pushed = s.pushed →
      Moves s s'
  | post (t : TimerTask CallBack) : s'.timerTasks = s.timerTasks → s.scheduler.task = [t] →
      s'.scheduler.task = [] → s'.posted = s.posted ++ [t] → s'.pushed = s.pushed → Moves s s'

theorem Step.moves [DecidableEq ι] (h : Step s s') : Moves s s' := by
  cases h with
  | fetchAdd | readClock | cancel | stop | clearRunning | join | clock => exact .keeps rfl rfl rfl rfl
  | notifyOne | notifyAll | wakeUp => exact .keeps rfl (Loop.wake_task _) rfl rfl
  | @push i t ht => exact .push t rfl rfl rfl rfl
  | start hr hl =>
    refine .keeps rfl ?_ rfl rfl
    rcases hl with hl | hl <;> rw [hl] <;> rfl
  | load hl | waitEmpty hl =>
    refine .keeps rfl ?_ rfl rfl
    rw [hl]
    dsimp only
    split <;> rfl
  | waitEnds hl | waitAgain hl | waitUntil hl =>
    refine .keeps rfl ?_ rfl rfl
    rw [hl]
    rfl
  | @discard t rest hl ht hq hmem =>
    refine .discard t hq ?_ rfl rfl
    rw [hl]
    rfl
  | @pop t rest hl ht hq hmem hn => exact .pop t hq ht (by rw [hl]; rfl) rfl rfl rfl
  | @postTask t hf => exact .post t rfl (by rw [hf]; rfl) rfl rfl rfl

/-- A step, beside the list of the tasks in the order in which they were pushed. -/
inductive Listed [DecidableEq ι] : State ι CallBack × List (TimerTask CallBack) →
    State ι CallBack × List (TimerTask CallBack) → Prop
  | push {s s' : State ι CallBack} {l : List (TimerTask CallBack)} (t : TimerTask CallBack) : Step s s' →
      s'.pushed = t ::ₘ s.pushed → Listed (s, l) (s', l ++ [t])
  | other {s s' : State ι CallBack} {l : List (TimerTask CallBack)} : Step s s' → s'.pushed = s.pushed →
      Listed (s, l) (s', l)

/-- Of the tasks `p`, those in the queue and those before it are in the order of their
pushes, and those in the queue in the order of their times. -/
def InOrder (p : TimerTask CallBack → Bool) (x : State ι CallBack × List (TimerTask CallBack)) : Prop :=
  ∃ q : List (TimerTask CallBack), (q : Multiset (TimerTask CallBack)) = x.1.timerTasks.filter (p ·) ∧
    q.Pairwise (fun t t' => t.execTime < t'.execTime) ∧
    ((x.1.posted ++ x.1.scheduler.task).filter p ++ q).Sublist (x.2.filter p)

/-- The task that is pushed, if it is one of `p`, is later than those of `p` in the queue. -/
def PushesLater (p : TimerTask CallBack → Bool) (x y : State ι CallBack × List (TimerTask CallBack)) : Prop :=
  ∀ t, y.2 = x.2 ++ [t] → p t → ∀ t' ∈ x.1.timerTasks, p t' → t'.execTime < t.execTime

/-- Taking one of its elements out of a list. -/
theorem coe_eq_cons {α : Type} {q : List α} {a : α} {m : Multiset α} (h : (q : Multiset α) = a ::ₘ m) :
    ∃ q₁ q₂, q = q₁ ++ a :: q₂ ∧ ((q₁ ++ q₂ : List α) : Multiset α) = m := by
  have hmem : a ∈ q := Multiset.mem_coe.1 (h ▸ Multiset.mem_cons_self a m)
  obtain ⟨q₁, q₂, rfl⟩ := List.append_of_mem hmem
  refine ⟨q₁, q₂, rfl, (Multiset.cons_inj_right a).1 ?_⟩
  rw [← h, Multiset.cons_coe]
  exact Multiset.coe_eq_coe.2 List.perm_middle.symm

section
variable [DecidableEq ι] {p : TimerTask CallBack →
    Bool} {l : List (TimerTask CallBack)} {t : TimerTask CallBack}

omit [DecidableEq ι] in
theorem InOrder.push (h : InOrder p (s, l))
    (hlater : p t → ∀ t' ∈ s.timerTasks, p t' → t'.execTime < t.execTime)
    (hq : s'.timerTasks = t ::ₘ s.timerTasks) (ht : s'.scheduler.task = s.scheduler.task)
    (hp : s'.posted = s.posted) :
    InOrder p (s', l ++ [t]) := by
  obtain ⟨q, hqueue, htimes, horder⟩ := h
  unfold InOrder
  dsimp only at hqueue horder ⊢
  rw [hq, ht, hp]
  by_cases hpt : p t
  · refine ⟨q ++ [t], ?_, ?_, ?_⟩
    · rw [Multiset.filter_cons_of_pos (p := fun t => p t) _ hpt, ← hqueue, Multiset.cons_coe]
      exact Multiset.coe_eq_coe.2 (List.perm_append_singleton t q)
    · rw [List.pairwise_append]
      refine ⟨htimes, List.pairwise_singleton _ t, fun a ha b hb => ?_⟩
      obtain rfl := List.mem_singleton.1 hb
      rw [← Multiset.mem_coe, hqueue] at ha
      obtain ⟨hmem, hpa⟩ := Multiset.mem_filter.1 ha
      exact hlater hpt a hmem hpa
    · have hl : (l ++ [t]).filter p = l.filter p ++ [t] := by
        rw [List.filter_append, List.filter_cons_of_pos hpt, List.filter_nil]
      rw [hl, ← List.append_assoc]
      exact horder.append (List.Sublist.refl _)
  · refine ⟨q, ?_, htimes, ?_⟩
    · rw [Multiset.filter_cons_of_neg (p := fun t => p t) _ hpt]
      exact hqueue
    · exact horder.trans ((List.sublist_append_left l [t]).filter p)

omit [DecidableEq ι] in
theorem InOrder.discard (h : InOrder p (s, l)) (hq : s.timerTasks = t ::ₘ s'.timerTasks)
    (ht : s'.scheduler.task = s.scheduler.task) (hp : s'.posted = s.posted) : InOrder p (s', l) := by
  obtain ⟨q, hqueue, htimes, horder⟩ := h
  unfold InOrder
  dsimp only at hqueue horder ⊢
  rw [hq] at hqueue
  rw [ht, hp]
  by_cases hpt : p t
  · rw [Multiset.filter_cons_of_pos (p := fun t => p t) _ hpt] at hqueue
    obtain ⟨q₁, q₂, rfl, hrest⟩ := coe_eq_cons hqueue
    have hsub : (q₁ ++ q₂).Sublist (q₁ ++ t :: q₂) :=
      (List.Sublist.refl q₁).append (List.sublist_cons_self t q₂)
    exact ⟨q₁ ++ q₂, hrest, htimes.sublist hsub, ((List.Sublist.refl _).append hsub).trans horder⟩
  · rw [Multiset.filter_cons_of_neg (p := fun t => p t) _ hpt] at hqueue
    exact ⟨q, hqueue, htimes, horder⟩

omit [DecidableEq ι] in
/-- What is on top is the first of `p`, when it is one of them. -/
theorem InOrder.pop (h : InOrder p (s, l)) (hq : s.timerTasks = t ::ₘ s'.timerTasks)
    (htop : t.IsTop s.timerTasks) (ht : s.scheduler.task = []) (ht' : s'.scheduler.task = [t])
    (hp : s'.posted = s.posted) : InOrder p (s', l) := by
  obtain ⟨q, hqueue, htimes, horder⟩ := h
  have hle (t' : TimerTask CallBack) (hmem : t' ∈ q) : t.execTime ≤ t'.execTime := by
    rw [← Multiset.mem_coe, hqueue] at hmem
    exact htop.le (Multiset.mem_filter.1 hmem).1
  unfold InOrder
  dsimp only at hqueue horder ⊢
  rw [hq] at hqueue
  rw [ht, List.append_nil] at horder
  rw [ht', hp, List.filter_append]
  by_cases hpt : p t
  · rw [Multiset.filter_cons_of_pos (p := fun t => p t) _ hpt] at hqueue
    obtain ⟨q₁, q₂, rfl, hrest⟩ := coe_eq_cons hqueue
    obtain rfl : q₁ = [] := by
      rw [List.eq_nil_iff_forall_not_mem]
      intro a ha
      have hlt : a.execTime < t.execTime := (List.pairwise_append.1 htimes).2.2 a ha t List.mem_cons_self
      have := hle a (List.mem_append_left _ ha)
      omega
    refine ⟨q₂, hrest, (List.pairwise_cons.1 htimes).2, ?_⟩
    rw [List.filter_cons_of_pos hpt, List.filter_nil, List.append_assoc]
    exact horder
  · rw [Multiset.filter_cons_of_neg (p := fun t => p t) _ hpt] at hqueue
    refine ⟨q, hqueue, htimes, ?_⟩
    rw [List.filter_cons_of_neg hpt, List.filter_nil, List.append_nil]
    exact horder

theorem Listed.inOrder {x y : State ι CallBack × List (TimerTask CallBack)} (hl : Listed x y)
    (hp : PushesLater p x y) (h : InOrder p x) : InOrder p y := by
  have hne (m : Multiset (TimerTask CallBack)) (t : TimerTask CallBack) : m ≠ t ::ₘ m := by
    intro he
    have := congrArg Multiset.card he
    simp at this
  cases hl with
  | @push s s' l t hs hpushed =>
    cases hs.moves with
    | push t' hq ht hposted hpushed' =>
      rw [hpushed, Multiset.cons_inj_left] at hpushed'
      subst hpushed'
      exact h.push (hp t rfl) hq ht hposted
    | keeps _ _ _ hsame | discard _ _ _ _ hsame | pop _ _ _ _ _ _ hsame | post _ _ _ _ _ hsame =>
      exact absurd (hsame.symm.trans hpushed) (hne _ _)
  | @other s s' l hs hpushed =>
    cases hs.moves with
    | keeps hq ht hposted _ =>
      unfold InOrder
      dsimp only
      rw [hq, ht, hposted]
      exact h
    | push t _ _ _ hpushed' => exact absurd (hpushed.symm.trans hpushed') (hne _ _)
    | discard t hq ht hposted _ => exact h.discard hq ht hposted
    | pop t hq htop ht ht' hposted _ => exact h.pop hq htop ht ht' hposted
    | post t hq ht ht' hposted _ =>
      unfold InOrder at h ⊢
      dsimp only at h ⊢
      rw [ht] at h
      rw [hq, ht', hposted, List.append_nil]
      exact h

omit [DecidableEq ι] in
theorem pushesLater_other : PushesLater p (s, l) (s', l) := by
  intro t h
  have := congrArg List.length h
  simp at this

/-- Every step of the scheduler has its place in the list. -/
theorem exists_listed (hs : Step s s') (l : List (TimerTask CallBack)) : ∃ l', Listed (s, l) (s', l') := by
  cases hs.moves with
  | push t _ _ _ hpushed => exact ⟨_, .push t hs hpushed⟩
  | keeps _ _ _ hsame | discard _ _ _ _ hsame | pop _ _ _ _ _ _ hsame | post _ _ _ _ _ hsame =>
    exact ⟨l, .other hs hsame⟩

/-- A new scheduler, nothing pushed. -/
def Unlisted (x : State ι CallBack × List (TimerTask CallBack)) : Prop := Start x.1 ∧ x.2 = []

/-- Tasks that are pushed later in time than those of their kind in the queue (say the
ones that a thread schedules with the same delay) are posted in the order in
which they are pushed. -/
theorem posted_in_order (p : TimerTask CallBack → Bool) (x₀ : State ι CallBack × List (TimerTask CallBack))
    (run : List (State ι CallBack × List (TimerTask CallBack))) (h : IsRun Unlisted Listed x₀ run)
    (hp : (x₀ :: run).IsChain (PushesLater p)) :
    ∀ x ∈ x₀ :: run, (x.1.posted.filter p).Sublist (x.2.filter p) := by
  intro x hx
  have horder : InOrder p x := by
    refine (h.and hp).inv (I := InOrder p) ?_ (fun x y hi hs => hs.1.inOrder hs.2 hi) x hx
    rintro ⟨s, l⟩ ⟨⟨now, rfl⟩, rfl⟩
    exact ⟨[], rfl, .nil, .refl _⟩
  obtain ⟨q, -, -, hsub⟩ := horder
  rw [List.filter_append, List.append_assoc] at hsub
  exact (List.sublist_append_left _ _).trans hsub

/-- A whole call of `ScheduleOnce`; `time` is the task's. -/
def State.scheduleOnce (s : State ι CallBack) (time : Int) (cbTask : CallBack) : State ι CallBack :=
  { s with
    timerTasks := ⟨time, cbTask, s.nextId⟩ ::ₘ s.timerTasks
    nextId := s.nextId + 1
    scheduler := s.scheduler.wake
    calls := s.calls + 1
    pushed := ⟨time, cbTask, s.nextId⟩ ::ₘ s.pushed }

/-- Where the list grows, the task that is pushed is later than those of `p`. -/
def ListsLater (p : TimerTask CallBack → Bool) (x y : State ι CallBack × List (TimerTask CallBack)) : Prop :=
  Listed x y ∧ PushesLater p x y

theorem scheduleOnce_listed {init : State ι CallBack × List (TimerTask CallBack) → Prop} {i : ι}
    (delayMs : UInt64) (cbTask : CallBack) {time : Int} (h : Reachable init (ListsLater p) (s, l))
    (hi : s.thread i = .idle) (htime : execTime s.now delayMs = time)
    (hlater : ∀ t' ∈ s.timerTasks, p t' → t'.execTime < time) :
    Reachable init (ListsLater p) (s.scheduleOnce time cbTask, l ++ [⟨time, cbTask, s.nextId⟩]) := by
  subst htime
  have h₁ := h.next ⟨.other (.fetchAdd i delayMs cbTask hi) rfl, pushesLater_other⟩
  have h₂ := h₁.next ⟨.other (.readClock (i := i) (Function.update_self ..)) rfl, pushesLater_other⟩
  have h₃ := h₂.next
    ⟨.push ⟨execTime s.now delayMs, cbTask, s.nextId⟩ (.push (i := i) (Function.update_self ..)) rfl,
    fun t ht _ t' ht' hp' => by
      obtain rfl : ⟨execTime s.now delayMs, cbTask, s.nextId⟩ = t :=
        List.singleton_inj.1 (List.append_cancel_left ht)
      exact hlater t' ht' hp'⟩
  have h₄ := h₃.next ⟨.other (.notifyOne (i := i) (Function.update_self ..)) rfl, pushesLater_other⟩
  have hthread : Function.update s.thread i .idle = s.thread := by rw [← hi, Function.update_eq_self]
  simp only [State.setThread, Function.update_idem, hthread] at h₄
  exact h₄

/-- The scheduler thread posts what is on top. -/
theorem post_listed {init : State ι CallBack × List (TimerTask CallBack) → Prop}
    {rest : Multiset (TimerTask CallBack)} (h : Reachable init (ListsLater p) (s, l))
    (hb : s.scheduler = .body) (hr : s.running = true) (ht : t.IsTop s.timerTasks)
    (hq : s.timerTasks = t ::ₘ rest) (hc : t.taskId ∉ s.canceledIds) (hn : s.now ≥ t.execTime) :
    Reachable init (ListsLater p)
    ({ s with timerTasks := rest, posted := s.posted ++ [t], scheduler := .body }, l) := by
  have h₁ := h.next ⟨.other (.pop rest hb ht hq hc hn) rfl, pushesLater_other⟩
  have h₂ := h₁.next ⟨.other (.postTask rfl) rfl, pushesLater_other⟩
  have h₃ := h₂.next ⟨.other (.load rfl) rfl, pushesLater_other⟩
  rw [if_pos hr] at h₃
  exact h₃

end

/-- Two tasks without delay, scheduled when the clock read 0 and `now`, and the scheduler thread at work. -/
def twoScheduled (now : Int) : State Unit Nat :=
  { ({ (({ now := 0 } : State Unit Nat).scheduleOnce 0 7) with now := now } : State Unit Nat).scheduleOnce
    now 8 with
    running := true, scheduler := .body }

theorem twoScheduled_timerTasks (now : Int) :
    (twoScheduled now).timerTasks = ⟨now, 8, 1⟩ ::ₘ {⟨0, 7, 0⟩} := rfl

theorem twoScheduled_listed {now : Int} (h : 0 ≤ now) (hnow : execTime now 0 = now) {p : TimerTask Nat → Bool}
    (hlater : ∀ t, p t → 0 < now) :
    Reachable Unlisted (ListsLater p) (twoScheduled now, [⟨0, 7, 0⟩, ⟨now, 8, 1⟩]) := by
  have h₀ : Reachable Unlisted (ListsLater p) (({ now := 0 } : State Unit Nat), []) :=
    .start ⟨⟨0, rfl⟩, rfl⟩
  have h₁ := scheduleOnce_listed (i := ()) 0 7 h₀ rfl (by decide : execTime 0 0 = 0) fun t' ht' _ =>
    absurd ht' (Multiset.notMem_zero t')
  have h₂ := h₁.next ⟨.other (.clock now h) rfl, pushesLater_other⟩
  have h₃ := scheduleOnce_listed (i := ()) 0 8 h₂ rfl hnow fun t' ht' hp => by
    have ht' : t' ∈ (⟨0, 7, 0⟩ : TimerTask Nat) ::ₘ 0 := ht'
    rcases Multiset.mem_cons.1 ht' with rfl | ht'
    · exact hlater _ hp
    · exact absurd ht' (Multiset.notMem_zero t')
  have h₄ := h₃.next ⟨.other (.start rfl (.inl rfl)) rfl, pushesLater_other⟩
  exact h₄.next ⟨.other (.load rfl) rfl, pushesLater_other⟩

/-- The theorem when the clock has advanced between the calls. -/
theorem posted_in_order_two :
    ∃ (x₀ : State Unit Nat × List (TimerTask Nat)) (run : List (State Unit Nat × List (TimerTask Nat))),
    IsRun Unlisted Listed x₀ run ∧ (x₀ :: run).IsChain (PushesLater fun _ => true) ∧
      ∃ x ∈ x₀ :: run, x.1.posted = [⟨0, 7, 0⟩] ∧ x.2 = [⟨0, 7, 0⟩, ⟨5, 8, 1⟩] ∧
        (x.1.posted.filter fun _ => true).Sublist (x.2.filter fun _ => true) := by
  have htwo :=
    twoScheduled_listed (p := fun _ => true) (by decide : (0 : Int) ≤ 5) (by decide) fun _ _ => by decide
  have hqueue : (twoScheduled 5).timerTasks = ⟨0, 7, 0⟩ ::ₘ {⟨5, 8, 1⟩} :=
    (twoScheduled_timerTasks 5).trans (Multiset.cons_swap _ _ 0)
  have htop : (⟨0, 7, 0⟩ : TimerTask Nat).IsTop (twoScheduled 5).timerTasks := by
    rw [hqueue]
    refine ⟨Multiset.mem_cons_self _ _, fun t' ht' => ?_⟩
    rcases Multiset.mem_cons.1 ht' with rfl | ht'
    · exact Int.lt_irrefl _
    · obtain rfl := Multiset.mem_singleton.1 ht'
      unfold TimerTask.lt
      decide
  have hposted := post_listed htwo rfl rfl htop hqueue (Finset.notMem_empty _) (by decide)
  obtain ⟨x₀, run, hrun, hlast⟩ := hposted.exists_run
  have hlist : IsRun Unlisted Listed x₀ run := hrun.imp fun _ _ h => h.1
  have hlater : (x₀ :: run).IsChain (PushesLater fun _ => true) := hrun.2.imp fun _ _ h => h.2
  have hmem := List.getLast_mem (List.cons_ne_nil x₀ run)
  refine ⟨x₀, run, hlist, hlater, _, hmem, ?_, ?_,
    posted_in_order (fun _ => true) x₀ run hlist hlater _ hmem⟩ <;> rw [hlast]
  rfl

/-- Both calls read the same time: the heap may give out the second task first. -/
theorem equal_times_swapped :
    ∃ (x₀ : State Unit Nat × List (TimerTask Nat)) (run : List (State Unit Nat × List (TimerTask Nat))),
    IsRun Unlisted Listed x₀ run ∧ ∃ x ∈ x₀ :: run, x.1.posted = [⟨0, 8, 1⟩, ⟨0, 7, 0⟩] ∧
      x.2 = [⟨0, 7, 0⟩, ⟨0, 8, 1⟩] ∧ ¬ x.1.posted.Sublist x.2 := by
  have htwo := twoScheduled_listed (p := fun _ => false) (Int.le_refl 0) (by decide) fun _ h => nomatch h
  have htop : (⟨0, 8, 1⟩ : TimerTask Nat).IsTop (twoScheduled 0).timerTasks := by
    rw [twoScheduled_timerTasks]
    refine ⟨Multiset.mem_cons_self _ _, fun t' ht' => ?_⟩
    rcases Multiset.mem_cons.1 ht' with rfl | ht'
    · exact Int.lt_irrefl _
    · obtain rfl := Multiset.mem_singleton.1 ht'
      exact Int.lt_irrefl _
  have hfirst := post_listed htwo rfl rfl htop (twoScheduled_timerTasks 0) (Finset.notMem_empty _) (by decide)
  have hone : ({⟨0, 7, 0⟩} : Multiset (TimerTask Nat)) = ⟨0, 7, 0⟩ ::ₘ 0 := rfl
  have hboth := post_listed hfirst rfl rfl (TimerTask.isTop_singleton ⟨0, 7, 0⟩) hone
    (Finset.notMem_empty _) (by decide)
  obtain ⟨x₀, run, hrun, hlast⟩ := hboth.exists_run
  refine ⟨x₀, run, hrun.imp fun _ _ h => h.1, _, List.getLast_mem (List.cons_ne_nil x₀ run), ?_⟩
  rw [hlast]
  refine ⟨rfl, rfl, fun h => ?_⟩
  have heq := h.eq_of_length rfl
  exact absurd (congrArg (fun l => l.map TimerTask.callback) heq) (by decide)

end TimerScheduler

end NebulaToolkit
