import NebulaToolkit.TimerScheduler
/-!
# Canceling

`Cancel` looks at neither the queue nor its own set: it stores the id and says
`true`. The id is taken out of the set when its task is discarded, so it stays
there for good when there is no such task, or waits for the task that will get
it. Where every call is for a task of the queue that was not canceled before,
the answers are true and the set holds ids of the queue only
(`cancel_truthful_iff`).
-/

namespace NebulaToolkit

open Lib

namespace TimerScheduler

variable {ι CallBack : Type} {s s' : State ι CallBack}

/-- `Cancel(task_id)` -/
def State.cancel (s : State ι CallBack) (taskId : UInt64) : Bool × State ι CallBack :=
  (true, { s with
    canceledIds := insert taskId s.canceledIds
    cancels := insert taskId s.cancels
    hit := s.timerTasks.filter (·.taskId = taskId) + s.hit })

/-- A task with this id is in `timer_tasks_`. -/
def State.Pending (s : State ι CallBack) (taskId : UInt64) : Prop := ∃ t ∈ s.timerTasks, t.taskId = taskId

/-- The canceled ids are those of tasks in the queue, and only tasks that were in the
queue when `Cancel` was called with their id are discarded, or will be. -/
structure Clean (s : State ι CallBack) : Prop where
  pending : ∀ taskId ∈ s.canceledIds, s.Pending taskId
  discarded : ∀ t ∈ s.discarded, t ∈ s.hit
  marked : ∀ t ∈ s.timerTasks, t.taskId ∈ s.canceledIds → t ∈ s.hit

section
variable [DecidableEq ι]

/-- A step that is no call of `Cancel`. -/
structure Quiet (s s' : State ι CallBack) : Prop where
  step : Step s s'
  canceledIds : s'.canceledIds ⊆ s.canceledIds
  cancels : s'.cancels = s.cancels
  hit : s'.hit = s.hit

/-- The steps, with the id of `Cancel` where that is what the step is. -/
inductive Act : Option UInt64 × State ι CallBack → Option UInt64 × State ι CallBack → Prop
  | cancel {c : Option UInt64} {s : State ι CallBack} (taskId : UInt64) : Act (c, s)
      (some taskId, (s.cancel taskId).2)
  | other {c : Option UInt64} {s s' : State ι CallBack} : Quiet s s' → Act (c, s) (none, s')

theorem step_iff : Step s s' ↔ (∃ taskId, s' = (s.cancel taskId).2) ∨ Quiet s s' := by
  constructor
  · intro h
    cases h with
    | cancel taskId => exact .inl ⟨taskId, rfl⟩
    | discard rest hl ht hq hmem =>
      exact .inr ⟨.discard rest hl ht hq hmem, Finset.erase_subset _ _, rfl, rfl⟩
    | fetchAdd i delayMs cbTask ht => exact .inr ⟨.fetchAdd i delayMs cbTask ht, subset_rfl, rfl, rfl⟩
    | readClock ht => exact .inr ⟨.readClock ht, subset_rfl, rfl, rfl⟩
    | push ht => exact .inr ⟨.push ht, subset_rfl, rfl, rfl⟩
    | notifyOne ht => exact .inr ⟨.notifyOne ht, subset_rfl, rfl, rfl⟩
    | start hr hl => exact .inr ⟨.start hr hl, subset_rfl, rfl, rfl⟩
    | stop ht hr => exact .inr ⟨.stop ht hr, subset_rfl, rfl, rfl⟩
    | clearRunning ht => exact .inr ⟨.clearRunning ht, subset_rfl, rfl, rfl⟩
    | notifyAll ht => exact .inr ⟨.notifyAll ht, subset_rfl, rfl, rfl⟩
    | join ht hl => exact .inr ⟨.join ht hl, subset_rfl, rfl, rfl⟩
    | clock now hn => exact .inr ⟨.clock now hn, subset_rfl, rfl, rfl⟩
    | wakeUp => exact .inr ⟨.wakeUp, subset_rfl, rfl, rfl⟩
    | load hl => exact .inr ⟨.load hl, subset_rfl, rfl, rfl⟩
    | waitEmpty hl hq => exact .inr ⟨.waitEmpty hl hq, subset_rfl, rfl, rfl⟩
    | waitEnds hl hp => exact .inr ⟨.waitEnds hl hp, subset_rfl, rfl, rfl⟩
    | waitAgain hl hr hq => exact .inr ⟨.waitAgain hl hr hq, subset_rfl, rfl, rfl⟩
    | pop rest hl ht hq hmem hn => exact .inr ⟨.pop rest hl ht hq hmem hn, subset_rfl, rfl, rfl⟩
    | waitUntil hl ht hc hn => exact .inr ⟨.waitUntil hl ht hc hn, subset_rfl, rfl, rfl⟩
    | postTask hf => exact .inr ⟨.postTask hf, subset_rfl, rfl, rfl⟩
  · rintro (⟨taskId, rfl⟩ | h)
    · exact .cancel taskId
    · exact h.step

theorem Act.step {x y : Option UInt64 × State ι CallBack} (h : Act x y) : Step x.2 y.2 := by
  cases h with
  | cancel taskId => exact .cancel taskId
  | other hq => exact hq.step

/-- A new scheduler. -/
def Begin (x : Option UInt64 × State ι CallBack) : Prop := x.1 = none ∧ Start x.2

/-- Nothing is left out: what the scheduler reaches, it reaches by these steps. -/
theorem reachable_act (h : Reachable Start Step s) : ∃ c, Reachable Begin Act (c, s) := by
  refine h.inv (I := fun s => ∃ c, Reachable Begin Act (c, s)) (fun s hs => ⟨none, .start ⟨rfl, hs⟩⟩) ?_
  rintro s s' - ⟨c, hc⟩ hs
  rcases step_iff.1 hs with ⟨taskId, rfl⟩ | hq
  · exact ⟨_, hc.next (.cancel taskId)⟩
  · exact ⟨_, hc.next (.other hq)⟩

/-! ## What keeps the set clean -/

omit [DecidableEq ι] in
theorem Clean.of_same (h : Clean s) (hq : s'.timerTasks = s.timerTasks) (hc : s'.canceledIds = s.canceledIds)
    (hd : s'.discarded = s.discarded) (hh : s'.hit = s.hit) : Clean s' := by
  refine ⟨?_, ?_, ?_⟩
  · unfold State.Pending
    rw [hc, hq]
    exact h.pending
  · rw [hd, hh]
    exact h.discarded
  · rw [hq, hc, hh]
    exact h.marked

omit [DecidableEq ι] in
theorem cancel_clean (h : Clean s) {taskId : UInt64} (hp : s.Pending taskId) : Clean (s.cancel taskId).2 := by
  refine ⟨fun id hid => ?_, fun t ht => Multiset.mem_add.2 (.inr (h.discarded t ht)), fun t ht hid => ?_⟩
  · rcases Finset.mem_insert.1 hid with rfl | hid
    · exact hp
    · exact h.pending id hid
  · refine Multiset.mem_add.2 ?_
    rcases Finset.mem_insert.1 hid with hid | hid
    · exact .inl (Multiset.mem_filter.2 ⟨ht, hid⟩)
    · exact .inr (h.marked t ht hid)

omit [DecidableEq ι] in
/-- A new task has an id of its own. -/
theorem push_clean (hi : Inv s) (h : Clean s) {i : ι} {t : TimerTask CallBack} (ht : s.thread i = .timed t)
    (hq : s'.timerTasks = t ::ₘ s.timerTasks) (hc : s'.canceledIds = s.canceledIds)
    (hd : s'.discarded = s.discarded) (hh : s'.hit = s.hit) : Clean s' := by
  have hid : (s.thread i).taskId? = some t.taskId := by rw [ht]; rfl
  have hpushed (t' : TimerTask CallBack) (ht' : t' ∈ s.timerTasks) : t' ∈ s.pushed := by
    rw [← hi.conserved]
    simp only [Multiset.mem_add]
    exact .inl (.inl (.inl ht'))
  refine ⟨fun id hmem => ?_, ?_, fun t' ht' hmem => ?_⟩
  · rw [hc] at hmem
    obtain ⟨t', ht', rfl⟩ := h.pending id hmem
    exact ⟨t', hq ▸ Multiset.mem_cons_of_mem ht', rfl⟩
  · rw [hd, hh]
    exact h.discarded
  · rw [hc] at hmem
    rw [hh]
    rw [hq] at ht'
    rcases Multiset.mem_cons.1 ht' with rfl | ht'
    · obtain ⟨t₀, ht₀, he⟩ := h.pending _ hmem
      exact absurd (he ▸ Multiset.mem_map_of_mem _ (hpushed t₀ ht₀)) (hi.drawn_fresh i _ hid)
    · exact h.marked t' ht' hmem

section
variable {t : TimerTask CallBack} {rest : Multiset (TimerTask CallBack)} (hq : s.timerTasks = t ::ₘ rest)
include hq

omit [DecidableEq ι] in
theorem discard_clean (h : Clean s) (hmem : t.taskId ∈ s.canceledIds) : Clean { s with
    timerTasks := rest
    canceledIds := s.canceledIds.erase t.taskId
    discarded := t ::ₘ s.discarded
    scheduler := .head } := by
  have hrest (t' : TimerTask CallBack) (ht' : t' ∈ rest) : t' ∈ s.timerTasks :=
    hq ▸ Multiset.mem_cons_of_mem ht'
  refine ⟨fun id hid => ?_, fun t' ht' => ?_,
    fun t' ht' hid => h.marked t' (hrest t' ht') (Finset.mem_of_mem_erase hid)⟩
  · obtain ⟨hne, hid⟩ := Finset.mem_erase.1 hid
    obtain ⟨t', ht', rfl⟩ := h.pending id hid
    rw [hq] at ht'
    rcases Multiset.mem_cons.1 ht' with rfl | ht'
    · exact absurd rfl hne
    · exact ⟨t', ht', rfl⟩
  · rcases Multiset.mem_cons.1 ht' with rfl | ht'
    · exact h.marked t' (hq ▸ Multiset.mem_cons_self _ _) hmem
    · exact h.discarded t' ht'

omit [DecidableEq ι] in
theorem pop_clean (h : Clean s) (hmem : t.taskId ∉ s.canceledIds) :
    Clean { s with timerTasks := rest, scheduler := .flying t } := by
  refine ⟨fun id hid => ?_, h.discarded,
    fun t' ht' hid => h.marked t' (hq ▸ Multiset.mem_cons_of_mem ht') hid⟩
  obtain ⟨t', ht', rfl⟩ := h.pending id hid
  rw [hq] at ht'
  rcases Multiset.mem_cons.1 ht' with rfl | ht'
  · exact absurd hid hmem
  · exact ⟨t', ht', rfl⟩

end

theorem Quiet.clean (hi : Inv s) (h : Clean s) (hs : Quiet s s') : Clean s' := by
  obtain ⟨hstep, hsub, -, hhit⟩ := hs
  cases hstep with
  | cancel taskId => exact h.of_same rfl (subset_antisymm hsub (Finset.subset_insert _ _)) rfl hhit
  | push ht => exact push_clean hi h ht rfl rfl rfl rfl
  | discard rest hl ht hq hmem => exact discard_clean hq h hmem
  | pop rest hl ht hq hmem hn => exact pop_clean hq h hmem
  | fetchAdd | readClock | notifyOne | start | stop | clearRunning | notifyAll | join | clock | wakeUp | load
  | waitEmpty | waitEnds | waitAgain | waitUntil | postTask => exact h.of_same rfl rfl rfl rfl

/-! ## The main result -/

/-- `Cancel` says whether the task was in the queue and not canceled yet. -/
def Truthful (x y : Option UInt64 × State ι CallBack) : Prop :=
  ∀ taskId, y.1 = some taskId →
  ((x.2.cancel taskId).1 = true ↔ x.2.Pending taskId ∧ taskId ∉ x.2.canceledIds)

/-- `Cancel` is called for a task that is in the queue and not canceled yet. -/
def Timely (x y : Option UInt64 × State ι CallBack) : Prop :=
  ∀ taskId, y.1 = some taskId → x.2.Pending taskId ∧ taskId ∉ x.2.canceledIds

theorem act_clean {x y : Option UInt64 × State ι CallBack} (hi : Inv x.2) (h : Clean x.2) (hs : Act x y)
    (ht : Timely x y) :
    Clean y.2 := by
  cases hs with
  | cancel taskId => exact cancel_clean h (ht taskId rfl).1
  | other hq => exact hq.clean hi h

/-- In a run of fewer than `2 ^ 64` calls of `ScheduleOnce`, every answer of `Cancel` is
true and every state clean, if and only if every `Cancel` is timely. -/
theorem cancel_truthful_iff (x₀ : Option UInt64 × State ι CallBack)
    (run : List (Option UInt64 × State ι CallBack)) (h : IsRun Begin Act x₀ run)
    (hc : ∀ x ∈ x₀ :: run, x.2.calls < 2 ^ 64) :
    ((x₀ :: run).IsChain Truthful ∧ ∀ x ∈ x₀ :: run, Clean x.2) ↔ (x₀ :: run).IsChain Timely := by
  constructor
  · rintro ⟨htruth, -⟩
    exact htruth.imp fun x y hxy taskId hy => (hxy taskId hy).1 rfl
  · intro htime
    refine ⟨htime.imp fun x y hxy taskId hy => iff_of_true rfl (hxy taskId hy), fun x hx => ?_⟩
    have hinv : x.2.calls < 2 ^ 64 → Inv x.2 ∧ Clean x.2 := by
      refine (h.and htime).inv (I := fun x => x.2.calls < 2 ^ 64 → Inv x.2 ∧ Clean x.2) ?_ ?_ x hx
      · rintro ⟨c, s⟩ ⟨-, hs⟩ -
        refine ⟨start_inv hs, ?_⟩
        obtain ⟨now, rfl⟩ := hs
        refine ⟨fun id hid => absurd hid (Finset.notMem_empty id),
          fun t ht => absurd ht (Multiset.notMem_zero t), fun t ht => absurd ht (Multiset.notMem_zero t)⟩
      · rintro x y hx ⟨hs, ht⟩ hlt
        obtain ⟨hi, hclean⟩ := hx (Nat.lt_of_le_of_lt hs.step.calls_le hlt)
        exact ⟨step_inv hi hs.step hlt, act_clean hi hclean hs ht⟩
    exact (hinv (hc x hx)).2

/-- The theorem for a task that is canceled in the queue and discarded. -/
theorem cancel_truthful_one :
    ∃ (x₀ : Option UInt64 × State Unit Nat) (run : List (Option UInt64 × State Unit Nat)),
    IsRun Begin Act x₀ run ∧ (x₀ :: run).IsChain Timely ∧ (∀ x ∈ x₀ :: run, Clean x.2) ∧
      ∃ x ∈ run, x.1 = some 0 ∧ ∃ y ∈ run, y.2.discarded.card = 1 := by
  let t : TimerTask Nat := ⟨execTime 0 1000, 7, 0⟩
  let a₀ : State Unit Nat := { now := 0 }
  let a₁ : State Unit Nat := { a₀.setThread () (.drawn 0 1000 7) with nextId := 1, calls := 1 }
  let a₂ := a₁.setThread () (.timed t)
  let a₃ : State Unit Nat := { a₂.setThread () .notifyOne with timerTasks := t ::ₘ 0, pushed := t ::ₘ 0 }
  let a₄ := (a₃.cancel 0).2
  let a₅ : State Unit Nat := { a₄ with running := true, scheduler := .head }
  let a₆ : State Unit Nat := { a₅ with scheduler := .body }
  let a₇ : State Unit Nat := { a₆ with
    timerTasks := 0, canceledIds := a₆.canceledIds.erase 0, discarded := t ::ₘ 0, scheduler := .head }
  let run : List (Option UInt64 × State Unit Nat) :=
    [(none, a₁), (none, a₂), (none, a₃), (some 0, a₄), (none, a₅), (none, a₆), (none, a₇)]
  have hrun : IsRun Begin Act (none, a₀) run := by
    refine ⟨⟨rfl, 0, rfl⟩, ?_⟩
    refine .cons_cons (.other ⟨.fetchAdd () 1000 7 rfl, subset_rfl, rfl, rfl⟩) ?_
    refine .cons_cons (.other ⟨.readClock (i := ()) rfl, subset_rfl, rfl, rfl⟩) ?_
    refine .cons_cons (.other ⟨.push (i := ()) rfl, subset_rfl, rfl, rfl⟩) ?_
    refine .cons_cons (.cancel 0) ?_
    refine .cons_cons (.other ⟨.start rfl (.inl rfl), subset_rfl, rfl, rfl⟩) ?_
    refine .cons_cons (.other ⟨.load rfl, subset_rfl, rfl, rfl⟩) ?_
    exact .cons_cons
      (.other ⟨.discard (s := a₆) (t := t) 0 rfl t.isTop_singleton rfl (Finset.mem_insert_self _ _),
      Finset.erase_subset _ _, rfl, rfl⟩) (.singleton _)
  have htimely : ((none, a₀) :: run).IsChain Timely := by
    iterate 3 refine .cons_cons (fun _ h => by cases h) ?_
    refine .cons_cons (fun id hid => ?_) ?_
    · cases hid
      exact ⟨⟨t, Multiset.mem_cons_self t 0, rfl⟩, Finset.notMem_empty _⟩
    iterate 3 refine .cons_cons (fun _ h => by cases h) ?_
    exact .singleton _
  have hcalls : ∀ x ∈ (none, a₀) :: run, x.2.calls < 2 ^ 64 := by
    simp only [run, List.forall_mem_cons]
    exact ⟨by decide, by decide, by decide, by decide, by decide, by decide, by decide, by decide, by simp⟩
  have hclean := ((cancel_truthful_iff _ _ hrun hcalls).2 htimely).2
  exact ⟨_, _, hrun, htimely, hclean, (some 0, a₄), by simp [run], rfl, (none, a₇), by simp [run], rfl⟩

/-- `Cancel(0)` on an empty queue says `true`; the first task scheduled afterwards gets
the id 0 and is thrown away. -/
theorem stale_cancel_kills :
    ∃ (x₀ : Option UInt64 × State Unit Nat) (run : List (Option UInt64 × State Unit Nat)),
    IsRun Begin Act x₀ run ∧ (∀ x ∈ x₀ :: run, x.2.calls < 2 ^ 64) ∧ ¬ (x₀ :: run).IsChain Truthful ∧
      ∃ x ∈ run, ∃ t ∈ x.2.discarded, t ∉ x.2.hit := by
  let t : TimerTask Nat := ⟨execTime 0 1000, 7, 0⟩
  let a₀ : State Unit Nat := { now := 0 }
  let a₁ := (a₀.cancel 0).2
  let a₂ : State Unit Nat := { a₁.setThread () (.drawn 0 1000 7) with nextId := 1, calls := 1 }
  let a₃ := a₂.setThread () (.timed t)
  let a₄ : State Unit Nat := { a₃.setThread () .notifyOne with timerTasks := t ::ₘ 0, pushed := t ::ₘ 0 }
  let a₅ : State Unit Nat := { a₄ with running := true, scheduler := .head }
  let a₆ : State Unit Nat := { a₅ with scheduler := .body }
  let a₇ : State Unit Nat := { a₆ with
    timerTasks := 0, canceledIds := a₆.canceledIds.erase 0, discarded := t ::ₘ 0, scheduler := .head }
  refine ⟨(none, a₀),
    [(some 0, a₁), (none, a₂), (none, a₃), (none, a₄), (none, a₅), (none, a₆), (none, a₇)],
    ⟨⟨rfl, 0, rfl⟩, ?_⟩, ?_, ?_, (none, a₇), by
    simp, t, Multiset.mem_cons_self t 0, Multiset.notMem_zero t⟩
  · refine .cons_cons (.cancel 0) ?_
    refine .cons_cons (.other ⟨.fetchAdd () 1000 7 rfl, subset_rfl, rfl, rfl⟩) ?_
    refine .cons_cons (.other ⟨.readClock (i := ()) rfl, subset_rfl, rfl, rfl⟩) ?_
    refine .cons_cons (.other ⟨.push (i := ()) rfl, subset_rfl, rfl, rfl⟩) ?_
    refine .cons_cons (.other ⟨.start rfl (.inl rfl), subset_rfl, rfl, rfl⟩) ?_
    refine .cons_cons (.other ⟨.load rfl, subset_rfl, rfl, rfl⟩) ?_
    exact .cons_cons
      (.other ⟨.discard (s := a₆) (t := t) 0 rfl t.isTop_singleton rfl (Finset.mem_insert_self _ _),
      Finset.erase_subset _ _, rfl, rfl⟩) (.singleton _)
  · simp only [List.forall_mem_cons]
    exact ⟨by decide, by decide, by decide, by decide, by decide, by decide, by decide, by decide, by simp⟩
  · intro h
    obtain ⟨⟨t', ht', -⟩, -⟩ := ((List.isChain_cons_cons.1 h).1 0 rfl).1 rfl
    exact Multiset.notMem_zero t' ht'

end

end TimerScheduler

end NebulaToolkit
