import Mathlib.Data.Finset.Option
import NebulaToolkit.Callbacks
/-!
# The end of the reactor

`~ReactorCore` closes every descriptor that has a key (`destructor_closes`).
Then its members go, the last declared first: `timer_shceduler_`, and the
handlers after it, in the order of the table. A handler whose `HandleEvent` was
called holds `timer_shceduler_` as well, so scheduler and pool end with the
last handler that does, and until then they run tasks (`teardown_sound_iff`).
-/

namespace NebulaToolkit

open Lib

namespace EventLoop

variable {s s' : State}

/-! ## Descriptors -/

/-- `close(epoll_fd_)`, then `close(handler.first)` for the keys in the table's order. -/
def State.closeAll (s : State) (keys : List Int) : State :=
  keys.foldl State.close { s with epoll := ∅, epoll_open := fun _ hx => absurd hx (Finset.notMem_empty _) }

/-- The keys of `protocol_handlers_`, each once. -/
def State.Lists (s : State) (keys : List Int) : Prop :=
  keys.Nodup ∧ ∀ fd, fd ∈ keys ↔ (s.protocolHandlers fd).isSome

/-- What closing leaves as it is. -/
structure SameTable (s s' : State) : Prop where
  handlers : s'.protocolHandlers = s.protocolHandlers
  orphans : s'.orphans = s.orphans
  stale : s'.stale = s.stale

theorem closes_table (keys : List Int) (s : State) : SameTable s (keys.foldl State.close s) := by
  induction keys generalizing s with
  | nil => exact ⟨rfl, rfl, rfl⟩
  | cons fd keys ih =>
    obtain ⟨hhandlers, horphans, hstale⟩ := ih (s.close fd)
    exact ⟨hhandlers, horphans, hstale⟩

theorem closeAll_table (s : State) (keys : List Int) : SameTable s (s.closeAll keys) := by
  obtain ⟨hhandlers, horphans, hstale⟩ :=
    closes_table keys { s with epoll := ∅, epoll_open := fun _ hx => absurd hx (Finset.notMem_empty _) }
  exact ⟨hhandlers, horphans, hstale⟩

/-- Open descriptors closed one after the other: nothing is closed twice, and the others stay open. -/
theorem closes_spec {keys : List Int} (hn : keys.Nodup) (s : State)
    (hopen : ∀ fd ∈ keys, fd ∈ s.accepted ∨ fd ∈ s.own) :
    (keys.foldl State.close s).badCloses = s.badCloses ∧
      (∀ x, x ∈ (keys.foldl State.close s).accepted ↔ x ∈ s.accepted ∧ x ∉ keys) ∧
      (∀ x, x ∈ (keys.foldl State.close s).own ↔ x ∈ s.own ∧ x ∉ keys) ∧
      (s.epoll = ∅ → (keys.foldl State.close s).epoll = ∅) := by
  induction keys generalizing s with
  | nil => simp
  | cons fd keys ih =>
    obtain ⟨hfd, hn⟩ := List.nodup_cons.1 hn
    have hopen' : ∀ x ∈ keys, x ∈ (s.close fd).accepted ∨ x ∈ (s.close fd).own := by
      intro x hx
      have hne : x ≠ fd := fun he => hfd (he ▸ hx)
      exact (hopen x (List.mem_cons_of_mem fd hx)).imp (fun h => Finset.mem_erase.2 ⟨hne, h⟩)
        fun h => Finset.mem_erase.2 ⟨hne, h⟩
    obtain ⟨hbad, hacc, hown, hep⟩ := ih hn (s.close fd) hopen'
    rw [List.foldl_cons]
    refine ⟨?_, fun x => ?_, fun x => ?_, fun he => hep ?_⟩
    · rw [hbad]
      exact if_pos (hopen fd List.mem_cons_self)
    · rw [hacc, List.mem_cons, not_or]
      show x ∈ s.accepted.erase fd ∧ _ ↔ _
      rw [Finset.mem_erase]
      tauto
    · rw [hown, List.mem_cons, not_or]
      show x ∈ s.own.erase fd ∧ _ ↔ _
      rw [Finset.mem_erase]
      tauto
    · show s.epoll.erase fd = ∅
      rw [he, Finset.erase_empty]

/-- What holds of keys and descriptors in every run, whatever fails. -/
structure Kept (s : State) : Prop where
  keys : ∀ fd, fd ∈ s.epoll ↔ (s.protocolHandlers fd).isSome
  once : s.badCloses = 0

theorem Kept.of_same (h : Kept s)
    (hk : ∀ fd, (s'.protocolHandlers fd).isSome = (s.protocolHandlers fd).isSome)
    (he : s'.epoll = s.epoll) (hb : s'.badCloses = s.badCloses) : Kept s' :=
  ⟨fun fd => by rw [he, hk]; exact h.keys fd, hb.trans h.once⟩

theorem Registered.kept {fd : Int} {handler : Option ProtocolHandler} (hr : Registered s fd handler s')
    (h : Kept s) :
    Kept s' := by
  refine ⟨fun x => ?_, hr.badCloses.trans h.once⟩
  rw [hr.epoll, hr.handlers, Finset.mem_insert]
  by_cases hx : x = fd
  · subst hx
    rw [Function.update_self]
    exact iff_of_true (.inl rfl) rfl
  · rw [Function.update_of_ne hx, or_iff_right hx]
    exact h.keys x

theorem unregisterFd_kept (h : Kept s) {fd : Int} (hfd : fd ∈ s.epoll) : Kept (s.unregisterFd fd) := by
  refine ⟨fun x => ?_, ?_⟩
  · show x ∈ (s.epoll.erase fd).erase fd ↔ (Function.update s.protocolHandlers fd none x).isSome
    by_cases hx : x = fd
    · subst hx
      rw [Function.update_self]
      exact iff_of_false (Finset.notMem_erase x _) nofun
    · rw [Function.update_of_ne hx, Finset.mem_erase, Finset.mem_erase, and_iff_right hx, and_iff_right hx]
      exact h.keys x
  · show (if fd ∈ s.accepted ∨ fd ∈ s.own then s.badCloses else s.badCloses + 1) = 0
    rw [if_pos (s.epoll_open fd hfd)]
    exact h.once

/-- A descriptor of a connection is registered by the caller. -/
def Adopts (s s' : State) : Prop :=
  ∃ fd handler isListener os, fd ∈ s.accepted ∧ s.registerProtocol fd handler isListener os = .ok s'

/-- The connections that are open are in the epoll set. -/
def Complete (s : State) : Prop := s.accepted ⊆ s.epoll

theorem step_kept (h : Kept s) (hs : Step s s') : Kept s' := by
  cases hs with
  | socket | keep | runOrphan => exact h.of_same (fun _ => rfl) rfl rfl
  | registerProtocol fd handler isListener os hnew =>
    rcases registerProtocol_cases s fd handler isListener os with ⟨e, he⟩ | ⟨s₁, he, hr⟩ <;> rw [he]
    · exact h
    · exact hr.kept h
  | newConnection listenFd connFd os =>
    rcases createConnHandler_cases
      (s.accept connFd) connFd os with ⟨e, params, he⟩ | ⟨params, handler, s₁, he, hr⟩ <;> rw [he]
    · exact h.of_same (fun _ => rfl) rfl rfl
    · exact hr.kept (h.of_same (fun _ => rfl) rfl rfl)
  | handleEvent flags _ _ hp | pass _ hp | runTask hp => exact h.of_same (setHandler_isSome hp) rfl rfl
  | unregister _ hp =>
    refine (unregisterFd_kept h ((h.keys _).2 ?_)).of_same (fun _ => rfl) rfl rfl
    rw [hp]
    rfl

/-- A failed registration shows in the descriptors: there is one more, which is not watched. -/
theorem not_leaks_of_watched (h : s'.accepted ⊆ s.accepted ∨ s.epoll ⊂ s'.epoll) : ¬ Leaks s s' := by
  intro hl
  obtain ⟨connFd, ha, -, hacc, -, hep⟩ := hl.left
  rcases h with hsub | hgrows
  · exact ha (hsub (hacc ▸ Finset.mem_insert_self connFd s.accepted))
  · rw [hep] at hgrows
    exact hgrows.2 (Finset.Subset.refl _)

/-- What a step does to a connection that is not watched: none comes but by a failed
registration, and none goes unless the caller registers it. -/
theorem step_complete (h : Kept s) (hs : Step s s') (ha : ¬ Adopts s s') :
    Complete s' ↔ Complete s ∧ ¬ Leaks s s' := by
  have same (hacc : s'.accepted = s.accepted) (hep : s'.epoll = s.epoll) : Complete s' ↔
      Complete s ∧ ¬ Leaks s s' := by
    rw [and_iff_left (not_leaks_of_watched (.inl hacc.subset))]
    unfold Complete
    rw [hacc, hep]
  cases hs with
  | socket | keep | handleEvent | pass | runTask | runOrphan => exact same rfl rfl
  | registerProtocol fd handler isListener os hnew =>
    rcases registerProtocol_cases s fd handler isListener os with ⟨e, he⟩ | ⟨s₁, he, hr⟩ <;>
      rw [he] at same ha ⊢
    · exact same rfl rfl
    · have hfd : fd ∉ s.accepted := fun hin => ha ⟨fd, handler, isListener, os, hin, he⟩
      show Complete s₁ ↔ Complete s ∧ ¬ Leaks s s₁
      rw [and_iff_left (not_leaks_of_watched (.inl hr.accepted.subset))]
      unfold Complete
      rw [hr.accepted, hr.epoll]
      refine ⟨fun hsub x hx => ?_, fun hsub => hsub.trans (Finset.subset_insert fd s.epoll)⟩
      exact (Finset.mem_insert.1 (hsub hx)).resolve_left fun he => hfd (he ▸ hx)
  | newConnection listenFd connFd os hc hlisten hnew hown =>
    have hout : connFd ∉ s.epoll := fun hin => (s.epoll_open connFd hin).elim hnew hown
    rcases createConnHandler_cases (s.accept connFd) connFd os with
      ⟨e, params, he⟩ | ⟨params, handler, s₁, he, hr⟩
    · refine iff_of_false (fun hsub => hout ?_) fun hno =>
        hno.2 ⟨connFd, os, e, hnew, hown, he.trans (by rw [he])⟩
      rw [he] at hsub
      exact hsub (Finset.mem_insert_self connFd s.accepted)
    · rw [he]
      have hep : s₁.epoll = insert connFd s.epoll := hr.epoll
      have hacc : s₁.accepted = insert connFd s.accepted := hr.accepted
      rw [and_iff_left (not_leaks_of_watched (.inr (hep ▸ Finset.ssubset_insert hout)))]
      show s₁.accepted ⊆ s₁.epoll ↔ s.accepted ⊆ s.epoll
      rw [hacc, hep]
      exact Finset.insert_subset_insert_iff hnew
  | @unregister fd _ _ hp =>
    have hfd : fd ∈ s.epoll := (h.keys fd).2 (by rw [hp]; rfl)
    show s.accepted.erase fd ⊆ (s.epoll.erase fd).erase fd ↔ _
    rw [Finset.erase_idem, and_iff_left (not_leaks_of_watched (.inl (Finset.erase_subset fd _)))]
    refine ⟨fun hsub x hx => ?_, fun hsub => Finset.erase_subset_erase fd hsub⟩
    by_cases hx' : x = fd
    · exact hx' ▸ hfd
    · exact Finset.mem_of_mem_erase (hsub (Finset.mem_erase.2 ⟨hx', hx⟩))

/-- The keys of the reactor with a listener and a connection. -/
theorem connected_lists : (connected {} {}).Lists [5, 3] := by
  refine ⟨by decide, fun fd => ?_⟩
  have hp : (connected {} {}).protocolHandlers =
      Function.update (listening {}).protocolHandlers 5 (some (some _)) :=
    rfl
  rw [hp]
  by_cases h₅ : fd = 5
  · simp [h₅]
  · by_cases h₃ : fd = 3 <;> simp [listening, h₅, h₃]

/-- At the end of a run the destructor closes every descriptor that is registered, each once, and
no other. Where the caller registers only sockets of its own, no connection
stays open if and only if no registration of one has failed. -/
theorem destructor_closes (params : ConnParams) (s₀ : State) (run : List State)
    (h : IsRun (Start params) Step s₀ run) (keys : List Int)
    (hkeys : ((s₀ :: run).getLast (List.cons_ne_nil _ _)).Lists keys) :
    let s := (s₀ :: run).getLast (List.cons_ne_nil _ _)
    let t := s.closeAll keys
    t.badCloses = 0 ∧ t.epoll = ∅ ∧ (∀ fd, fd ∈ t.accepted ↔ fd ∈ s.accepted ∧ fd ∉ s.epoll) ∧
      (∀ fd, fd ∈ t.own ↔ fd ∈ s.own ∧ fd ∉ s.epoll) ∧
      (((s₀ :: run).IsChain fun s s' => ¬ Adopts s s') →
        (t.accepted = ∅ ↔ (s₀ :: run).IsChain fun s s' => ¬ Leaks s s')) := by
  have hstart : ∀ s, Start params s → Kept s := by
    rintro s rfl
    exact ⟨fun fd => iff_of_false (Finset.notMem_empty fd) nofun, rfl⟩
  have hkept := h.inv hstart (fun _ _ => step_kept) _ (List.getLast_mem (List.cons_ne_nil s₀ run))
  have hcomplete (hown : (s₀ :: run).IsChain fun s s' => ¬ Adopts s s') :
      Complete ((s₀ :: run).getLast (List.cons_ne_nil _ _)) ↔
      (s₀ :: run).IsChain fun s s' => ¬ Leaks s s' := by
    refine ((h.strengthen hstart fun _ _ => step_kept).and hown).last_iff (Q := Complete) ?_ fun s s' hs => ?_
    · rintro s ⟨-, rfl⟩
      exact Finset.empty_subset _
    · exact step_complete hs.1.1 hs.1.2 hs.2
  intro s t
  have hmem (fd : Int) : fd ∈ keys ↔ fd ∈ s.epoll := (hkeys.2 fd).trans (hkept.keys fd).symm
  obtain ⟨hbad, hacc, hownmem, hep⟩ := closes_spec hkeys.1
    { s with epoll := ∅, epoll_open := fun _ hx => absurd hx (Finset.notMem_empty _) }
    fun fd hfd => s.epoll_open fd ((hmem fd).1 hfd)
  have hacc' (fd : Int) : fd ∈ t.accepted ↔ fd ∈ s.accepted ∧ fd ∉ s.epoll := by
    rw [← hmem fd]; exact hacc fd
  refine ⟨hbad.trans hkept.once, hep rfl, hacc', fun fd => by rw [← hmem fd]; exact hownmem fd,
    fun hown => ?_⟩
  rw [← hcomplete hown, Finset.eq_empty_iff_forall_notMem]
  refine forall_congr' fun fd => ?_
  rw [hacc' fd, not_and_not_right]

/-- The theorem for a listener and a connection. -/
theorem destructor_closes_two : ((connected {} {}).closeAll [5, 3]).badCloses = 0 ∧
    ((connected {} {}).closeAll [5, 3]).accepted = ∅ ∧ 3 ∉ ((connected {} {}).closeAll [5, 3]).own := by
  obtain ⟨hbad, -, -, hown, hall⟩ := destructor_closes {} _ _ (connected_run {} {}) [5, 3] connected_lists
  have hadopts {s s' : State} (h0 : s.accepted = ∅) : ¬ Adopts s s' := by
    rintro ⟨fd, handler, isListener, os, hin, -⟩
    rw [h0] at hin
    exact Finset.notMem_empty fd hin
  refine ⟨hbad, (hall ?_).2 ?_, fun hin => ((hown 3).1 hin).2 (by decide)⟩
  · exact .cons_cons (hadopts rfl) <| .cons_cons (hadopts rfl) <| .cons_cons (hadopts rfl) (.singleton _)
  · exact .cons_cons (not_leaks_of_accepted rfl) <| .cons_cons (not_leaks_of_accepted rfl) <|
      .cons_cons (not_leaks_of_watched (.inr (by decide))) (.singleton _)

end EventLoop

namespace Teardown

open Dispatch (Counts)

variable {ι α : Type} {n : Nat}

/-! ## Who holds the scheduler -/

/-- The handlers that hold `timer_shceduler_`, after a step that led to `loop`: those that
did before or whose `HandleEvent` has been called, as far as they are there. -/
def holding (loop : EventLoop.State) (holders : Finset Int) : Finset Int :=
  (holders ∪ loop.current.toFinset).filter fun fd => ((loop.protocolHandlers fd).bind id).isSome

/-- A new program: nobody but the reactor holds `timer_shceduler_`. -/
def HeldStart (params : ConnParams) (x : Dispatch.State ι α n × Finset Int) : Prop :=
  Dispatch.Start params x.1 ∧ x.2 = ∅

/-- A step of the program, with the handlers that hold `timer_shceduler_`. -/
def Held [DecidableEq ι] (r : ι) (x y : Dispatch.State ι α n × Finset Int) : Prop :=
  Dispatch.Step r x.1 y.1 ∧ y.2 = holding y.1.loop x.2

structure State (ι α : Type) (n : Nat) where
  dispatch : Dispatch.State ι α n
  /-- The handlers left that hold `timer_shceduler_`. -/
  holders : Finset Int
  /-- Somebody else holds it too. -/
  shared : Bool
  /-- The handler whose destructor is destroying the scheduler. -/
  last : Option Int := none

namespace State

variable (t : State ι α n)

/-- Nobody holds the scheduler any more, so its destructor runs. -/
def Unheld : Prop := t.shared = false ∧ (t.holders = ∅ ∨ t.last.isSome)

/-- `~ThreadPool` has joined its workers. -/
def Joined : Prop :=
  t.dispatch.timed.pool.pool.running = false ∧ ∀ w, t.dispatch.timed.pool.pool.worker w = .exited

/-- The handler of `fd` is destroyed. -/
def without (fd : Int) : State ι α n :=
  { t with
    dispatch := t.dispatch.goOn (t.dispatch.loop.storeHandler fd none)
    holders := t.holders.erase fd }

end State

/-- A step of scheduler and pool: nobody schedules a lambda or cancels one, and none is run. -/
structure Quiet (s s' : TimedPool.State ι (Job α) n) : Prop where
  threads : ∀ i, (s'.timer.thread i).captured = 0
  cancels : ∀ id ∈ s'.timer.cancels, id ∈ s.timer.cancels ∨ ∃ t ∈ s.timer.pushed, t.taskId = id ∧
    t.captured = 0
  held : ∀ w, (s.pool.pool.worker w).captured ≠ 0 → s'.pool.pool.worker w = s.pool.pool.worker w

/-- `~ReactorCore` behind its loop, `timer_shceduler_` given up. -/
inductive Step [DecidableEq ι] : State ι α n → State ι α n → Prop
  /-- What scheduler and pool do. The pool goes when nobody holds the scheduler. -/
  | timed {t : State ι α n} {timed : TimedPool.State ι (Job α) n} : TimedPool.Step t.dispatch.timed timed →
      Quiet t.dispatch.timed timed → timed.pool.pool.running = t.dispatch.timed.pool.pool.running ∨ t.Unheld →
      Step t { t with dispatch := { t.dispatch with timed := timed } }
  /-- A worker runs a lambda whose handler is there, ... -/
  | runTask {t : State ι α n} (w : Fin n) {k : Nat} {fd : Int} {h : ProtocolHandler} :
      t.dispatch.timed.pool.pool.worker w = .executing k (.packs fd (t.dispatch.lives fd)) →
      t.dispatch.loop.protocolHandlers fd = some (some h) →
      Step t { t with dispatch := { t.dispatch with
        loop := t.dispatch.loop.setHandler fd h.runTask, timed := t.dispatch.ran w k } }
  /-- ... or one whose handler is gone. -/
  | runStale {t : State ι α n} (w : Fin n) {k : Nat} {fd : Int} {life : Nat} :
      t.dispatch.timed.pool.pool.worker w = .executing k (.packs fd life) → life ≠ t.dispatch.lives fd →
      Step t { t with
        dispatch := { t.dispatch with
          loop := { t.dispatch.loop with
            orphans := t.dispatch.loop.orphans - 1, stale := t.dispatch.loop.stale + 1 }
          timed := t.dispatch.ran w k } }
  /-- The next handler of the table is destroyed, and somebody is left who holds the scheduler
  or it is gone, ... -/
  | destroy {t : State ι α n} {fd : Int} : t.last = none → (t.dispatch.loop.protocolHandlers fd).isSome →
      ¬ (t.shared = false ∧ t.holders = {fd}) → (t.Unheld → t.Joined) → Step t (t.without fd)
  /-- ... or it is the last that holds it: this member of it goes first, ... -/
  | release {t : State ι α n} {fd : Int} : t.last = none → t.shared = false → t.holders = {fd} →
      Step t { t with last := some fd }
  /-- ... and the others when the workers are joined. -/
  | destroyLast {t : State ι α n} {fd : Int} : t.last = some fd →
      (t.dispatch.loop.protocolHandlers fd).isSome → t.Joined →
      Step t { t.without fd with last := none }

/-- `Run` has returned, and `~ReactorCore` has closed the descriptors. -/
def destroying (s : Dispatch.State ι α n) (holders : Finset Int) (shared : Bool) (keys : List Int) :
    State ι α n where
  dispatch := { s with loop := s.loop.closeAll keys }
  holders := holders
  shared := shared

/-! ## Lambdas and tasks -/

/-- What holds whatever is destroyed: nobody schedules, and the lambdas on their way are counted. -/
structure Base [DecidableEq ι] (t : State ι α n) : Prop where
  timed : Reachable TimedPool.Start TimedPool.Step t.dispatch.timed
  threads : ∀ i, (t.dispatch.timed.timer.thread i).captured = 0
  canceled : ∀ id ∈ t.dispatch.timed.timer.cancels, ∃ u ∈ t.dispatch.timed.timer.pushed, u.taskId = id ∧
    u.captured = 0
  counts : Counts t.dispatch.loop t.dispatch.lives t.dispatch.timed.captured

section
variable [DecidableEq ι] {t t' : State ι α n}

theorem Step.timed_step (h : Step t t') :
    t'.dispatch.timed = t.dispatch.timed ∨ TimedPool.Step t.dispatch.timed t'.dispatch.timed := by
  cases h with
  | timed hs => exact .inr hs
  | runTask w hw | runStale w hw => exact .inr (.pool (.run w hw))
  | destroy | release | destroyLast => exact .inl rfl

theorem step_calls (h : Step t t') : t.dispatch.timed.timer.calls ≤ t'.dispatch.timed.timer.calls := by
  rcases h.timed_step with he | hs
  · rw [he]
  · exact TimedPool.step_calls hs

/-- `Run` has returned: the reactor's thread is in no call, and its scheduler, started and with no `Stop`
begun, runs. -/
structure Returned (params : ConnParams) (r : ι) (s : Dispatch.State ι α n)
    (holders : Finset Int) : Prop where
  reach : Reachable (HeldStart params) (Held r) (s, holders)
  free : s.Free r
  running : s.timed.timer.running = true
  noStop : ∀ i, (s.timed.timer.thread i).inStop = false
  calls : s.timed.timer.calls < 2 ^ 64

variable {params : ConnParams} {r : ι} {s : Dispatch.State ι α n} {holders : Finset Int}

theorem Returned.inv (h : Returned params r s holders) : Dispatch.Inv params r s := by
  have hr : Reachable (Dispatch.Start params) (Dispatch.Step r) s :=
    h.reach.inv (I := fun x => Reachable (Dispatch.Start params) (Dispatch.Step r) x.1)
      (fun _ hx => .start hx.1)
      fun _ _ _ hr hs => hr.next hs.1
  exact Dispatch.reachable_inv hr h.calls

omit [DecidableEq ι] in
theorem destroying_tasks (s : Dispatch.State ι α n) (holders : Finset Int) (shared : Bool) (keys : List Int)
    (fd : Int) :
    (destroying s holders shared keys).dispatch.loop.tasksAt fd = s.loop.tasksAt fd :=
  EventLoop.tasksAt_congr (congrFun (EventLoop.closeAll_table s.loop keys).handlers fd)

theorem Returned.base (h : Returned params r s holders) (shared : Bool) (keys : List Int) :
    Base (destroying s holders shared keys) := by
  have hi := h.inv
  refine ⟨hi.timed, fun i => ?_, hi.spared.canceled, ?_⟩
  · by_cases hir : i = r
    · rw [hir]
      show (s.timed.timer.thread r).captured = 0
      rw [h.free.2]
      rfl
    · exact hi.spared.others i hir
  · have hway : s.underway r = s.timed.captured := by
      unfold Dispatch.State.underway
      rw [h.free.1, h.free.2]
      exact (zero_add _).trans (zero_add _)
    rw [show (destroying s holders shared keys).dispatch.timed.captured = s.underway r from hway.symm]
    exact hi.counts.of_same (destroying_tasks s holders shared keys)
      (EventLoop.closeAll_table s.loop keys).orphans

end

/-! ## A connection with a task -/

end Teardown

end NebulaToolkit
