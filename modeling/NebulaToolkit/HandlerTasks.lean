import NebulaToolkit.EventLoop
import NebulaToolkit.RingFifo
/-!
# Tasks and the handlers they captured

Nothing waits for a handler's tasks before `UnregisterFd` destroys it. What is
left over are orphans, and a worker runs them in the end.
-/

namespace NebulaToolkit.EventLoop

open Lib UnPacker

/-- Reading into the window and committing appends the bytes. -/
theorem filled_ring {u : UnPacker} (hi : u.Inv) {buf : List UInt8}
    (hw : buf.length ≤ u.getLinearWriteSpace.2) :
    u.length + buf.length ≤ u.capacity ∧
    (TcpHandler.filled u buf).toRingBuffer = u.toRingBuffer.append buf := by
  have hl := congrArg Prod.snd (RingBuffer.linearWrite_eq hi buf)
  simp only [RingBuffer.linearWrite, List.take_of_length_le hw] at hl
  refine ⟨?_, hl⟩
  rw [RingBuffer.getLinearWriteSpace_eq hi] at hw
  have := hi.length_le
  dsimp only at hw
  omega

/-- So it writes them. -/
theorem filled_eq_writeRing {u : UnPacker} (hi : u.Inv) {buf : List UInt8} (h0 : buf ≠ [])
    (hw : buf.length ≤ u.getLinearWriteSpace.2) : TcpHandler.filled u buf = u.writeRing buf := by
  obtain ⟨hfit, hl⟩ := filled_ring hi hw
  have hwrite : (u.write buf).2 = u.toRingBuffer.append buf := by
    rw [RingBuffer.write_eq hi, if_neg (fun h => h0 (List.length_eq_zero_iff.1 h)), if_pos hfit]
  unfold UnPacker.writeRing
  rw [hwrite, ← hl]
  rfl

variable {s s' : State}

/-- A handler is destroyed while a task that captured it is still to run. -/
def ErasesPending (s s' : State) : Prop := ∃ fd, s.tasksAt fd ≠ 0 ∧ s'.protocolHandlers fd = none

theorem tasksAt_none {fd : Int} (hp : s.protocolHandlers fd = none) : s.tasksAt fd = 0 := by
  unfold State.tasksAt
  rw [hp]; rfl

/-- What a step does to the orphans: only `UnregisterFd` makes some, the worker runs one at a time. -/
inductive Orphans (s s' : State) : Prop
  | same : s'.orphans = s.orphans → s'.stale = s.stale →
      (∀ fd, (s.protocolHandlers fd).isSome → (s'.protocolHandlers fd).isSome) →
      Orphans s s'
  | erased (fd : Int) : s'.orphans = s.orphans + s.tasksAt fd → s'.stale = s.stale →
      s'.protocolHandlers = Function.update s.protocolHandlers fd none → Orphans s s'
  | run : s.orphans ≠ 0 → s' = { s with orphans := s.orphans - 1, stale := s.stale + 1 } → Orphans s s'

/-- A new entry destroys no handler: its descriptor was not in the epoll set. -/
theorem Registered.orphans_same {fd : Int} {handler : Option ProtocolHandler}
    (hr : Registered s fd handler s') (hk : Keyed s) :
    s'.orphans = s.orphans ∧ s'.stale = s.stale ∧
      ∀ fd, (s.protocolHandlers fd).isSome → (s'.protocolHandlers fd).isSome := by
  have hnone : s.protocolHandlers fd = none := by
    by_contra hp
    exact hr.fd_new (hk fd (Option.isSome_iff_ne_none.2 hp))
  refine ⟨?_, hr.stale, fun x hx => ?_⟩
  · rw [hr.orphans, tasksAt_none hnone, Nat.add_zero]
  · rw [hr.handlers]
    by_cases hxf : x = fd
    · subst hxf; rw [Function.update_self]; rfl
    · rwa [Function.update_of_ne hxf]

theorem step_orphans (hk : Keyed s) (hs : Step s s') : Orphans s s' := by
  cases hs with
  | socket | keep => exact .same rfl rfl fun _ => id
  | registerProtocol fd handler isListener os hnew =>
    rcases registerProtocol_cases s fd handler isListener os with ⟨e, he⟩ | ⟨s₁, he, hr⟩ <;> rw [he]
    · exact .same rfl rfl fun _ => id
    · obtain ⟨ho, hst, hkeys⟩ := hr.orphans_same hk
      exact .same ho hst hkeys
  | newConnection listenFd connFd os =>
    rcases createConnHandler_cases (s.accept connFd) connFd os with
      ⟨e, params, he⟩ | ⟨params, handler, s₁, he, hr⟩ <;> rw [he]
    · exact .same rfl rfl fun _ => id
    · obtain ⟨ho, hst, hkeys⟩ := hr.orphans_same hk
      exact .same ho hst hkeys
  | handleEvent flags _ _ hp | pass _ hp | runTask hp =>
    exact .same rfl rfl fun x hx => by rwa [← setHandler_isSome hp] at hx
  | @unregister fd h hc hp => exact .erased fd rfl rfl rfl
  | runOrphan ho => exact .run ho rfl

/-- Orphans do not go away but by being run. -/
def State.orphaned (s : State) : Nat := s.orphans + s.stale

theorem step_orphaned (hk : Keyed s) (hs : Step s s') : s.orphaned ≤ s'.orphaned := by
  unfold State.orphaned
  cases step_orphans hk hs with
  | same ho hst | erased fd ho hst => omega
  | run hne he => subst he; dsimp only; omega

/-- The step that makes orphans. -/
theorem ErasesPending.orphaned (he : ErasesPending s s') (hk : Keyed s) (hs : Step s s') :
    s'.orphaned ≠ 0 := by
  obtain ⟨fd, ht, hnone⟩ := he
  have hsome : (s.protocolHandlers fd).isSome := by
    by_contra hp
    exact ht (tasksAt_none (Option.not_isSome_iff_eq_none.1 hp))
  unfold State.orphaned
  cases step_orphans hk hs with
  | same ho hst hkeys =>
    have := hkeys fd hsome
    rw [hnone] at this
    cases this
  | erased x ho hst hp =>
    rw [hp] at hnone
    by_cases hx : fd = x
    · subst hx; omega
    · rw [Function.update_of_ne hx] at hnone
      exact absurd (tasksAt_none hnone) ht
  | run hne he =>
    subst he
    rw [hnone] at hsome
    cases hsome

theorem step_no_orphan (hk : Keyed s) (h : s.orphaned = 0) (hs : Step s s') (hp : ¬ ErasesPending s s') :
    s'.orphaned = 0 := by
  unfold State.orphaned at *
  cases step_orphans hk hs with
  | same ho hst => omega
  | erased fd ho hst hupd =>
    have ht : s.tasksAt fd = 0 := by
      by_contra ht
      exact hp ⟨fd, ht, by rw [hupd, Function.update_self]⟩
    omega
  | run hne => omega

theorem start_keyed {params : ConnParams} (h : Start params s) : Keyed s := by
  subst h
  intro fd hfd
  cases hfd

/-- No orphan is ever made, or run. -/
theorem run_orphaned {params : ConnParams} {s₀ : State} {run : List State}
    (h : IsRun (Start params) Step s₀ run) :
    (∀ s ∈ s₀ :: run, s.orphaned = 0) ↔ (s₀ :: run).IsChain fun s s' => ¬ ErasesPending s s' := by
  have hrun := h.strengthen (I := Keyed) (fun _ hs => start_keyed hs) fun _ _ hk hs => step_keyed hk hs
  refine hrun.forall_iff (I := fun s => s.orphaned = 0) ?_
    (fun s s' hi hs hp => step_no_orphan hs.1 hi hs.2 hp) (fun _ => id)
    fun s s' hs ho hp => hp.orphaned hs.1 hs.2 ho
  rintro s rfl
  rfl

/-- What was left over on the way is left over, or was run, at the end. -/
theorem orphaned_le_last {params : ConnParams} {s₀ : State} {run : List State}
    (h : IsRun (Start params) Step s₀ run) (hlast : ∀ s ∈ (s₀ :: run).getLast?, s.orphaned = 0) :
    ∀ s ∈ s₀ :: run, s.orphaned = 0 := by
  have hrun := h.strengthen (I := Keyed) (fun _ hs => start_keyed hs) fun _ _ hk hs => step_keyed hk hs
  refine hrun.2.backwards_induction (fun s => s.orphaned = 0) (s₀ :: run) (fun s s' hs h' => ?_) fun hne => ?_
  · have := step_orphaned hs.1 hs.2
    omega
  · exact hlast _ (List.getLast?_eq_some_getLast hne ▸ rfl)

/-! ## A frame on a connection -/

/-- A frame read into an empty ring is found, and there is room for more. -/
theorem frame_read {u : UnPacker} (hk : u.Keyed) (hi : u.Inv) (hempty : u.length = 0)
    (hlin : u.Linear (u.frame.length + 0)) :
    u.frame.length ≤ u.getLinearWriteSpace.2 ∧ ∃ u', u'.getLinearWriteSpace.2 ≠ 0 ∧
      (TcpHandler.filled u u.frame).Gets [u.frame.take (u.headKey.length + u.extra)] u' := by
  have hh := List.length_pos_iff.2 (headKey_ne hk.model_ne)
  have hne : u.frame ≠ [] := List.append_ne_nil_of_left_ne_nil (headKey_ne hk.model_ne) _
  have hfit : u.readIndex + u.length + (u.frame.length + 0) ≤ u.capacity := hlin
  have hw : u.frame.length ≤ u.getLinearWriteSpace.2 := by
    have hwrite : u.writeIndex = u.readIndex := by
      rw [hi.write_eq, hempty, Nat.add_zero, Nat.mod_eq_of_lt hi.read_lt]
    rw [RingBuffer.getLinearWriteSpace_eq hi, hwrite]
    dsimp only
    omega
  have hcont : (u.writeRing u.frame).content = u.frame := by
    rw [writeRing_content hi (by omega) hne, List.length_eq_zero_iff.1 (u.content_length.trans hempty),
      List.nil_append]
  have hcall :=
    frame_call (hk.writeRing u.frame) (writeRing_inv hi u.frame) (hlin.writeRing hi hne) (.inl rfl)
    (hcont.trans (List.append_nil _).symm)
  refine ⟨hw, _, ?_, by rw [filled_eq_writeRing hi hne hw]; exact gets_iff.2 hcall⟩
  have hlen : (u.writeRing u.frame).length = u.frame.length := by rw [← RingBuffer.content_length, hcont]
  have hframe := frame_length u
  have hx := hk.extra_le
  refine RingBuffer.getLinearWriteSpace_ne (commit_inv (writeRing_inv hi _) _) ?_
  rw [commit_capacity, writeRing_capacity hi,
    commit_length (writeRing_inv hi _) (by rw [hlen]; simp; omega), hlen]
  simp only [writeRing_headKey, writeRing_extra]
  omega

/-- Frames of one byte at each end, and a callback that leaves the packets alone. -/
abbrev framing : ConnParams := { headKey := [1], tailKey := [2], execCb := some id }

theorem kilobyte_le_maxSize : 1024 ≤ maxSize := by decide

/-- Connection 5 when it is accepted, ... -/
def frameless : TcpHandler.System where
  handler :=
    { fd := 5, cb := some id, unpacker := createWithCallbacks [1] [2] none none 1024 kilobyte_le_maxSize }

/-- ... and behind the read of its first frame. -/
def frameRead (u : UnPacker) : TcpHandler.System where
  handler := { fd := 5, cb := some id, unpacker := u, packs := [[1, 2]] }
  reading := true
  tasks := 1
  gets := 1
  extracted := [(1, [1, 2])]

/-- A step that only changes the state of a handler. -/
structure Serves (s s' : State) : Prop where
  step : Step s s'
  keys : ∀ fd, (s'.protocolHandlers fd).isSome = (s.protocolHandlers fd).isSome
  accepted : s'.accepted = s.accepted
  stale : s'.stale = s.stale

theorem Serves.quiet (h : Serves s s') : ¬ ErasesPending s s' := by
  rintro ⟨fd, ht, hnone⟩
  refine ht (tasksAt_none (Option.not_isSome_iff_eq_none.1 ?_))
  rw [← h.keys, hnone]
  exact Bool.false_ne_true

/-- The reactor reads a frame for the connection, and a task is scheduled. -/
theorem reads_frame (hc : s.current = none) (hl : 5 ∉ s.listeners)
    (hp : s.protocolHandlers 5 = some (some (.tcp frameless))) :
    ∃ u s₁ s₂, u.getLinearWriteSpace.2 ≠ 0 ∧ Serves s s₁ ∧ Serves s₁ s₂ ∧
      s₂.protocolHandlers 5 = some (some (.tcp (frameRead u))) ∧ s₂.current = some 5 := by
  obtain ⟨hw, u, hroom, hgets⟩ := frame_read (u := frameless.handler.unpacker) (.inr rfl)
    (create_inv [1] [2] none none _ (by decide)) rfl (create_linear [1] [2] none none _ (by decide))
  have hread : TcpHandler.Step { frameless with reading := true } (frameRead u) :=
    .read rfl (List.cons_ne_nil _ _) hw hgets
  let s₁ : State := { s.setHandler 5 (.tcp { frameless with reading := true }) with current := some 5 }
  have hp₁ : s₁.protocolHandlers 5 = some (some (.tcp { frameless with reading := true })) :=
    setHandler_self s 5 _
  have h₁ : Serves s s₁ := ⟨.handleEvent EventFlags.kReadable hc hl hp, setHandler_isSome hp, rfl, rfl⟩
  have h₂ : Serves s₁ (s₁.setHandler 5 (.tcp (frameRead u))) :=
    ⟨.pass rfl hp₁ rfl (.tcp hread) (Nat.zero_le _), setHandler_isSome hp₁, rfl, rfl⟩
  exact ⟨u, s₁, _, hroom, h₁, h₂, setHandler_self .., rfl⟩

/-- A worker runs the task. -/
theorem runs_task {u : UnPacker} (hp : s.protocolHandlers 5 = some (some (.tcp (frameRead u)))) :
    ∃ s₁ sys, Serves s s₁ ∧ s₁.protocolHandlers 5 = some (some (.tcp sys)) ∧ s₁.current = s.current ∧
      sys.delivered = [(1, [1, 2])] ∧ sys.tasks = 0 ∧ sys.reading = true ∧ sys.handler.unpacker = u := by
  have hcb : (frameRead u).handler.cb = some id := rfl
  have htask := TcpHandler.Step.runTask (s := frameRead u) Nat.one_ne_zero hcb
  exact ⟨_, _, ⟨.runTask hp (.tcp htask) Nat.zero_lt_one, setHandler_isSome hp, rfl, rfl⟩,
    setHandler_self .., rfl, rfl, rfl, rfl, rfl⟩

/-- The peer closes the connection: the loop ends, and the handler is destroyed. -/
theorem closes_handler {sys : TcpHandler.System} (hc : s.current = some 5)
    (hp : s.protocolHandlers 5 = some (some (.tcp sys))) (hr : sys.reading = true)
    (hroom : sys.handler.unpacker.getLinearWriteSpace.2 ≠ 0) :
    ∃ s₁ s₂, Serves s s₁ ∧ Step s₁ s₂ ∧ s₁.tasksAt 5 = sys.tasks ∧
      s₂.protocolHandlers = Function.update s₁.protocolHandlers 5 none ∧
      s₂.orphans = s.orphans + sys.tasks ∧ s₂.stale = s.stale := by
  have hend := TcpHandler.Step.readEnds .eof hr hroom nofun
  let s₁ : State := s.setHandler 5
    (.tcp { sys with handler := { sys.handler with shouldClose := true }, reading := false })
  have hp₁ : s₁.protocolHandlers 5 = some (some (.tcp
      { sys with handler := { sys.handler with shouldClose := true }, reading := false })) :=
      setHandler_self s 5 _
  have ht : s₁.tasksAt 5 = sys.tasks := by
    unfold State.tasksAt
    rw [hp₁]
    rfl
  have h₁ : Serves s s₁ := ⟨.pass hc hp hr (.tcp hend) (Nat.le_refl _), setHandler_isSome hp, rfl, rfl⟩
  refine ⟨s₁, _, h₁, .unregister hc hp₁ rfl rfl, ht, rfl, ?_, rfl⟩
  show s₁.orphans + s₁.tasksAt 5 = _
  rw [ht]
  rfl

/-- In a run in which no handler is destroyed while a task that captured it is still to
run, no task ever runs after its handler was destroyed; and in every other run
one does, once all orphans have been run. -/
theorem no_task_outlives (params : ConnParams) (s₀ : State) (run : List State)
    (h : IsRun (Start params) Step s₀ run) :
    ((s₀ :: run).IsChain (fun s s' => ¬ ErasesPending s s') → ∀ s ∈ s₀ :: run, s.stale = 0) ∧
      ((∀ s ∈ s₀ :: run, s.stale = 0) → (∀ s ∈ (s₀ :: run).getLast?, s.orphans = 0) →
        (s₀ :: run).IsChain fun s s' => ¬ ErasesPending s s') := by
  constructor
  · intro hc s hs
    exact Nat.eq_zero_of_add_eq_zero_left ((run_orphaned h).2 hc s hs)
  · intro hst hlast
    refine (run_orphaned h).1 (orphaned_le_last h fun s hs => ?_)
    unfold State.orphaned
    rw [hlast s hs, hst s (List.mem_of_getLast? hs)]

/-- The theorem for a connection that sends a frame and is closed when the task has run. -/
theorem no_task_outlives_served :
    ∃ run served closed sys, IsRun (Start framing) Step { params := framing } run ∧
    served ∈ run ∧ served.protocolHandlers 5 = some (some (.tcp sys)) ∧ sys.delivered = [(1, [1, 2])] ∧
    closed ∈ run ∧ closed.protocolHandlers 5 = none ∧ ∀ s ∈ run, s.stale = 0 := by
  have hc : (connected framing {}).current = none := rfl
  have hnl : 5 ∉ (connected framing {}).listeners := by decide
  obtain ⟨u, s₁, s₂, hroom, h₁, h₂, hp₂, hc₂⟩ := reads_frame hc hnl rfl
  obtain ⟨s₃, sys, h₃, hp₃, hc₃, hdel, ht, hr, hu⟩ := runs_task hp₂
  obtain ⟨s₄, s₅, h₄, h₅, ht₄, hp₅, -, -⟩ :=
    closes_handler (hc₃.trans hc₂) hp₃ hr (hu ▸ hroom)
  have hrun := connected_runs_on framing {} [s₁, s₂, s₃, s₄, s₅] <|
    .cons_cons h₁.step <| .cons_cons h₂.step <| .cons_cons h₃.step <| .cons_cons h₄.step <|
    .cons_cons h₅ (.singleton _)
  have hstale := (no_task_outlives framing _ _ hrun).1 ?_
  · exact ⟨_, s₃, s₅, sys, hrun, by simp, hp₃, hdel, by simp, by rw [hp₅, Function.update_self],
      fun s hs => hstale s (List.mem_cons_of_mem _ hs)⟩
  -- Up to the first event there is no task, and the handler has none any more when it is destroyed.
  have quiet {s s' : State} (h : ∀ fd, s.tasksAt fd = 0) : ¬ ErasesPending s s' :=
    fun ⟨fd, ht, _⟩ => ht (h fd)
  have hlisten (fd : Int) : (listening framing).tasksAt fd = 0 := by
    unfold State.tasksAt listening
    by_cases hfd : fd = 3
    · subst hfd; rfl
    · simp only [Function.update_of_ne hfd]; rfl
  have hclose : ¬ ErasesPending s₄ s₅ := by
    rintro ⟨fd, htasks, hnone⟩
    by_cases hfd : fd = 5
    · subst hfd
      exact htasks (ht₄.trans ht)
    · rw [hp₅, Function.update_of_ne hfd] at hnone
      exact htasks (tasksAt_none hnone)
  exact .cons_cons (quiet fun _ => rfl) <| .cons_cons (quiet fun _ => rfl) <| .cons_cons (quiet hlisten) <|
    .cons_cons h₁.quiet <| .cons_cons h₂.quiet <| .cons_cons h₃.quiet <| .cons_cons h₄.quiet <|
    .cons_cons hclose (.singleton _)

/-- A connection sends a frame and is closed by the peer before the worker comes to the task. -/
theorem task_outlives_handler :
    ∃ s, Reachable (Start { headKey := [1], tailKey := [2], execCb := some id }) Step s ∧
    s.protocolHandlers 5 = none ∧ s.stale = 1 := by
  have h₀ := (connected_run framing {}).reachable _ (.tail _ (.tail _ (.tail _ (.head _))))
  have hc : (connected framing {}).current = none := rfl
  have hnl : 5 ∉ (connected framing {}).listeners := by decide
  obtain ⟨u, s₁, s₂, hroom, h₁, h₂, hp₂, hc₂⟩ := reads_frame hc hnl rfl
  obtain ⟨s₃, s₄, h₃, h₄, -, hp₄, horphans, hstale⟩ := closes_handler hc₂ hp₂ rfl hroom
  have hn : s₄.orphans ≠ 0 := by
    rw [horphans]
    exact Nat.succ_ne_zero _
  have h₅ := ((((h₀.next h₁.step).next h₂.step).next h₃.step).next h₄).next (.runOrphan hn)
  refine ⟨_, h₅, ?_, ?_⟩
  · show s₄.protocolHandlers 5 = none
    rw [hp₄, Function.update_self]
  · show s₄.stale + 1 = 1
    rw [hstale, h₂.stale, h₁.stale]
    rfl

end NebulaToolkit.EventLoop
