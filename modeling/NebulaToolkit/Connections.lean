import NebulaToolkit.HandlerTasks
/-!
# Connections do not disturb each other

What the reactor does to the handler of an accepted connection is what that
handler would do alone: events, passes of its loop and tasks, whatever happens
to other descriptors in between (`connections_run_alone`). So what is known of
one `TcpHandler` is known of every connection.
-/

namespace NebulaToolkit.EventLoop

open Lib
open ReactorCore (Registering movedFrom)

variable {s s' : State}

/-- The unpacker of a connection accepted under `params`. -/
def unpackerOf (params : ConnParams) : UnPacker :=
  UnPacker.createWithCallbacks params.headKey params.tailKey params.dataSzCb params.checkSzCb 1024
    kilobyte_le_maxSize

/-- A connection that is registered gets a new handler with the parameters that are there. -/
theorem createConnHandler_ok {connFd : Int} {os : Registering}
    (h : s.createConnHandler connFd os = (none, s')) :
    Registered { s with params := movedFrom s.params } connFd
        (some (.tcp { handler :=
          TcpHandler.setCallback { fd := connFd, unpacker := unpackerOf s.params } s.params.execCb })) s' ∧
      s'.params = movedFrom s.params ∧ s'.current = s.current := by
  unfold State.createConnHandler at h
  dsimp only [ReactorCore.buildConnHandler] at h
  rcases registerProtocol_cases { s with params := movedFrom s.params } connFd
    (some (.tcp { handler :=
      TcpHandler.setCallback { fd := connFd, unpacker := unpackerOf s.params } s.params.execCb }))
      false os with
    ⟨e, he⟩ | ⟨s₁, he, hr⟩
  · rw [unpackerOf] at he
    rw [show (movedFrom s.params).execCb = s.params.execCb from rfl, he] at h
    cases h
  · rw [unpackerOf] at he
    rw [show (movedFrom s.params).execCb = s.params.execCb from rfl, he] at h
    cases h
    exact ⟨hr, hr.params, hr.current⟩

/-- A task that is run does not touch the read loop. -/
theorem reading_of_task {h h' : ProtocolHandler} (hs : h.Step h') (hlt : h'.tasks < h.tasks) :
    h'.reading = h.reading := by
  cases hs with
  | @tcp sys _ hs =>
    cases hs with
    | runTask => rfl
    | handleEvent | bufferFull | readEnds => exact absurd hlt (Nat.lt_irrefl _)
    | @read _ packs =>
      change (if packs ≠ [] ∧ sys.handler.cb.isSome then sys.tasks + 1 else sys.tasks) < sys.tasks at hlt
      split at hlt <;> omega
  | @udp sys _ hs =>
    cases hs with
    | runTask => rfl
    | handleEvent | bufferFull | wouldBlock => exact absurd hlt (Nat.lt_irrefl _)
    | recv | recvFails => exact absurd hlt (Nat.not_lt.2 (Nat.le_succ sys.tasks))

/-- What holds of the reactor: its parameters are those configured or what the first connection left of
them, and only the handler whose event is handled is in its loop. -/
structure Served (params : ConnParams) (s : State) : Prop where
  params_eq : s.params = params ∨ s.params = movedFrom params
  reading : ∀ fd h, s.protocolHandlers fd = some (some h) → h.reading = true → s.current = some fd
  alone : ∀ fd ∈ s.accepted, ∃ sys params', s.protocolHandlers fd = some (some (.tcp sys)) ∧
    (params' = params ∨ params' = movedFrom params) ∧
    Reachable (TcpHandler.Start fd (unpackerOf params') params.execCb) TcpHandler.Step sys

variable {params : ConnParams}

/-- One handler does a step of its own. -/
theorem Served.set (hi : Served params s) {fd : Int} {h h' : ProtocolHandler}
    (hp : s.protocolHandlers fd = some (some h))
    (hs : h.Step h') {current : Option Int} (hreading : h'.reading = true → current = some fd)
    (hother : ∀ x, x ≠ fd → s.current = some x → current = some x) :
    Served params { s.setHandler fd h' with current := current } := by
  refine ⟨hi.params_eq, fun x g hx hg => ?_, fun x hx => ?_⟩
  · change Function.update s.protocolHandlers fd (some (some h')) x = _ at hx
    by_cases hxf : x = fd
    · subst hxf
      rw [Function.update_self] at hx
      cases hx
      exact hreading hg
    · rw [Function.update_of_ne hxf] at hx
      exact hother x hxf (hi.reading x g hx hg)
  · obtain ⟨sys, params', hsys, hparams, hr⟩ := hi.alone x hx
    show ∃ sys params', Function.update s.protocolHandlers fd (some (some h')) x = _ ∧ _
    by_cases hxf : x = fd
    · subst hxf
      rw [hp] at hsys
      cases hsys
      cases hs with
      | tcp hs => exact ⟨_, params', by rw [Function.update_self], hparams, hr.next hs⟩
    · exact ⟨sys, params', by rw [Function.update_of_ne hxf]; exact hsys, hparams, hr⟩

theorem step_served (hb : s.Booked) (hi : Served params s) (hs : Step s s') (hl : ¬ Leaks s s') :
    Served params s' := by
  cases hs with
  | socket | runOrphan => exact ⟨hi.params_eq, hi.reading, hi.alone⟩
  | registerProtocol fd handler isListener os hnew =>
    rcases registerProtocol_cases s fd handler isListener os with ⟨e, he⟩ | ⟨s₁, he, hr⟩ <;> rw [he]
    · exact hi
    · have hparams := hr.params
      have hcurrent := hr.current
      have hown : fd ∈ s.own := hr.fd_open.resolve_left fun ha => hr.fd_new ((hb.epoll fd).1 ha).1
      show Served params s₁
      refine ⟨by rw [hparams]; exact hi.params_eq, fun x g hx hg => ?_, fun x hx => ?_⟩
      · rw [hr.handlers] at hx
        rw [hcurrent]
        by_cases hxf : x = fd
        · subst hxf
          rw [Function.update_self] at hx
          cases hx
          rw [(hnew g rfl).2] at hg
          cases hg
        · rw [Function.update_of_ne hxf] at hx
          exact hi.reading x g hx hg
      · rw [hr.accepted] at hx
        have hxf : x ≠ fd := by
          rintro rfl
          exact ((hb.handlers x).1 hx).2 hown
        rw [hr.handlers, Function.update_of_ne hxf]
        exact hi.alone x hx
  | newConnection listenFd connFd os hc hlisten ha ho =>
    cases hcreate : (s.accept connFd).createConnHandler connFd os with
    | mk e s₁ =>
      cases e with
      | some e => exact absurd ⟨connFd, os, e, ha, ho, by rw [hcreate]⟩ hl
      | none =>
        obtain ⟨hr, hparams, hcurrent⟩ := createConnHandler_ok hcreate
        refine ⟨?_, fun x g hx hg => ?_, fun x hx => ?_⟩
        · right
          rw [hparams]
          rcases hi.params_eq with he | he
          · exact congrArg movedFrom he
          · exact (congrArg movedFrom he).trans (ReactorCore.movedFrom_movedFrom params)
        · rw [hr.handlers] at hx
          rw [hcurrent]
          by_cases hxf : x = connFd
          · subst hxf
            rw [Function.update_self] at hx
            cases hx
            cases hg
          · rw [Function.update_of_ne hxf] at hx
            exact hi.reading x g hx hg
        · rw [hr.handlers]
          rw [hr.accepted] at hx
          by_cases hxf : x = connFd
          · subst hxf
            rw [Function.update_self]
            have hexec : s.params.execCb = params.execCb :=
              hi.params_eq.elim (congrArg ConnParams.execCb) (congrArg ConnParams.execCb)
            exact ⟨_, s.params, rfl, hi.params_eq, .start (by rw [← hexec]; rfl)⟩
          · rw [Function.update_of_ne hxf]
            exact hi.alone x ((Finset.mem_insert.1 hx).resolve_left hxf)
  | @handleEvent fd h flags hc hfd hp =>
    have hidle : h.reading = false := by
      by_contra hr
      have := hi.reading fd h hp (Bool.not_eq_false _ ▸ hr)
      rw [hc] at this
      cases this
    have hs : h.Step (h.handleEvent ⟨fd, flags⟩) := by
      cases h with
      | tcp sys => exact .tcp (.handleEvent ⟨fd, flags⟩ hidle)
      | udp sys => exact .udp (.handleEvent ⟨fd, flags⟩ hidle)
    refine hi.set hp hs (fun _ => rfl) fun x _ hx => ?_
    rw [hc] at hx
    cases hx
  | pass hc hp hr hs ht => exact hi.set hp hs (fun _ => hc) fun x _ hx => hx
  | runTask hp hs hlt =>
    exact hi.set hp hs (fun hr => hi.reading _ _ hp (reading_of_task hs hlt ▸ hr)) fun x _ hx => hx
  | @keep fd h hc hp hr hsc =>
    refine ⟨hi.params_eq, fun x g hx hg => ?_, hi.alone⟩
    have hx' := hi.reading x g hx hg
    rw [hc] at hx'
    cases hx'
    rw [show s.protocolHandlers fd = some (some g) from hx] at hp
    cases hp
    rw [hr] at hg
    cases hg
  | @unregister fd h hc hp hr hsc =>
    have other {x : Int} {g : ProtocolHandler}
        (hx : Function.update s.protocolHandlers fd none x = some (some g)) :
        x ≠ fd ∧ s.protocolHandlers x = some (some g) := by
      by_cases hxf : x = fd
      · subst hxf
        rw [Function.update_self] at hx
        cases hx
      · rw [Function.update_of_ne hxf] at hx
        exact ⟨hxf, hx⟩
    refine ⟨hi.params_eq, fun x g hx hg => ?_, fun x hx => ?_⟩
    · obtain ⟨hxf, hx⟩ := other hx
      have hx' := hi.reading x g hx hg
      rw [hc] at hx'
      cases hx'
      exact absurd rfl hxf
    · obtain ⟨hxf, hx⟩ := Finset.mem_erase.1 (show x ∈ s.accepted.erase fd from hx)
      obtain ⟨sys, params', hsys, hrest⟩ := hi.alone x hx
      exact ⟨sys, params', (Function.update_of_ne hxf _ _).trans hsys, hrest⟩

theorem start_served (h : Start params s) : (Keyed s ∧ s.Booked) ∧ Served params s := by
  subst h
  exact ⟨⟨fun _ hx => (nomatch hx), fun fd => by simp, fun fd => by simp, rfl⟩, .inl rfl, nofun,
    fun fd hx => absurd hx (Finset.notMem_empty fd)⟩

theorem served_step (hi : (Keyed s ∧ s.Booked) ∧ Served params s) (hs : Step s s') (hl : ¬ Leaks s s') :
    (Keyed s' ∧ s'.Booked) ∧ Served params s' :=
  ⟨⟨step_keyed hi.1.1 hs, step_booked hi.1.1 hi.1.2 hs hl⟩, step_served hi.1.2 hi.2 hs hl⟩

/-- In every run of the reactor in which no registration of a connection fails: every open
connection has a `TcpHandler`, built with the configured framing or with what the first
connection left of it, in a state that this handler reaches by steps of its own. -/
theorem connections_run_alone (params : ConnParams) (s₀ : State) (run : List State)
    (h : IsRun (Start params) Step s₀ run)
    (hl : (s₀ :: run).IsChain fun s s' => ¬ Leaks s s') :
    ∀ s ∈ s₀ :: run, ∀ fd ∈ s.accepted, ∃ sys params',
      s.protocolHandlers fd = some (some (.tcp sys)) ∧ (params' = params ∨ params' = movedFrom params) ∧
      Reachable (TcpHandler.Start fd (unpackerOf params') params.execCb) TcpHandler.Step sys := by
  exact fun s hs => ((h.and hl).inv (fun s hs => start_served hs)
    (fun s s' hi hs => served_step hi hs.1 hs.2) s hs).2.alone

/-- The theorem for two connections, when the first one has sent a frame and its task has run. -/
theorem connections_run_alone_two :
    ∃ run s sys, IsRun (Start framing) Step { params := framing } run ∧ s ∈ run ∧
    s.accepted = {5, 6} ∧ s.protocolHandlers 5 = some (some (.tcp sys)) ∧ sys.delivered = [(1, [1, 2])] ∧
    ∀ fd ∈ s.accepted, ∃ sys params', s.protocolHandlers fd = some (some (.tcp sys)) ∧
      (params' = framing ∨ params' = movedFrom framing) ∧
      Reachable (TcpHandler.Start fd (unpackerOf params') framing.execCb) TcpHandler.Step sys := by
  let s₀ : State := (((connected framing {}).accept 6).createConnHandler 6 {}).2
  have h₀ : Step (connected framing {}) s₀ := .newConnection 3 6 {} rfl (by decide) (by decide) (by decide)
  obtain ⟨u, s₁, s₂, -, h₁, h₂, hp₂, -⟩ := reads_frame (s := s₀) rfl (by decide) rfl
  obtain ⟨s₃, sys, h₃, hp₃, -, hdel, -⟩ := runs_task hp₂
  have hrun := connected_runs_on framing {} [s₀, s₁, s₂, s₃] <|
    .cons_cons h₀ <| .cons_cons h₁.step <| .cons_cons h₂.step <| .cons_cons h₃.step (.singleton _)
  have hacc : s₃.accepted = {5, 6} := by
    rw [h₃.accepted, h₂.accepted, h₁.accepted]
    decide
  have hserves {s s' : State} (h : Serves s s') : ¬ Leaks s s' := not_leaks_of_accepted h.accepted
  have hregisters {s s' : State} (h : s'.epoll ≠ s.epoll) : ¬ Leaks s s' := fun hl => by
    obtain ⟨_, -, -, -, -, hep⟩ := hl.left
    exact h hep
  have halone := connections_run_alone framing _ _ hrun ?_ s₃ (by simp)
  · exact ⟨_, s₃, sys, hrun, by simp, hacc, hp₃, hdel, halone⟩
  exact .cons_cons (not_leaks_of_accepted rfl) <| .cons_cons (not_leaks_of_accepted rfl) <|
    .cons_cons (hregisters (by decide)) <| .cons_cons (hregisters (by decide)) <|
    .cons_cons (hserves h₁) <| .cons_cons (hserves h₂) <| .cons_cons (hserves h₃) (.singleton _)

end NebulaToolkit.EventLoop
