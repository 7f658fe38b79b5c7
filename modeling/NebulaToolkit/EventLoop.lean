import NebulaToolkit.ReactorCore
import NebulaToolkit.UdpHandler
/-!
# The reactor's event loop

`net::ReactorCore` with its handlers, its tasks and the system's descriptors:
connections are accepted and registered, an event is handled pass by pass,
`UnregisterFd` destroys the handler, and a worker runs scheduled tasks at any
time. A task captured the handler's address (`this`), so the tasks of a
destroyed handler are still there: the orphans.
-/

namespace NebulaToolkit

open Lib

/-- A handler with the tasks that captured it. -/
inductive ProtocolHandler where
  | tcp (s : TcpHandler.System)
  | udp (s : UdpHandler.System)

namespace ProtocolHandler

/-- The reactor thread is in the handler's read loop. -/
def reading : ProtocolHandler → Bool
  | .tcp s => s.reading
  | .udp s => s.reading

def shouldClose : ProtocolHandler → Bool
  | .tcp s => s.handler.shouldClose
  | .udp s => s.handler.shouldClose

/-- Scheduled tasks still to run. -/
def tasks : ProtocolHandler → Nat
  | .tcp s => s.tasks
  | .udp s => s.tasks

def handleEvent (event : Event) : ProtocolHandler → ProtocolHandler
  | .tcp s => .tcp { s with
    handler := (s.handler.handleEvent event).2, reading := (s.handler.handleEvent event).1 }
  | .udp s => .udp { s with
    handler := (s.handler.handleEvent event).2, reading := (s.handler.handleEvent event).1 }

inductive Step : ProtocolHandler → ProtocolHandler → Prop
  | tcp {s s' : TcpHandler.System} : TcpHandler.Step s s' → Step (.tcp s) (.tcp s')
  | udp {s s' : UdpHandler.System} : UdpHandler.Step s s' → Step (.udp s) (.udp s')

end ProtocolHandler

namespace EventLoop

open ReactorCore (Registering)

structure State extends ReactorCore ProtocolHandler where
  /-- The open descriptors `accept4` returned, ... -/
  accepted : Finset Int := ∅
  /-- ... and the program's own: listeners and UDP sockets. -/
  own : Finset Int := ∅
  epoll : Finset Int := ∅
  /-- Closing a descriptor takes it out of the epoll set. -/
  epoll_open : ∀ fd ∈ epoll, fd ∈ accepted ∨ fd ∈ own := by simp
  /-- The descriptor whose event is being handled. -/
  current : Option Int := none
  /-- Tasks still to run whose handler is destroyed. -/
  orphans : Nat := 0
  /-- How many tasks were run after their handler was destroyed. -/
  stale : Nat := 0
  /-- How many times a descriptor was closed that was not open. -/
  badCloses : Nat := 0

namespace State

/-- The tasks that captured the handler of `fd`. -/
def tasksAt (s : State) (fd : Int) : Nat := ((s.protocolHandlers fd).bind id).elim 0 ProtocolHandler.tasks

def setHandler (s : State) (fd : Int) (h : ProtocolHandler) : State :=
  { s with protocolHandlers := Function.update s.protocolHandlers fd (some (some h)) }

/-- `close(fd)` -/
def close (s : State) (fd : Int) : State :=
  { s with
    accepted := s.accepted.erase fd
    own := s.own.erase fd
    epoll := s.epoll.erase fd
    epoll_open := fun x hx => by
      obtain ⟨hne, hx⟩ := Finset.mem_erase.1 hx
      exact (s.epoll_open x hx).imp (fun h => Finset.mem_erase.2 ⟨hne, h⟩) fun h =>
        Finset.mem_erase.2 ⟨hne, h⟩
    badCloses := if fd ∈ s.accepted ∨ fd ∈ s.own then s.badCloses else s.badCloses + 1 }

/-- The entry of `fd` becomes another one or none, which destroys the handler that was there. -/
def storeHandler (s : State) (fd : Int) (entry : Option (Option ProtocolHandler)) : State :=
  { s with
    protocolHandlers := Function.update s.protocolHandlers fd entry
    orphans := s.orphans + s.tasksAt fd }

/-- `UnregisterFd`; a failure of `epoll_ctl` is only reported. -/
def unregisterFd (s : State) (fd : Int) : State :=
  let s₁ := { s with
    epoll := s.epoll.erase fd, epoll_open := fun x hx => s.epoll_open x (Finset.mem_of_mem_erase hx) }
  let s₂ := s₁.storeHandler fd none
  { s₂ with listeners := s₂.listeners.erase fd }.close fd

/-- `RegisterProtocol`; an error is the text of the exception. Besides what `os` says,
`fcntl` fails on a descriptor that is not open and `EPOLL_CTL_ADD` on one that
is in the set. -/
def registerProtocol (s : State) (fd : Int) (handler : Option ProtocolHandler) (isListener : Bool)
    (os : Registering) :
    Except String State :=
  if hopen : fd ∈ s.accepted ∨ fd ∈ s.own then
    match s.toReactorCore.registerProtocol fd handler isListener { os with
      epollAdd := os.epollAdd && fd ∉ s.epoll } with
    | .error e => .error e
    | .ok core => .ok { s with
      toReactorCore := core
      epoll := insert fd s.epoll
      epoll_open := fun x hx => by
        rcases Finset.mem_insert.1 hx with rfl | hx
        exacts [hopen, s.epoll_open x hx]
      -- Storing the new handler destroys the one that was there.
      orphans := s.orphans + s.tasksAt fd }
  else .error "fcntl F_GETFL"

/-- `accept4` returns `connFd`. -/
def accept (s : State) (connFd : Int) : State :=
  { s with
    accepted := insert connFd s.accepted
    epoll_open := fun x hx => (s.epoll_open x hx).imp_left fun h => Finset.mem_insert_of_mem h }

/-- `CreateConnHandler`: the exception thrown if there is one, and the state afterwards. -/
def createConnHandler (s : State) (connFd : Int) (os : Registering) : Option String × State :=
  let (handler, core) := s.toReactorCore.buildConnHandler connFd
  let s₁ := { s with toReactorCore := core }
  match s₁.registerProtocol connFd (some (.tcp { handler := handler })) false os with
  | .ok s₂ => (none, s₂)
  | .error e => (some e, s₁)

end State

/-- What is done while no `HandleEvent` throws. `Run` uses an erased iterator behind its catch block. -/
inductive Step : State → State → Prop
  /-- The caller opens a socket of its own ... -/
  | socket {s : State} (fd : Int) : fd ∉ s.accepted → fd ∉ s.own →
      Step s { s with
        own := insert fd s.own
        epoll_open := fun x hx => (s.epoll_open x hx).imp_right Finset.mem_insert_of_mem }
  /-- ... and calls `RegisterProtocol`, with a new handler or none. -/
  | registerProtocol {s : State} (fd : Int) (handler : Option ProtocolHandler) (isListener : Bool)
      (os : Registering) :
      (∀ h ∈ handler, h.tasks = 0 ∧ h.reading = false) →
      Step s ((s.registerProtocol fd handler isListener os).toOption.getD s)
  /-- One pass of the loop of `HandleNewConnections`; an exception ends `Run`. -/
  | newConnection {s : State} (listenFd connFd : Int) (os : Registering) : s.current = none →
      listenFd ∈ s.listeners → connFd ∉ s.accepted → connFd ∉ s.own →
      Step s ((s.accept connFd).createConnHandler connFd os).2
  /-- `HandleEvent` is called with some flags. -/
  | handleEvent {s : State} {fd : Int} {h : ProtocolHandler} (flags : Nat) : s.current = none →
      fd ∉ s.listeners → s.protocolHandlers fd = some (some h) →
      Step s { s.setHandler fd (h.handleEvent ⟨fd, flags⟩) with current := some fd }
  /-- A pass of the handler's read loop. -/
  | pass {s : State} {fd : Int} {h h' : ProtocolHandler} : s.current = some fd →
      s.protocolHandlers fd = some (some h) → h.reading = true → h.Step h' → h.tasks ≤ h'.tasks →
      Step s (s.setHandler fd h')
  /-- `HandleEvent` has returned, and `ShouldClose` says no ... -/
  | keep {s : State} {fd : Int} {h : ProtocolHandler} : s.current = some fd →
      s.protocolHandlers fd = some (some h) → h.reading = false → h.shouldClose = false →
      Step s { s with current := none }
  /-- ... or yes. -/
  | unregister {s : State} {fd : Int} {h : ProtocolHandler} : s.current = some fd →
      s.protocolHandlers fd = some (some h) → h.reading = false → h.shouldClose = true →
      Step s { s.unregisterFd fd with current := none }
  /-- A worker runs a task whose handler is there, ... -/
  | runTask {s : State} {fd : Int} {h h' : ProtocolHandler} : s.protocolHandlers fd = some (some h) →
      h.Step h' → h'.tasks < h.tasks → Step s (s.setHandler fd h')
  /-- ... or one whose handler is gone. -/
  | runOrphan {s : State} : s.orphans ≠ 0 → Step s { s with orphans := s.orphans - 1, stale := s.stale + 1 }

/-- A new reactor, configured. -/
def Start (params : ConnParams) (s : State) : Prop := s = { params := params }

variable {s s' : State}

/-! ## What a step does to keys and descriptors -/

/-- `fd` was registered: an open descriptor that was not in the epoll set. -/
structure Registered (s : State) (fd : Int) (handler : Option ProtocolHandler) (s' : State) : Prop where
  fd_open : fd ∈ s.accepted ∨ fd ∈ s.own
  fd_new : fd ∉ s.epoll
  handlers : s'.protocolHandlers = Function.update s.protocolHandlers fd (some handler)
  epoll : s'.epoll = insert fd s.epoll
  accepted : s'.accepted = s.accepted
  own : s'.own = s.own
  badCloses : s'.badCloses = s.badCloses
  orphans : s'.orphans = s.orphans + s.tasksAt fd
  stale : s'.stale = s.stale
  params : s'.params = s.params
  current : s'.current = s.current
  listeners : s.listeners ⊆ s'.listeners ∧ s'.listeners ⊆ insert fd s.listeners

theorem registerProtocol_cases (s : State) (fd : Int) (handler : Option ProtocolHandler) (isListener : Bool)
    (os : Registering) : (∃ e, s.registerProtocol fd handler isListener os = .error e) ∨
      ∃ s', s.registerProtocol fd handler isListener os = .ok s' ∧ Registered s fd handler s' := by
  unfold State.registerProtocol
  by_cases hopen : fd ∈ s.accepted ∨ fd ∈ s.own
  swap
  · exact .inl ⟨_, dif_neg hopen⟩
  rw [dif_pos hopen]
  rcases s.toReactorCore.registerProtocol_cases fd handler isListener { os with
    epollAdd := os.epollAdd && fd ∉ s.epoll } with
    ⟨e, he⟩ | ⟨⟨-, -, hadd⟩, he⟩
  · exact .inl ⟨e, by rw [he]⟩
  · obtain ⟨-, hnew⟩ := Bool.and_eq_true_iff.1 hadd
    rw [he]
    refine .inr ⟨_, rfl, hopen, of_decide_eq_true hnew, rfl, rfl, rfl, rfl, rfl, rfl, rfl, rfl, rfl, ?_⟩
    cases isListener
    · exact ⟨subset_rfl, Finset.subset_insert _ _⟩
    · exact ⟨Finset.subset_insert _ _, subset_rfl⟩

/-- A connection the kernel handed out is registered, or it is left open with nothing to show for it. -/
theorem createConnHandler_cases (s : State) (connFd : Int) (os : Registering) :
    (∃ e params, s.createConnHandler connFd os = (some e, { s with params := params })) ∨
      ∃ params handler s', s.createConnHandler connFd os = (none, s') ∧
      Registered { s with params := params } connFd handler s' := by
  unfold State.createConnHandler
  dsimp only
  rcases registerProtocol_cases { s with toReactorCore := (s.toReactorCore.buildConnHandler connFd).2 } connFd
    (some (.tcp { handler := (s.toReactorCore.buildConnHandler connFd).1 })) false os with ⟨e,
      he⟩ | ⟨s', he, hr⟩
  · rw [he]
    exact .inl ⟨e, _, rfl⟩
  · rw [he]
    exact .inr ⟨_, _, s', rfl, hr⟩

/-- Every descriptor with an entry is in the epoll set. -/
def Keyed (s : State) : Prop := ∀ fd, (s.protocolHandlers fd).isSome → fd ∈ s.epoll

theorem setHandler_self (s : State) (fd : Int) (h : ProtocolHandler) :
    (s.setHandler fd h).protocolHandlers fd = some (some h) :=
  Function.update_self ..

theorem setHandler_isSome {fd : Int} {h h' : ProtocolHandler} (hp : s.protocolHandlers fd = some (some h))
    (x : Int) :
    ((s.setHandler fd h').protocolHandlers x).isSome = (s.protocolHandlers x).isSome := by
  show (Function.update s.protocolHandlers fd (some (some h')) x).isSome = _
  by_cases hx : x = fd
  · subst hx; rw [Function.update_self, hp]; rfl
  · rw [Function.update_of_ne hx]

theorem Registered.keyed {fd : Int} {handler : Option ProtocolHandler} (hr : Registered s fd handler s')
    (h : Keyed s) :
    Keyed s' := by
  intro x hx
  rw [hr.handlers] at hx
  rw [hr.epoll]
  by_cases hxf : x = fd
  · subst hxf; exact Finset.mem_insert_self x _
  · rw [Function.update_of_ne hxf] at hx
    exact Finset.mem_insert_of_mem (h x hx)

theorem unregisterFd_keyed (h : Keyed s) (fd : Int) : Keyed (s.unregisterFd fd) := by
  intro x hx
  change (Function.update s.protocolHandlers fd none x).isSome at hx
  show x ∈ (s.epoll.erase fd).erase fd
  by_cases hxf : x = fd
  · subst hxf; rw [Function.update_self] at hx; cases hx
  · rw [Function.update_of_ne hxf] at hx
    exact Finset.mem_erase.2 ⟨hxf, Finset.mem_erase.2 ⟨hxf, h x hx⟩⟩

theorem setHandler_keyed (h : Keyed s) {fd : Int} {h₀ h' : ProtocolHandler}
    (hp : s.protocolHandlers fd = some (some h₀)) :
    Keyed (s.setHandler fd h') := fun x hx => h x (by rwa [setHandler_isSome hp] at hx)

theorem step_keyed (h : Keyed s) (hs : Step s s') : Keyed s' := by
  cases hs with
  | socket | keep | runOrphan => exact h
  | registerProtocol fd handler isListener os hnew =>
    rcases registerProtocol_cases s fd handler isListener os with ⟨e, he⟩ | ⟨s₁, he, hr⟩ <;> rw [he]
    · exact h
    · exact hr.keyed h
  | newConnection listenFd connFd os =>
    rcases createConnHandler_cases (s.accept connFd) connFd os with
      ⟨e, params, he⟩ | ⟨params, handler, s₁, he, hr⟩ <;> rw [he]
    · exact h
    · exact hr.keyed h
  | handleEvent flags _ _ hp | pass _ hp | runTask hp => exact setHandler_keyed h hp
  | unregister _ hp => exact unregisterFd_keyed h _

/-! ## The descriptors -/

/-- The accepted descriptors that are open are the connections with a handler and
the connections in the epoll set, and nothing was closed twice. -/
structure State.Booked (s : State) : Prop where
  handlers : ∀ fd, fd ∈ s.accepted ↔ (s.protocolHandlers fd).isSome ∧ fd ∉ s.own
  epoll : ∀ fd, fd ∈ s.accepted ↔ fd ∈ s.epoll ∧ fd ∉ s.own
  once : s.badCloses = 0

/-- An accepted connection whose registration fails. -/
def Leaks (s s' : State) : Prop :=
  ∃ connFd os e, connFd ∉ s.accepted ∧ connFd ∉ s.own ∧
  (s.accept connFd).createConnHandler connFd os = (some e, s')

/-- A step that changes no key and no descriptor. -/
theorem State.Booked.of_same (h : s.Booked)
    (hk : ∀ fd, (s'.protocolHandlers fd).isSome = (s.protocolHandlers fd).isSome)
    (ha : s'.accepted = s.accepted) (ho : s'.own = s.own) (he : s'.epoll = s.epoll)
    (hb : s'.badCloses = s.badCloses) :
    s'.Booked where
  handlers fd := by rw [ha, hk, ho]; exact h.handlers fd
  epoll fd := by rw [ha, he, ho]; exact h.epoll fd
  once := hb.trans h.once

/-- `RegisterProtocol` called with a descriptor of the caller's own; one that was
accepted is in the epoll set already. -/
theorem Registered.booked {fd : Int} {handler : Option ProtocolHandler} (hr : Registered s fd handler s')
    (h : s.Booked) :
    s'.Booked := by
  have hown : fd ∈ s.own := hr.fd_open.resolve_left fun ha => hr.fd_new ((h.epoll fd).1 ha).1
  refine ⟨fun x => ?_, fun x => ?_, hr.badCloses.trans h.once⟩
  · rw [hr.accepted, hr.handlers, hr.own, h.handlers x]
    by_cases hx : x = fd
    · subst hx; exact ⟨fun hx => absurd hown hx.2, fun hx => absurd hown hx.2⟩
    · rw [Function.update_of_ne hx]
  · rw [hr.accepted, hr.epoll, hr.own, h.epoll x, Finset.mem_insert]
    by_cases hx : x = fd
    · subst hx; exact ⟨fun hx => absurd hown hx.2, fun hx => absurd hown hx.2⟩
    · rw [or_iff_right hx]

/-- A connection that is accepted and registered. -/
theorem accept_booked (h : s.Booked) {params : ConnParams} {connFd : Int} {handler : Option ProtocolHandler}
    (ho : connFd ∉ s.own) (hr : Registered { s.accept connFd with params := params } connFd handler s') :
    s'.Booked := by
  refine ⟨fun x => ?_, fun x => ?_, hr.badCloses.trans h.once⟩
  · rw [hr.accepted, hr.handlers, hr.own]
    show x ∈ insert connFd s.accepted ↔
      (Function.update s.protocolHandlers connFd (some handler) x).isSome ∧ x ∉ s.own
    by_cases hx : x = connFd
    · subst hx
      rw [Function.update_self]
      exact ⟨fun _ => ⟨rfl, ho⟩, fun _ => Finset.mem_insert_self x _⟩
    · rw [Function.update_of_ne hx, Finset.mem_insert, or_iff_right hx, h.handlers x]
  · rw [hr.accepted, hr.epoll, hr.own]
    show x ∈ insert connFd s.accepted ↔ x ∈ insert connFd s.epoll ∧ x ∉ s.own
    by_cases hx : x = connFd
    · subst hx
      exact ⟨fun _ => ⟨Finset.mem_insert_self x _, ho⟩, fun _ => Finset.mem_insert_self x _⟩
    · rw [Finset.mem_insert, Finset.mem_insert, or_iff_right hx, or_iff_right hx, h.epoll x]

theorem unregisterFd_booked (h : s.Booked) {fd : Int} (hfd : fd ∈ s.epoll) : (s.unregisterFd fd).Booked := by
  refine ⟨fun x => ?_, fun x => ?_, ?_⟩
  · show x ∈ s.accepted.erase fd ↔ (Function.update s.protocolHandlers fd none x).isSome ∧ x ∉ s.own.erase fd
    by_cases hx : x = fd
    · subst hx
      rw [Function.update_self]
      exact ⟨fun hx => absurd rfl (Finset.ne_of_mem_erase hx), fun hx => nomatch hx.1⟩
    · rw [Function.update_of_ne hx, Finset.mem_erase, Finset.mem_erase, and_iff_right hx,
        and_iff_right hx, h.handlers x]
  · show x ∈ s.accepted.erase fd ↔ x ∈ (s.epoll.erase fd).erase fd ∧ x ∉ s.own.erase fd
    by_cases hx : x = fd
    · subst hx
      exact ⟨fun hx => absurd rfl (Finset.ne_of_mem_erase hx),
        fun hx => absurd rfl (Finset.ne_of_mem_erase hx.1)⟩
    · simp only [Finset.mem_erase, and_iff_right hx]
      exact h.epoll x
  · show (if fd ∈ s.accepted ∨ fd ∈ s.own then s.badCloses else s.badCloses + 1) = 0
    rw [if_pos (s.epoll_open fd hfd)]
    exact h.once

theorem step_booked (hk : Keyed s) (h : s.Booked) (hs : Step s s') (hl : ¬ Leaks s s') : s'.Booked := by
  cases hs with
  | socket fd ha ho =>
    refine ⟨fun x => ?_, fun x => ?_, h.once⟩ <;> by_cases hx : x = fd
    · subst hx
      exact ⟨fun hx => absurd hx ha, fun hx => absurd (Finset.mem_insert_self x _) hx.2⟩
    · rw [Finset.mem_insert, or_iff_right hx]; exact h.handlers x
    · subst hx
      exact ⟨fun hx => absurd hx ha, fun hx => absurd (Finset.mem_insert_self x _) hx.2⟩
    · rw [Finset.mem_insert, or_iff_right hx]; exact h.epoll x
  | keep | runOrphan => exact h.of_same (fun _ => rfl) rfl rfl rfl rfl
  | registerProtocol fd handler isListener os hnew =>
    rcases registerProtocol_cases s fd handler isListener os with ⟨e, he⟩ | ⟨s₁, he, hr⟩ <;> rw [he]
    · exact h
    · exact hr.booked h
  | newConnection listenFd connFd os hc hlisten ha ho =>
    rcases createConnHandler_cases (s.accept connFd) connFd os with
      ⟨e, params, he⟩ | ⟨params, handler, s₁, he, hr⟩
    · exact absurd ⟨connFd, os, e, ha, ho, he.trans (by rw [he])⟩ hl
    · rw [he]
      exact accept_booked h ho hr
  | handleEvent flags _ _ hp | pass _ hp | runTask hp =>
    exact h.of_same (setHandler_isSome hp) rfl rfl rfl rfl
  | unregister _ hp =>
    refine (unregisterFd_booked h (hk _ ?_)).of_same (fun _ => rfl) rfl rfl rfl rfl
    rw [hp]; rfl

/-- What a failed registration leaves behind: an open connection in no epoll set. -/
theorem Leaks.left (hl : Leaks s s') : ∃ connFd, connFd ∉ s.accepted ∧ connFd ∉ s.own ∧
    s'.accepted = insert connFd s.accepted ∧ s'.protocolHandlers = s.protocolHandlers ∧
    s'.epoll = s.epoll := by
  obtain ⟨connFd, os, e, ha, ho, he⟩ := hl
  rcases createConnHandler_cases (s.accept connFd) connFd os with ⟨_, params, he'⟩ | ⟨_, _, _, he', -⟩ <;>
    rw [he'] at he <;> cases he
  exact ⟨connFd, ha, ho, rfl, rfl, rfl⟩

theorem Leaks.not_booked (hl : Leaks s s') : ¬ s'.Booked := by
  obtain ⟨connFd, ha, ho, hacc, -, hep⟩ := hl.left
  intro h
  have hin := ((h.epoll connFd).1 (hacc ▸ Finset.mem_insert_self connFd s.accepted)).1
  rw [hep] at hin
  exact (s.epoll_open connFd hin).elim ha ho

theorem not_leaks_of_accepted (h : s'.accepted = s.accepted) : ¬ Leaks s s' := by
  intro hl
  obtain ⟨connFd, ha, -, hacc, -⟩ := hl.left
  rw [h] at hacc
  exact ha (hacc ▸ Finset.mem_insert_self connFd s.accepted)

/-- The three sets agree after every step of a run, and no descriptor is closed twice,
if and only if the registration of every accepted connection succeeds. -/
theorem descriptors_booked (params : ConnParams) (s₀ : State) (run : List State)
    (h : IsRun (Start params) Step s₀ run) :
    (∀ s ∈ s₀ :: run, s.Booked) ↔ (s₀ :: run).IsChain fun s s' => ¬ Leaks s s' := by
  refine h.forall_iff (I := fun s => Keyed s ∧ s.Booked) ?_
    (fun s s' hi hs hl => ⟨step_keyed hi.1 hs, step_booked hi.1 hi.2 hs hl⟩)
    (fun s hi => hi.2) fun s s' _ hb hl => hl.not_booked hb
  rintro s rfl
  refine ⟨fun _ hx => ?_, fun fd => by simp, fun fd => by simp, rfl⟩
  cases hx

/-- A reactor with one listener. -/
def listening (params : ConnParams) : State where
  protocolHandlers := Function.update (fun _ => none) 3 (some none)
  listeners := {3}
  params := params
  own := {3}
  epoll := {3}

/-- It accepts a connection. -/
def connected (params : ConnParams) (os : Registering) : State :=
  (((listening params).accept 5).createConnHandler 5 os).2

theorem connected_runs_on (params : ConnParams) (os : Registering) (run : List State)
    (hrun : (connected params os :: run).IsChain Step) : IsRun (Start params) Step { params := params }
      ([{ params := params, own := {3} }, listening params, connected params os] ++ run) := by
  refine ⟨rfl, .cons_cons (.socket 3 (Finset.notMem_empty 3) (Finset.notMem_empty 3)) <| .cons_cons ?_ <|
    .cons_cons ?_ hrun⟩
  · exact .registerProtocol 3 none true {} fun h hh => by cases hh
  · refine .newConnection 3 5 os rfl (Finset.mem_singleton_self 3) (Finset.notMem_empty 5) fun h => ?_
    cases Finset.mem_singleton.1 h

theorem connected_run (params : ConnParams) (os : Registering) :
    IsRun (Start params) Step { params := params }
    [{ params := params, own := {3} }, listening params, connected params os] :=
  connected_runs_on params os [] (.singleton _)

/-- The theorem for one connection that is registered. -/
theorem descriptors_booked_one : (connected {} {}).Booked ∧ (connected {} {}).accepted = {5} := by
  refine ⟨(descriptors_booked {} _ _ (connected_run {} {})).2 ?_ _
    (.tail _ (.tail _ (.tail _ (.head _)))), rfl⟩
  refine .cons_cons (not_leaks_of_accepted rfl) <| .cons_cons (not_leaks_of_accepted rfl) <|
    .cons_cons ?_ (.singleton _)
  intro hl
  obtain ⟨connFd, -, -, -, -, hep⟩ := hl.left
  revert hep
  decide

/-- `epoll_ctl` fails for an accepted connection: it stays open, and nobody knows it. -/
theorem failed_registration_leaks : ∃ run s, IsRun (Start {}) Step {} run ∧ s ∈ run ∧ 5 ∈ s.accepted ∧
    s.protocolHandlers 5 = none ∧ 5 ∉ s.epoll ∧ ¬ s.Booked := by
  have hin : 5 ∈ (connected {} { epollAdd := false }).accepted := by decide
  have hout : 5 ∉ (connected {} { epollAdd := false }).epoll := by decide
  exact ⟨_, _, connected_run {} { epollAdd := false }, .tail _ (.tail _ (.head _)), hin, rfl, hout,
    fun h => hout ((h.epoll 5).1 hin).1⟩

end EventLoop

end NebulaToolkit
