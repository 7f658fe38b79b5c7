import NebulaToolkit.EventLoop
/-!
# One batch of events after another

`ReactorCore::Run` on the descriptors and handlers of the event loop:
`epoll_wait` returns a batch, and its events are taken one by one while
connections are accepted, handlers are destroyed and the numbers of closed
descriptors come back. What a handler does in `HandleEvent` is a parameter. Two
questions: does an event reach the connection it was reported for, and is a
handler left alone once `UnregisterFd` has destroyed it.
-/

namespace NebulaToolkit.EventBatch

open Lib
open EventLoop (Registered)

/-- `epoll_event` -/
structure EpollEvent where
  fd : Int
  events : Nat

/-- `EPOLLIN`, `EPOLLOUT`, `EPOLLERR` and `EPOLLHUP`, with the flags they become. -/
def flagTable : List (Nat × Nat) :=
  [(0x001, EventFlags.kReadable), (0x004, EventFlags.kWritable), (0x008, EventFlags.kError),
    (0x010, EventFlags.kHangUp)]

/-- The event object built from what `epoll_wait` returned. -/
def EpollEvent.toEvent (e : EpollEvent) : Event where
  fd := e.fd
  eventFlags :=
    flagTable.foldl (fun flags entry => if e.events &&& entry.1 ≠ 0 then flags ||| entry.2 else flags) 0

/-- How a call of `HandleEvent` ends, and the handler then. -/
inductive Outcome where
  | returned (h : ProtocolHandler)
  | threw (h : ProtocolHandler)

/-- Where `Run` is: about to take an event, in `HandleNewConnections`, or in `HandleEvent`. -/
inductive Phase where
  | next
  | accepting (listenFd : Int)
  | handling (event : Event)

structure State where
  loop : EventLoop.State
  phase : Phase := .next
  /-- The events of the batch that have not been taken. -/
  pending : List EpollEvent := []
  /-- How often `epoll_wait` has returned. -/
  waits : Nat := 0
  /-- What `waits` was when the entry of a key was stored. -/
  registeredAt : Int → Nat := fun _ => 0
  /-- How often an entry was dereferenced that was not in the map. -/
  dangling : Nat := 0
  /-- How often `UnregisterFd` was called for the last event taken. -/
  unregistered : Nat := 0

namespace State

def unregisterFd (s : State) (fd : Int) : State :=
  { s with loop := s.loop.unregisterFd fd, unregistered := s.unregistered + 1 }

/-- `RegisterProtocol`, called by anyone; where it throws, nothing is stored. -/
def registerProtocol (s : State) (fd : Int) (handler : Option ProtocolHandler) (isListener : Bool)
    (os : ReactorCore.Registering) : State :=
  match s.loop.registerProtocol fd handler isListener os with
  | .ok loop => { s with loop := loop, registeredAt := Function.update s.registeredAt fd s.waits }
  | .error _ => s

/-- The `try` block around `HandleEvent`, with its handler. -/
def tryHandleEvent (s : State) (fd : Int) : Outcome → State
  | .returned h => { s with loop := s.loop.setHandler fd h }
  | .threw h => { s with loop := s.loop.setHandler fd h }.unregisterFd fd

/-- `it->second->ShouldClose()`: behind `erase` the iterator points to no entry, and `dead` is what is
found there. -/
def shouldClose (s : State) (fd : Int) (dead : Bool) : Bool × State :=
  match s.loop.protocolHandlers fd with
  | some (some h) => (h.shouldClose, s)
  | _ => (dead, { s with dangling := s.dangling + 1 })

/-- What `Run` does from the end of `HandleEvent` to the next event. -/
def finishEvent (s : State) (fd : Int) (out : Outcome) (dead : Bool) : State :=
  let s₁ := { s.tryHandleEvent fd out with phase := .next }
  let close := s₁.shouldClose fd dead
  if close.1 then close.2.unregisterFd fd else close.2

end State

/-- What can happen in `HandleEvent`: any relation of the event, the handler and the outcome. -/
abbrev Behaviour := Event → ProtocolHandler → Outcome → Prop

inductive Step (handles : Behaviour) : State → State → Prop
  | epollWait {s : State} (events : List EpollEvent) : s.phase = .next → s.pending = [] →
      Step handles s { s with pending := events, waits := s.waits + 1 }
  /-- The event of a listener: `HandleNewConnections` is called, ... -/
  | listener {s : State} {e : EpollEvent} {rest : List EpollEvent} : s.phase = .next → s.pending = e :: rest →
      e.fd ∈ s.loop.listeners →
      Step handles s { s with phase := .accepting e.fd, pending := rest, unregistered := 0 }
  /-- ... accepts a connection and registers it, ... -/
  | newConnection {s : State} {listenFd : Int} {loop : EventLoop.State} (connFd : Int)
      (os : ReactorCore.Registering) :
      s.phase = .accepting listenFd → connFd ∉ s.loop.accepted → connFd ∉ s.loop.own →
      (s.loop.accept connFd).createConnHandler connFd os = (none, loop) →
      Step handles s { s with loop := loop, registeredAt := Function.update s.registeredAt connFd s.waits }
  /-- ... or throws, which ends `Run`, ... -/
  | newConnectionThrows {s : State} {listenFd : Int} {loop : EventLoop.State} {text : String} (connFd : Int)
      (os : ReactorCore.Registering) : s.phase = .accepting listenFd → connFd ∉ s.loop.accepted →
        connFd ∉ s.loop.own →
      (s.loop.accept connFd).createConnHandler connFd os = (some text, loop) →
      Step handles s { s with loop := loop, phase := .next, pending := [] }
  /-- ... until `accept4` says `EAGAIN`. -/
  | wouldBlock {s : State} {listenFd : Int} : s.phase = .accepting listenFd →
      Step handles s { s with phase := .next }
  | noHandler {s : State} {e : EpollEvent} {rest : List EpollEvent} : s.phase = .next →
      s.pending = e :: rest → e.fd ∉ s.loop.listeners → s.loop.protocolHandlers e.fd = none →
      Step handles s { s with pending := rest, unregistered := 0 }
  | handleEvent {s : State} {e : EpollEvent} {rest : List EpollEvent} {h : ProtocolHandler} :
      s.phase = .next → s.pending = e :: rest → e.fd ∉ s.loop.listeners →
      s.loop.protocolHandlers e.fd = some (some h) →
      Step handles s { s with phase := .handling e.toEvent, pending := rest, unregistered := 0 }
  | finishEvent {s : State} {event : Event} {h : ProtocolHandler} (out : Outcome)
      (dead : Bool) : s.phase = .handling event → s.loop.protocolHandlers event.fd = some (some h) →
        handles event h out →
      Step handles s (s.finishEvent event.fd out dead)
  /-- At any time the program opens a socket of its own ... -/
  | socket {s : State} (fd : Int) : fd ∉ s.loop.accepted → fd ∉ s.loop.own →
      Step handles s { s with loop := { s.loop with
        own := insert fd s.loop.own
        epoll_open := fun x hx => (s.loop.epoll_open x hx).imp_right Finset.mem_insert_of_mem } }
  /-- ... or registers one, ... -/
  | registerProtocol {s : State} (fd : Int) (handler : Option ProtocolHandler) (isListener : Bool)
      (os : ReactorCore.Registering) : (∀ h ∈ handler, h.tasks = 0 ∧ h.reading = false) →
      Step handles s (s.registerProtocol fd handler isListener os)
  /-- ... and a worker runs a task whose handler is there, or one whose handler is gone. -/
  | runTask {s : State} {fd : Int} {h h' : ProtocolHandler} : s.loop.protocolHandlers fd = some (some h) →
      h.Step h' → h'.tasks < h.tasks → Step handles s { s with loop := s.loop.setHandler fd h' }
  | runOrphan {s : State} : s.loop.orphans ≠ 0 →
      Step handles s { s with
        loop := { s.loop with orphans := s.loop.orphans - 1, stale := s.loop.stale + 1 } }

/-- A new reactor, configured. -/
def Start (params : ConnParams) (s : State) : Prop := EventLoop.Start params s.loop ∧ s = { loop := s.loop }

variable {handles : Behaviour} {s s' : State}

/-! ## The end of an event -/

theorem finishEvent_returned (s : State) (fd : Int) (h : ProtocolHandler) (dead : Bool) :
    s.finishEvent fd (.returned h) dead =
      if h.shouldClose then { s with loop := s.loop.setHandler fd h, phase := .next }.unregisterFd fd
      else { s with loop := s.loop.setHandler fd h, phase := .next } := by
  have hfound : (s.loop.setHandler fd h).protocolHandlers fd = some (some h) := Function.update_self ..
  simp only [State.finishEvent, State.tryHandleEvent, State.shouldClose, hfound]

/-- After an exception the entry is gone when `ShouldClose` is called. -/
theorem finishEvent_threw (s : State) (fd : Int) (h : ProtocolHandler) (dead : Bool) :
    s.finishEvent fd (.threw h) dead =
      let s₁ := { s with loop := s.loop.setHandler fd h }.unregisterFd fd
      let s₂ := { s₁ with phase := .next, dangling := s.dangling + 1 }
      if dead then s₂.unregisterFd fd else s₂ := by
  have hgone : ({ s with loop := s.loop.setHandler fd h }.unregisterFd fd).loop.protocolHandlers fd = none :=
    Function.update_self ..
  simp only [State.finishEvent, State.tryHandleEvent, State.shouldClose, hgone]
  rfl

/-- What is left alone: the batch, the stamps, and every other descriptor. -/
structure Finished (s : State) (fd : Int) (s' : State) : Prop where
  phase : s'.phase = .next
  pending : s'.pending = s.pending
  waits : s'.waits = s.waits
  registeredAt : s'.registeredAt = s.registeredAt
  current : s'.loop.current = s.loop.current
  epoll : ∀ x ∈ s.loop.epoll, x ≠ fd → x ∈ s'.loop.epoll

theorem Finished.unregisterFd {fd : Int} (h : Finished s fd s') : Finished s fd (s'.unregisterFd fd) where
  phase := h.phase
  pending := h.pending
  waits := h.waits
  registeredAt := h.registeredAt
  current := h.current
  epoll x hx hne := Finset.mem_erase.2 ⟨hne, Finset.mem_erase.2 ⟨hne, h.epoll x hx hne⟩⟩

theorem finishEvent_finished (s : State) (fd : Int) (out : Outcome) (dead : Bool) :
    Finished s fd (s.finishEvent fd out dead) := by
  have hset (h : ProtocolHandler) (n : Nat) :
      Finished s fd { s with loop := s.loop.setHandler fd h, phase := .next, dangling := n } :=
    ⟨rfl, rfl, rfl, rfl, rfl, fun x hx _ => hx⟩
  cases out with
  | returned h =>
    rw [finishEvent_returned]
    split
    · exact (hset h s.dangling).unregisterFd
    · exact hset h s.dangling
  | threw h =>
    rw [finishEvent_threw]
    dsimp only
    split
    · exact (hset h (s.dangling + 1)).unregisterFd.unregisterFd
    · exact (hset h (s.dangling + 1)).unregisterFd

/-! ## Entries that are stored -/

/-- An accepted connection that was registered: its descriptor was not in the epoll set. -/
theorem newConnection_stores {loop : EventLoop.State} {connFd : Int} {os : ReactorCore.Registering}
    (h : (s.loop.accept connFd).createConnHandler connFd os = (none, loop)) :
    connFd ∉ s.loop.epoll ∧ loop.epoll = insert connFd s.loop.epoll := by
  rcases EventLoop.createConnHandler_cases (s.loop.accept connFd) connFd os with
    ⟨_, _, hc⟩ | ⟨_, _, loop', hc, hr⟩
  · rw [hc] at h
    cases h
  · rw [hc] at h
    cases h
    exact ⟨hr.fd_new, hr.epoll⟩

/-- `RegisterProtocol` throws, or it stores an entry in the same way. -/
theorem registerProtocol_stores (s : State) (fd : Int) (handler : Option ProtocolHandler) (isListener : Bool)
    (os : ReactorCore.Registering) : s.registerProtocol fd handler isListener os = s ∨
      ∃ loop, s.loop.registerProtocol fd handler isListener os = .ok loop ∧
        s.registerProtocol fd handler isListener os =
          { s with loop := loop, registeredAt := Function.update s.registeredAt fd s.waits } ∧
        fd ∉ s.loop.epoll ∧ loop.epoll = insert fd s.loop.epoll := by
  unfold State.registerProtocol
  rcases EventLoop.registerProtocol_cases s.loop fd handler isListener os with ⟨e, he⟩ | ⟨loop, he, hr⟩
  · rw [he]
    exact .inl rfl
  · rw [he]
    exact .inr ⟨loop, rfl, rfl, hr.fd_new, hr.epoll⟩

/-! ## Events and connections -/

/-- The next event to be taken is `e`, and there is an entry for its descriptor. -/
def State.Finds (s : State) (e : EpollEvent) (entry : Option ProtocolHandler) : Prop :=
  s.phase = .next ∧ s.pending.head? = some e ∧ s.loop.protocolHandlers e.fd = some entry

/-- What `epoll_wait` returns: descriptors of the epoll set, each once. -/
def Delivers (s s' : State) : Prop :=
  s'.waits ≠ s.waits → (s'.pending.map (·.fd)).Nodup ∧ ∀ e ∈ s'.pending, e.fd ∈ s.loop.epoll

/-- A pending event is of a descriptor that has been in the epoll set since `epoll_wait` returned. -/
structure Awaited (s : State) : Prop where
  stamps : ∀ fd, s.registeredAt fd ≤ s.waits
  pending : ∀ e ∈ s.pending, e.fd ∈ s.loop.epoll ∧ s.registeredAt e.fd < s.waits
  distinct : (s.pending.map (·.fd)).Nodup
  handling : ∀ event, s.phase = .handling event →
    event.fd ∈ s.loop.epoll ∧ ∀ e ∈ s.pending, e.fd ≠ event.fd

/-- An entry is stored: its descriptor was not in the epoll set, so no event of it is pending. -/
theorem Awaited.store (h : Awaited s) {loop : EventLoop.State} {fd : Int} (hnew : fd ∉ s.loop.epoll)
    (hepoll : loop.epoll = insert fd s.loop.epoll) :
    Awaited { s with loop := loop, registeredAt := Function.update s.registeredAt fd s.waits } := by
  refine ⟨fun x => ?_, fun e he => ?_, h.distinct, fun event hp => ?_⟩
  · by_cases hx : x = fd
    · subst hx; simp
    · simpa [Function.update_of_ne hx] using h.stamps x
  · obtain ⟨hin, hlt⟩ := h.pending e he
    have hne : e.fd ≠ fd := fun heq => hnew (heq ▸ hin)
    exact ⟨by rw [hepoll]; exact Finset.mem_insert_of_mem hin, by simpa [Function.update_of_ne hne] using hlt⟩
  · obtain ⟨hin, hne⟩ := h.handling event hp
    exact ⟨by rw [hepoll]; exact Finset.mem_insert_of_mem hin, hne⟩

/-- The next event is taken, and its handler is not called. -/
theorem Awaited.take (h : Awaited s) {e : EpollEvent} {rest : List EpollEvent}
    (hp : s.pending = e :: rest) {p : Phase} (hphase : ∀ event, p ≠ .handling event) :
    Awaited { s with phase := p, pending := rest, unregistered := 0 } := by
  have hd := h.distinct
  rw [hp] at hd
  exact ⟨h.stamps, fun x hx => h.pending x (hp ▸ List.mem_cons_of_mem e hx), hd.of_cons,
    fun event he => absurd he (hphase event)⟩

/-- `UnregisterFd` may take the descriptor of the event out of the epoll set; what is pending is of others. -/
theorem Awaited.finish (h : Awaited s) {event : Event} (hp : s.phase = .handling event)
    (hf : Finished s event.fd s') :
    Awaited s' := by
  obtain ⟨-, hother⟩ := h.handling event hp
  refine ⟨fun fd => ?_, fun e he => ?_, ?_, fun event' he => ?_⟩
  · rw [hf.registeredAt, hf.waits]
    exact h.stamps fd
  · rw [hf.pending] at he
    obtain ⟨hin, hlt⟩ := h.pending e he
    rw [hf.registeredAt, hf.waits]
    exact ⟨hf.epoll _ hin (hother e he), hlt⟩
  · rw [hf.pending]
    exact h.distinct
  · rw [hf.phase] at he
    cases he

theorem step_awaited (h : Awaited s) (hs : Step handles s s') (hb : Delivers s s') : Awaited s' := by
  cases hs with
  | epollWait events hnext _ =>
    obtain ⟨hdistinct, hin⟩ := hb (Nat.succ_ne_self s.waits)
    refine ⟨fun fd => Nat.le_succ_of_le (h.stamps fd),
      fun e he => ⟨hin e he, Nat.lt_succ_of_le (h.stamps e.fd)⟩, hdistinct, fun event he => ?_⟩
    change s.phase = .handling event at he
    rw [hnext] at he
    cases he
  | listener _ hp _ => exact h.take hp fun event he => nomatch he
  | noHandler hnext hp _ _ => exact h.take (p := s.phase) hp fun event he => by rw [hnext] at he; cases he
  | newConnection connFd os _ _ _ he =>
    obtain ⟨hnew, hepoll⟩ := newConnection_stores he
    exact h.store hnew hepoll
  | newConnectionThrows connFd os _ _ _ he =>
    exact ⟨h.stamps, fun e he => (List.not_mem_nil he).elim, List.nodup_nil, fun event he => nomatch he⟩
  | wouldBlock => exact ⟨h.stamps, h.pending, h.distinct, fun event he => nomatch he⟩
  | @handleEvent e rest _ _ hp _ _ =>
    have ht := h.take (p := .next) hp fun event he => nomatch he
    have hd := h.distinct
    rw [hp, List.map_cons, List.nodup_cons] at hd
    refine ⟨ht.stamps, ht.pending, ht.distinct, fun event he => ?_⟩
    cases he
    exact ⟨(h.pending e (hp ▸ List.mem_cons_self)).1, fun x hx heq => hd.1 (List.mem_map.2 ⟨x, hx, heq⟩)⟩
  | finishEvent out dead hp _ _ => exact h.finish hp (finishEvent_finished s _ out dead)
  | socket | runTask | runOrphan => exact ⟨h.stamps, h.pending, h.distinct, h.handling⟩
  | registerProtocol fd handler isListener os _ =>
    rcases registerProtocol_stores s fd handler isListener os with hs | ⟨loop, -, hs, hnew, hepoll⟩
    · rwa [hs]
    · rw [hs]
      exact h.store hnew hepoll

theorem start_awaited {params : ConnParams} (h : Start params s) : Awaited s := by
  rw [h.2]
  exact ⟨fun _ => Nat.le_refl 0, fun e he => (List.not_mem_nil he).elim, List.nodup_nil,
    fun event he => nomatch he⟩

/-- Whatever the handlers do and whichever numbers `accept4` hands out, the entry an event finds was
stored before `epoll_wait` returned it. -/
theorem events_find_their_connection (handles : Behaviour) (params : ConnParams) (s₀ : State)
    (run : List State) (h : IsRun (Start params) (Step handles) s₀ run)
    (hbatch : (s₀ :: run).IsChain Delivers) :
    ∀ s ∈ s₀ :: run, ∀ e entry, s.Finds e entry → s.registeredAt e.fd < s.waits := by
  intro s hs e entry hf
  have hi : Awaited s :=
    (h.and hbatch).inv (I := Awaited) (fun _ hs => start_awaited hs)
      (fun _ _ hs hss' => step_awaited hs hss'.1 hss'.2) s hs
  exact (hi.pending e (List.mem_of_mem_head? hf.2.1)).2

/-- A reactor with one listener. -/
def listening : State := State.registerProtocol { loop := { own := {3} } } 3 none true {}

def State.await (s : State) (events : List EpollEvent) : State :=
  { s with pending := events, waits := s.waits + 1 }

def State.take (s : State) (phase : Phase) : State :=
  { s with phase := phase, pending := s.pending.tail, unregistered := 0 }

/-- Number 5 is accepted. -/
def State.acceptFive (s : State) : State :=
  { s with
    loop := ((s.loop.accept 5).createConnHandler 5 {}).2
    registeredAt := Function.update s.registeredAt 5 s.waits }

/-- The listener's event has been handled. -/
def connected : State := { ((listening.await [⟨3, 1⟩]).take (.accepting 3)).acceptFive with phase := .next }

/-- The connection's handler runs, and the listener's next event is pending. -/
def reading : State := (connected.await [⟨5, 1⟩, ⟨3, 1⟩]).take (.handling ⟨5, 1⟩)

/-- The way there, and the end of the event. -/
def served (out : Outcome) (dead : Bool) : List State :=
  [{ loop := { own := {3} } }, listening, listening.await [⟨3, 1⟩],
    (listening.await [⟨3, 1⟩]).take (.accepting 3),
    ((listening.await [⟨3, 1⟩]).take (.accepting 3)).acceptFive, connected,
    connected.await [⟨5, 1⟩, ⟨3, 1⟩], reading, reading.finishEvent 5 out dead]

theorem served_chain {out : Outcome} (hout : ∀ event h, handles event h out) (dead : Bool) :
    (({ loop := {} } : State) :: served out dead).IsChain (Step handles) := by
  have haccepting :
      Step handles (listening.await [⟨3, 1⟩]) ((listening.await [⟨3, 1⟩]).take (.accepting 3)) :=
    .listener (e := ⟨3, 1⟩) rfl rfl (Finset.mem_singleton_self 3)
  have hconnected : Step handles ((listening.await [⟨3, 1⟩]).take (.accepting 3))
      ((listening.await [⟨3, 1⟩]).take (.accepting 3)).acceptFive :=
        .newConnection 5 {} rfl (by decide) (by decide) rfl
  have hreading : Step handles (connected.await [⟨5, 1⟩, ⟨3, 1⟩]) reading :=
    .handleEvent (e := ⟨5, 1⟩) rfl rfl (show (5 : Int) ∉ connected.loop.listeners by decide) rfl
  have hfinished : Step handles reading (reading.finishEvent 5 out dead) :=
    .finishEvent out dead rfl rfl (hout ⟨5, 1⟩ _)
  exact .cons_cons (.socket 3 (Finset.notMem_empty 3) (Finset.notMem_empty 3)) <|
    .cons_cons (.registerProtocol 3 none true {} fun h hh => by cases hh) <|
    .cons_cons (.epollWait [⟨3, 1⟩] rfl rfl) <|
    .cons_cons haccepting <| .cons_cons hconnected <| .cons_cons (.wouldBlock rfl) <|
    .cons_cons (.epollWait [⟨5, 1⟩, ⟨3, 1⟩] rfl rfl) <| .cons_cons hreading <|
    .cons_cons hfinished (.singleton _)

theorem sixteen_le_maxSize : 16 ≤ maxSize := by decide

/-- A handler that wants its connection closed, or not. -/
def sampleHandler (close : Bool) : ProtocolHandler :=
  .tcp { handler := { fd := 5, shouldClose := close, unpacker := .createBasic [] [] 16 sixteen_le_maxSize } }

/-- Connection 5 is closed, and the listener's event, still pending, brings a new one under its number. -/
def closed : State := reading.finishEvent 5 (.returned (sampleHandler true)) false

def reused : State := { (closed.take (.accepting 3)).acceptFive with phase := .next }

/-- The way to the next event of number 5. -/
def reuse : List State :=
  served (.returned (sampleHandler true)) false ++
    [closed.take (.accepting 3), (closed.take (.accepting 3)).acceptFive, reused, reused.await [⟨5, 1⟩]]

/-- A step without `epoll_wait`. -/
theorem delivers_of_waits (h : s'.waits = s.waits) : Delivers s s' := fun hne => absurd h hne

theorem reuse_delivers : (({ loop := {} } : State) :: reuse).IsChain Delivers := by
  have h₁ : Delivers listening (listening.await [⟨3, 1⟩]) := fun _ => by decide
  have h₂ : Delivers connected (connected.await [⟨5, 1⟩, ⟨3, 1⟩]) := fun _ => by decide
  have h₃ : Delivers reused (reused.await [⟨5, 1⟩]) := fun _ => by decide
  have h {s s' : State} (hw : s'.waits = s.waits) := delivers_of_waits hw
  exact .cons_cons (h rfl) <| .cons_cons (h rfl) <| .cons_cons h₁ <| .cons_cons (h rfl) <|
    .cons_cons (h rfl) <|
    .cons_cons (h rfl) <| .cons_cons h₂ <| .cons_cons (h rfl) <| .cons_cons (h rfl) <| .cons_cons (h rfl) <|
    .cons_cons (h rfl) <| .cons_cons (h rfl) <| .cons_cons h₃ (.singleton _)

/-- The theorem for a number that came back in the middle of a batch. -/
theorem events_find_their_connection_reused : ∃ entry,
    (reused.await [⟨5, 1⟩]).Finds ⟨5, 1⟩ entry ∧
    (reused.await [⟨5, 1⟩]).registeredAt 5 < (reused.await [⟨5, 1⟩]).waits := by
  have hfinds : (reused.await [⟨5, 1⟩]).Finds ⟨5, 1⟩ _ := ⟨rfl, rfl, rfl⟩
  refine ⟨_, hfinds,
    events_find_their_connection (fun _ _ => Eq (.returned (sampleHandler true))) {} { loop := {} } reuse
    ⟨⟨rfl, rfl⟩, ?_⟩ reuse_delivers _ (by simp [reuse]) ⟨5, 1⟩ _ hfinds⟩
  have haccept : Step (fun _ _ => Eq (.returned (sampleHandler true))) (closed.take (.accepting 3))
      (closed.take (.accepting 3)).acceptFive := .newConnection 5 {} rfl (by decide) (by decide) rfl
  refine (served_chain (fun _ _ => rfl) false).append ?_ ?_
  · exact .cons_cons haccept <| .cons_cons (.wouldBlock rfl) <|
      .cons_cons (.epollWait [⟨5, 1⟩] rfl rfl) (.singleton _)
  · rintro _ ⟨⟩ _ ⟨⟩
    exact .listener (e := ⟨3, 1⟩) rfl rfl (show (3 : Int) ∈ closed.loop.listeners by decide)

/-! ## Handlers that are gone -/

/-- No entry was dereferenced that was not in the map, and the last event has unregistered its descriptor
at most once. -/
def State.LeftAlone (s : State) : Prop := s.dangling = 0 ∧ s.unregistered ≤ 1

/-- A call of `HandleEvent` ends with a `std::exception`. -/
def Throws (handles : Behaviour) (s s' : State) : Prop :=
  ∃ event h h' dead, s.phase = .handling event ∧ s.loop.protocolHandlers event.fd = some (some h) ∧
    handles event h (.threw h') ∧ s' = s.finishEvent event.fd (.threw h') dead

/-- While the handler runs, its descriptor has not been unregistered. -/
structure Tidy (s : State) : Prop where
  leftAlone : s.LeftAlone
  handling : ∀ event, s.phase = .handling event → s.unregistered = 0

theorem Tidy.take (h : Tidy s) {phase : Phase} {rest : List EpollEvent} :
    Tidy { s with phase := phase, pending := rest, unregistered := 0 } :=
  ⟨⟨h.leftAlone.1, Nat.zero_le 1⟩, fun _ _ => rfl⟩

/-- A handler that returns is unregistered once at most. -/
theorem Tidy.returned (h : Tidy s) {event : Event} (hp : s.phase = .handling event)
    (handler : ProtocolHandler) (dead : Bool) :
    Tidy (s.finishEvent event.fd (.returned handler) dead) := by
  have h0 := h.handling event hp
  rw [finishEvent_returned]
  split
  · refine ⟨⟨h.leftAlone.1, ?_⟩, fun _ he => nomatch he⟩
    show s.unregistered + 1 ≤ 1
    rw [h0]
  · exact ⟨h.leftAlone, fun _ he => nomatch he⟩

/-- After an exception `ShouldClose` is called on the entry that was erased. -/
theorem Throws.dangling (h : Throws handles s s') : s'.dangling ≠ 0 := by
  obtain ⟨event, _, handler, dead, -, -, -, rfl⟩ := h
  rw [finishEvent_threw]
  dsimp only
  split <;> exact Nat.succ_ne_zero s.dangling

theorem step_tidy (h : Tidy s) (hs : Step handles s s') (ht : ¬ Throws handles s s') : Tidy s' := by
  cases hs with
  | listener | noHandler | handleEvent => exact h.take
  | finishEvent out dead hp hfound hout =>
    cases out with
    | returned handler => exact h.returned hp handler dead
    | threw handler => exact absurd ⟨_, _, handler, dead, hp, hfound, hout, rfl⟩ ht
  | registerProtocol fd handler isListener os _ =>
    rcases registerProtocol_stores s fd handler isListener os with hs | ⟨loop, -, hs, -, -⟩
    · rwa [hs]
    · rw [hs]
      exact ⟨h.leftAlone, h.handling⟩
  | newConnectionThrows | wouldBlock => exact ⟨h.leftAlone, fun _ he => nomatch he⟩
  | epollWait | newConnection | socket | runTask | runOrphan => exact ⟨h.leftAlone, h.handling⟩

/-- A handler is left alone after its removal all along a run if and only if no `HandleEvent` throws in it. -/
theorem handlers_left_alone_iff (handles : Behaviour) (params : ConnParams) (s₀ : State) (run : List State)
    (h : IsRun (Start params) (Step handles) s₀ run) :
    (∀ s ∈ s₀ :: run, s.LeftAlone) ↔ (s₀ :: run).IsChain fun s s' => ¬ Throws handles s s' := by
  refine h.forall_iff ?_ (fun s s' hi hs ht => step_tidy hi hs ht) (fun s hi => hi.leftAlone)
    fun s s' _ hl ht => ht.dangling hl.1
  intro s hs
  rw [hs.2]
  exact ⟨⟨rfl, Nat.zero_le 1⟩, fun _ he => nomatch he⟩

/-- The theorem for a handler that returns. -/
theorem handlers_left_alone_returned :
    ∃ s₀ run, IsRun (Start {}) (Step fun _ _ => Eq (.returned (sampleHandler true))) s₀ run ∧
    reading.finishEvent 5 (.returned (sampleHandler true)) false ∈ run ∧ ∀ s ∈ s₀ :: run, s.LeftAlone := by
  have hrun : IsRun (Start {}) (Step fun _ _ => Eq (.returned (sampleHandler true))) { loop := {} }
      (served (.returned (sampleHandler true)) false) := ⟨⟨rfl, rfl⟩, served_chain (fun _ _ => rfl) false⟩
  refine ⟨_, _, hrun, by simp [served],
    (handlers_left_alone_iff _ {} _ _ hrun).2 (hrun.2.imp fun s s' _ ht => ?_)⟩
  obtain ⟨_, _, _, _, -, -, hout, -⟩ := ht
  cases hout

/-- A handler that throws is asked whether to close after it was destroyed, and if the answer read there
is yes, its descriptor is unregistered a second time, and closed when it is no longer open. -/
theorem throwing_handler_touched :
    ∃ run s, IsRun (Start {}) (Step fun _ _ => Eq (.threw (sampleHandler false))) { loop := {} } run ∧
    s ∈ run ∧ s.dangling = 1 ∧ s.unregistered = 2 ∧ s.loop.badCloses = 1 :=
  ⟨served (.threw (sampleHandler false)) true, reading.finishEvent 5 (.threw (sampleHandler false)) true,
    ⟨⟨rfl, rfl⟩, served_chain (fun _ _ => rfl) true⟩, by simp [served], rfl, rfl, rfl⟩

/-! ## The event loop underneath -/

/-- A pass of a handler's read loop. -/
def Pass (h h' : ProtocolHandler) : Prop := h.reading = true ∧ h.Step h' ∧ h.tasks ≤ h'.tasks

/-- What `HandleEvent` of the two handlers does, without an exception. -/
def passes : Behaviour := fun event h out =>
  ∃ h', out = .returned h' ∧ h'.reading = false ∧ Relation.ReflTransGen Pass (h.handleEvent event) h'

variable {loop loop' : EventLoop.State} {fd : Int} {h h' : ProtocolHandler}

theorem setHandler_again : (loop.setHandler fd h).setHandler fd h' = loop.setHandler fd h' := by
  simp [EventLoop.State.setHandler, Function.update_idem]

theorem passes_steps (hp : Relation.ReflTransGen Pass h h') : Relation.ReflTransGen EventLoop.Step
    { loop.setHandler fd h with current := some fd } { loop.setHandler fd h' with current := some fd } := by
  induction hp with
  | refl => exact .refl
  | @tail h₁ h₂ _ hpass ih =>
    obtain ⟨hreading, hstep, htasks⟩ := hpass
    have hs := EventLoop.Step.pass (s := { loop.setHandler fd h₁ with current := some fd }) rfl
      (Function.update_self ..)
      hreading hstep htasks
    refine ih.tail ?_
    convert hs using 1
    rw [← @setHandler_again loop fd h₁ h₂]
    rfl

/-- A whole event: `HandleEvent`, its passes, and the check behind it. -/
theorem finishEvent_steps {event : Event} (hcurrent : s.loop.current = none)
    (hlistener : event.fd ∉ s.loop.listeners) (hfound : s.loop.protocolHandlers event.fd = some (some h))
    (hreading : h'.reading = false) (hpasses : Relation.ReflTransGen Pass (h.handleEvent event) h')
    (dead : Bool) :
    Relation.ReflTransGen EventLoop.Step s.loop (s.finishEvent event.fd (.returned h') dead).loop := by
  have hcall := EventLoop.Step.handleEvent event.eventFlags hcurrent hlistener hfound
  have hloop : { s.loop.setHandler event.fd h' with current := none } = s.loop.setHandler event.fd h' := by
    rw [← hcurrent]; rfl
  have hrun := Relation.ReflTransGen.head hcall (passes_steps hpasses)
  have hafter :
      ({ s.loop.setHandler event.fd h' with current := some event.fd } : EventLoop.State).protocolHandlers
        event.fd = some (some h') :=
    Function.update_self ..
  rw [finishEvent_returned]
  split
  · rename_i hclose
    have hs := EventLoop.Step.unregister rfl hafter hreading hclose
    convert hrun.tail hs using 1
    show (s.loop.setHandler event.fd h').unregisterFd event.fd = _
    rw [← hloop]
    rfl
  · rename_i hclose
    have hs := EventLoop.Step.keep rfl hafter hreading (Bool.eq_false_iff.2 hclose)
    convert hrun.tail hs using 1
    exact hloop.symm

theorem registerProtocol_listeners {handler : Option ProtocolHandler} {isListener : Bool}
    {os : ReactorCore.Registering} (h : loop.registerProtocol fd handler isListener os = .ok loop') :
    loop'.current = loop.current ∧ loop.listeners ⊆ loop'.listeners ∧
    loop'.listeners ⊆ insert fd loop.listeners := by
  rcases EventLoop.registerProtocol_cases loop fd handler isListener os with ⟨e, he⟩ | ⟨loop₁, he, hr⟩ <;>
    rw [he] at h
  · cases h
  · cases h
    exact ⟨hr.current, hr.listeners⟩

theorem createConnHandler_listeners {os : ReactorCore.Registering} {thrown : Option String}
    (h : loop.createConnHandler fd os = (thrown, loop')) :
    loop'.current = loop.current ∧ loop.listeners ⊆ loop'.listeners ∧
    loop'.listeners ⊆ insert fd loop.listeners := by
  unfold EventLoop.State.createConnHandler at h
  dsimp only at h
  split at h
  · rename_i hr
    cases h
    have hl := registerProtocol_listeners hr
    exact hl
  · cases h
    exact ⟨rfl, subset_rfl, Finset.subset_insert _ _⟩

/-- The event loop is between events, and `Run` takes a listener's event for one and no other. -/
structure Placed (s : State) : Prop where
  current : s.loop.current = none
  accepting : ∀ fd, s.phase = .accepting fd → fd ∈ s.loop.listeners
  handling : ∀ event, s.phase = .handling event → event.fd ∉ s.loop.listeners

theorem Placed.store (hp : Placed s) (ha : Awaited s) (hnew : fd ∉ s.loop.epoll)
    (hl : loop.current = s.loop.current ∧ s.loop.listeners ⊆ loop.listeners ∧
      loop.listeners ⊆ insert fd s.loop.listeners) :
    Placed { s with loop := loop, registeredAt := Function.update s.registeredAt fd s.waits } := by
  obtain ⟨hcurrent, hmore, hless⟩ := hl
  refine ⟨hcurrent.trans hp.current, fun x hx => hmore (hp.accepting x hx), fun event he hin => ?_⟩
  rcases Finset.mem_insert.1 (hless hin) with heq | hin
  · exact hnew (heq ▸ (ha.handling event he).1)
  · exact hp.handling event he hin

theorem step_placed (hp : Placed s) (ha : Awaited s) (hs : Step handles s s') : Placed s' := by
  cases hs with
  | epollWait => exact ⟨hp.current, hp.accepting, hp.handling⟩
  | listener _ _ hl => exact ⟨hp.current, fun x hx => by cases hx; exact hl, fun _ he => nomatch he⟩
  | newConnection connFd os _ _ _ he =>
    have hl := createConnHandler_listeners he
    exact hp.store ha (newConnection_stores he).1 hl
  | newConnectionThrows connFd os _ _ _ he =>
    exact ⟨(createConnHandler_listeners he).1.trans hp.current, fun _ he => (nomatch he),
      fun _ he => nomatch he⟩
  | wouldBlock => exact ⟨hp.current, fun _ he => (nomatch he), fun _ he => nomatch he⟩
  | noHandler hnext => exact ⟨hp.current, hp.accepting, hp.handling⟩
  | handleEvent _ _ hl _ =>
    exact ⟨hp.current, fun _ he => (nomatch he), fun event he => by cases he; exact hl⟩
  | @finishEvent event _ out dead =>
    have hf := finishEvent_finished s event.fd out dead
    have hphase {phase : Phase} (he : (s.finishEvent event.fd out dead).phase = phase) : phase = .next :=
      he.symm.trans hf.phase
    exact ⟨hf.current.trans hp.current, fun _ he => (nomatch hphase he), fun _ he => nomatch hphase he⟩
  | socket | runTask | runOrphan => exact ⟨hp.current, hp.accepting, hp.handling⟩
  | registerProtocol fd handler isListener os _ =>
    rcases registerProtocol_stores s fd handler isListener os with hs | ⟨loop, hok, hs, hnew, -⟩
    · rwa [hs]
    · rw [hs]
      exact hp.store ha hnew (registerProtocol_listeners hok)

/-- A step is made of steps of the event loop. -/
theorem step_loop (hp : Placed s) (hs : Step passes s s') :
    Relation.ReflTransGen EventLoop.Step s.loop s'.loop := by
  cases hs with
  | epollWait | listener | wouldBlock | noHandler | handleEvent => exact .refl
  | newConnection connFd os hphase ha ho he | newConnectionThrows connFd os hphase ha ho he =>
    have hs := EventLoop.Step.newConnection _ connFd os hp.current (hp.accepting _ hphase) ha ho
    rw [he] at hs
    exact .single hs
  | finishEvent out dead hphase hfound hout =>
    obtain ⟨h', rfl, hreading, hpasses⟩ := hout
    exact finishEvent_steps hp.current (hp.handling _ hphase) hfound hreading hpasses dead
  | socket fd ha ho => exact .single (.socket fd ha ho)
  | registerProtocol fd handler isListener os hnew =>
    have hcall := EventLoop.Step.registerProtocol (s := s.loop) fd handler isListener os hnew
    rcases registerProtocol_stores s fd handler isListener os with hs | ⟨loop, hok, hs, -, -⟩
    · rw [hs]
    · rw [hok] at hcall
      rw [hs]
      exact .single hcall
  | runTask hfound hstep htasks => exact .single (.runTask hfound hstep htasks)
  | runOrphan h => exact .single (.runOrphan h)

/-- With the two handlers of the library a run of batches is a run of the event loop. -/
theorem run_reachable (params : ConnParams) (s₀ : State) (run : List State)
    (h : IsRun (Start params) (Step passes) s₀ run) (hbatch : (s₀ :: run).IsChain Delivers) :
    ∀ s ∈ s₀ :: run, Reachable (EventLoop.Start params) EventLoop.Step s.loop := by
  have hinv : ∀ s ∈ s₀ :: run, (Awaited s ∧ Placed s) ∧
      Reachable (EventLoop.Start params) EventLoop.Step s.loop := by
    refine (h.and hbatch).inv (fun s hs => ?_) fun s s' hi hs => ?_
    · refine ⟨⟨start_awaited hs, ?_⟩, .start hs.1⟩
      have hcurrent : s.loop.current = none := by rw [show s.loop = _ from hs.1]
      rw [hs.2]
      exact ⟨hcurrent, fun _ he => (nomatch he), fun _ he => nomatch he⟩
    · obtain ⟨⟨ha, hp⟩, s₁, hstart, hsteps⟩ := hi
      exact ⟨⟨step_awaited ha hs.1 hs.2, step_placed hp ha hs.1⟩, s₁, hstart,
        hsteps.trans (step_loop hp hs.1)⟩
  exact fun s hs => (hinv s hs).2

end NebulaToolkit.EventBatch
