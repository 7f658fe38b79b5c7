import Mathlib.Data.Finset.Basic
import NebulaToolkit.TcpHandler
/-!
# The reactor's connection parameters

`net::ReactorCore` keeps the keys and callbacks for the connections it accepts.
`CreateConnHandler` hands its own members to the unpacker as rvalues, so the
first connection takes them away: it leaves them empty for every later one
(`later_connections_kNone`). The capacity is a constant of the code, whatever
was configured.
-/

namespace NebulaToolkit

open Lib

/-- The members `SetConnHandlerParams` sets; an empty callback is `none`. -/
structure ConnParams where
  headKey : List UInt8 := []
  tailKey : List UInt8 := []
  dataSzCb : Option DataSzCb := none
  checkSzCb : Option CheckValidCb := none
  execCb : Option ExecCb := none
  bufferSize : Nat := 1024

/-- The reactor's maps, for handlers of type `H`. -/
structure ReactorCore (H : Type) where
  /-- `none` where there is no entry; the entry of a listener is the null pointer. -/
  protocolHandlers : Int → Option (Option H) := fun _ => none
  listeners : Finset Int := ∅
  params : ConnParams := {}

namespace ReactorCore

/-- Whether the three system calls of `RegisterProtocol` succeed. -/
structure Registering where
  getFl : Bool := true
  setFl : Bool := true
  epollAdd : Bool := true

variable {H : Type}

def setConnHandlerParams (r : ReactorCore H) (params : ConnParams) : ReactorCore H :=
  { r with params := params }

/-- `RegisterProtocol`; an error is the text of the exception. -/
def registerProtocol (r : ReactorCore H) (fd : Int) (handler : Option H) (isListener : Bool)
    (os : Registering) :
    Except String (ReactorCore H) :=
  if ¬ os.getFl then .error "fcntl F_GETFL"
  else if ¬ os.setFl then .error "fcntl O_NONBLOCK"
  else if ¬ os.epollAdd then .error "epoll_ctl ADD"
  else .ok { r with
    protocolHandlers := Function.update r.protocolHandlers fd (some handler)
    listeners := if isListener then insert fd r.listeners else r.listeners }

/-- What the move constructors of the keys and of the callbacks leave behind. -/
def movedFrom (params : ConnParams) : ConnParams :=
  { params with headKey := [], tailKey := [], dataSzCb := none, checkSzCb := none }

/-- `CreateConnHandler(conn_fd)` up to the registration: the handler built, and the reactor afterwards. -/
def buildConnHandler (r : ReactorCore H) (connFd : Int) : TcpHandler × ReactorCore H :=
  let unpacker := UnPacker.createWithCallbacks r.params.headKey r.params.tailKey r.params.dataSzCb
    r.params.checkSzCb 1024 (by decide)
  -- `std::forward` passes the members themselves, and the unpacker's constructor moves out of them.
  let r₁ := { r with params := movedFrom r.params }
  (TcpHandler.setCallback { fd := connFd, unpacker := unpacker } r₁.params.execCb, r₁)

/-- `CreateConnHandler(conn_fd)`: the handler built, the exception thrown if there is
one, and the reactor afterwards. -/
def createConnHandler (r : ReactorCore TcpHandler) (connFd : Int) (os : Registering) :
    (TcpHandler × Option String) × ReactorCore TcpHandler :=
  let (handler, r₁) := r.buildConnHandler connFd
  match r₁.registerProtocol connFd (some handler) false os with
  | .ok r₂ => ((handler, none), r₂)
  | .error e => ((handler, some e), r₁)

/-- Connections accepted one after another: the handlers built, and the reactor afterwards. -/
def acceptAll (r : ReactorCore TcpHandler) (conns : List (Int × Registering)) :
    List (TcpHandler × Option String) × ReactorCore TcpHandler :=
  runOut (fun r conn => r.createConnHandler conn.1 conn.2) r conns

/-- The framing of an unpacker is the one configured. -/
def Framed (params : ConnParams) (u : UnPacker) : Prop :=
  u.headKey = params.headKey ∧ u.tailKey = params.tailKey ∧ u.dataSzCb = params.dataSzCb ∧
    u.checkSzCb = params.checkSzCb ∧ u.capacity = params.bufferSize

/-- All connections get the configured framing, and the configuration stays. -/
def AllFramed (r : ReactorCore TcpHandler) (params : ConnParams) (conns : List (Int × Registering)) : Prop :=
  (∀ o ∈ ((r.setConnHandlerParams params).acceptAll conns).1, Framed params o.1.unpacker) ∧
    ((r.setConnHandlerParams params).acceptAll conns).2.params = params

variable {params : ConnParams}

/-- Either one of the calls fails and the text says which, or the entry is stored. -/
theorem registerProtocol_cases (r : ReactorCore H) (fd : Int) (handler : Option H) (isListener : Bool)
    (os : Registering) :
    (∃ e, r.registerProtocol fd handler isListener os = .error e) ∨
      (os.getFl = true ∧ os.setFl = true ∧ os.epollAdd = true) ∧
      r.registerProtocol fd handler isListener os = .ok { r with
        protocolHandlers := Function.update r.protocolHandlers fd (some handler)
        listeners := if isListener then insert fd r.listeners else r.listeners } := by
  unfold registerProtocol
  by_cases hget : os.getFl = true
  swap
  · exact .inl ⟨_, if_pos hget⟩
  by_cases hset : os.setFl = true
  swap
  · exact .inl ⟨_, by rw [if_neg (not_not.2 hget), if_pos hset]⟩
  by_cases hadd : os.epollAdd = true
  swap
  · exact .inl ⟨_, by rw [if_neg (not_not.2 hget), if_neg (not_not.2 hset), if_pos hadd]⟩
  exact .inr ⟨⟨hget, hset, hadd⟩, by rw [if_neg (not_not.2 hget), if_neg (not_not.2 hset),
    if_neg (not_not.2 hadd)]⟩

/-- Whether or not the registration succeeds, keys and callbacks are gone. -/
theorem createConnHandler_params (r : ReactorCore TcpHandler) (fd : Int) (os : Registering) :
    (r.createConnHandler fd os).2.params = movedFrom r.params := by
  unfold createConnHandler
  dsimp only
  rcases registerProtocol_cases (r.buildConnHandler fd).2 fd
    (some (r.buildConnHandler fd).1) false os with ⟨e, he⟩ | ⟨-, he⟩ <;>
    rw [he] <;> rfl

theorem createConnHandler_unpacker (r : ReactorCore TcpHandler) (fd : Int) (os : Registering) :
    (r.createConnHandler fd os).1.1.unpacker =
      UnPacker.createWithCallbacks r.params.headKey r.params.tailKey r.params.dataSzCb r.params.checkSzCb
      1024 (by decide) := by
  unfold createConnHandler
  dsimp only
  split <;> rfl

theorem movedFrom_movedFrom (params : ConnParams) : movedFrom (movedFrom params) = movedFrom params := rfl

theorem movedFrom_eq_self : movedFrom params = params ↔
    params.headKey = [] ∧ params.tailKey = [] ∧ params.dataSzCb = none ∧ params.checkSzCb = none := by
  obtain ⟨h, t, dc, cc, ec, size⟩ := params
  simp only [movedFrom, ConnParams.mk.injEq, and_true]
  constructor <;> rintro ⟨rfl, rfl, rfl, rfl⟩ <;> exact ⟨rfl, rfl, rfl, rfl⟩

/-- The run: after the first connection the parameters are those moved from. -/
theorem acceptAll_params (conns : List (Int × Registering)) (r : ReactorCore TcpHandler) (h : conns ≠ []) :
    (r.acceptAll conns).2.params = movedFrom r.params := by
  induction conns generalizing r with
  | nil => exact absurd rfl h
  | cons conn conns ih =>
    show ((r.createConnHandler conn.1 conn.2).2.acceptAll conns).2.params = _
    have hfirst := createConnHandler_params r conn.1 conn.2
    cases conns with
    | nil => exact hfirst
    | cons conn' conns => rw [ih _ (by simp), hfirst, movedFrom_movedFrom]

/-- From parameters that a move does not change, every connection gets them. -/
theorem acceptAll_unpackers (conns : List (Int × Registering)) (r : ReactorCore TcpHandler)
    (h : movedFrom r.params = r.params) {o : TcpHandler × Option String} (ho : o ∈ (r.acceptAll conns).1) :
    o.1.unpacker = UnPacker.createWithCallbacks [] [] none none 1024 (by decide) := by
  obtain ⟨h1, h2, h3, h4⟩ := movedFrom_eq_self.1 h
  induction conns generalizing r with
  | nil => cases ho
  | cons conn conns ih =>
    rcases List.mem_cons.1 ho with rfl | ho
    · rw [createConnHandler_unpacker]
      simp only [h1, h2, h3, h4]
    · have hp := createConnHandler_params r conn.1 conn.2
      exact ih _ (by rw [hp]; exact movedFrom_movedFrom _) ho (by rw [hp]; rfl) (by rw [hp]; rfl)
        (by rw [hp]; rfl) (by rw [hp]; rfl)

/-- Whatever is configured, no connection but the first can find packets: its
unpacker has no keys. -/
theorem later_connections_kNone (conn : Int × Registering) (conns : List (Int × Registering))
    (r : ReactorCore TcpHandler) {o : TcpHandler × Option String}
    (ho : o ∈ ((r.createConnHandler conn.1 conn.2).2.acceptAll conns).1) :
    o.1.unpacker.unpackerModel = .kNone := by
  have hp := createConnHandler_params r conn.1 conn.2
  rw [acceptAll_unpackers conns _ (by rw [hp]; exact movedFrom_movedFrom _) ho]
  rfl

/-- The configured framing reaches all connections, and stays configured, exactly
when there are no keys and no callbacks to configure and the size is the one the
code uses. -/
theorem conns_framed (r : ReactorCore TcpHandler) (params : ConnParams) (conns : List (Int × Registering))
    (h : conns ≠ []) :
    AllFramed r params conns ↔ params.headKey = [] ∧ params.tailKey = [] ∧ params.dataSzCb = none ∧
      params.checkSzCb = none ∧ params.bufferSize = 1024 := by
  have hset : (r.setConnHandlerParams params).params = params := rfl
  constructor
  · rintro ⟨hf, hp⟩
    rw [acceptAll_params conns _ h, hset] at hp
    obtain ⟨h1, h2, h3, h4⟩ := movedFrom_eq_self.1 hp
    refine ⟨h1, h2, h3, h4, ?_⟩
    obtain ⟨conn, conns, rfl⟩ := List.exists_cons_of_ne_nil h
    have hfirst := (hf _ (List.mem_cons_self ..)).2.2.2.2
    rw [createConnHandler_unpacker] at hfirst
    exact hfirst.symm.trans (RingBuffer.ofSize_capacity (c := 1024) (by decide))
  · rintro ⟨h1, h2, h3, h4, h5⟩
    have hm : movedFrom params = params := movedFrom_eq_self.2 ⟨h1, h2, h3, h4⟩
    refine ⟨fun o ho => ?_, by rw [acceptAll_params conns _ h, hset, hm]⟩
    rw [acceptAll_unpackers conns _ (by rw [hset]; exact hm) ho]
    exact ⟨h1.symm, h2.symm, h3.symm, h4.symm,
      (RingBuffer.ofSize_capacity (c := 1024) (by decide)).trans h5.symm⟩

/-- The theorem without keys and callbacks. -/
theorem conns_framed_none : AllFramed {} {} [(5, {}), (6, { epollAdd := false })] :=
  (conns_framed {} {} [(5, {}), (6, { epollAdd := false })] (List.cons_ne_nil _ _)).2
    ⟨rfl, rfl, rfl, rfl, rfl⟩

/-- Two connections, with the keys `14 13` and `10`. -/
theorem second_connection_unframed :
    ¬ ∀ conns : List (Int × Registering), conns ≠ [] →
    AllFramed {} { headKey := [14, 13], tailKey := [10] } conns := by
  intro hall
  have hp := (hall [(5, {}), (6, {})] (List.cons_ne_nil _ _)).2
  rw [acceptAll_params _ _ (List.cons_ne_nil _ _)] at hp
  exact List.cons_ne_nil _ _ (movedFrom_eq_self.1 hp).1

end ReactorCore

end NebulaToolkit
