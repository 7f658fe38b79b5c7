import NebulaToolkit.Datagrams
import NebulaToolkit.Lib.Loops
/-!
# The loops around `read`, `recvfrom` and `accept4`

Each loop as the passes that go on, fed with what the system calls return. Where
the TCP handler stops reading (`drained_iff`), and which results end the loops
(`loops_end_iff`).
-/

namespace NebulaToolkit

open Lib UnPacker

/-- What a system call returns, `errno` included. -/
inductive SysResult (α : Type) where
  | ok (a : α)
  | fails (errno : Nat)

/-- `EAGAIN`, and `EWOULDBLOCK` too. -/
def eAgain : Nat := 11

/-- From some point on every call fails. -/
def FailsForGood {α : Type} (results : Nat → SysResult α) : Prop :=
  ∃ n₀, ∀ n, n₀ ≤ n → ∃ errno, results n = .fails errno

/-- `capacity` is not 0 behind `GetLinearWriteSpace`. -/
def UnPacker.HasRoom (u : UnPacker) : Prop := u.getLinearWriteSpace.2 ≠ 0

/-! ## `TcpHandler::ProcessReadableEvent` -/

namespace TcpHandler

/-- The branches behind `read`. -/
def readResult : SysResult (List UInt8) → ReadResult
  | .ok [] => .eof
  | .ok (b :: bs) => .bytes (b :: bs)
  | .fails errno => if errno = eAgain then .wouldBlock else .error

/-- A pass that goes on: some bytes, no more than there is room for. -/
inductive Pass (h : TcpHandler) : SysResult (List UInt8) → TcpHandler → Prop
  | bytes {r : SysResult (List UInt8)} {buf : List UInt8} {packs : List (List UInt8)}
      {u' : UnPacker} : h.unpacker.HasRoom → readResult r = .bytes buf →
        buf.length ≤ h.unpacker.getLinearWriteSpace.2 → (filled h.unpacker buf).Gets packs u' →
      Pass h r { h with unpacker := u', packs := packs }

/-- A pass that ends the loop. -/
def ended (h : TcpHandler) (r : ReadResult) : TcpHandler :=
  match r with
  | .eof | .error => { h with shouldClose := true }
  | _ => h

/-- `HandleEvent` returns after some calls of `read`, with what is left of the handler. -/
inductive Returns (h : TcpHandler) (event : Event) (results : Nat → SysResult (List UInt8)) : Nat →
    TcpHandler → Prop
  | skipped : (h.handleEvent event).1 = false → Returns h event results 0 (h.handleEvent event).2
  | bufferFull {n : Nat} {h' : TcpHandler} : (h.handleEvent event).1 = true →
      Fed Pass results (h.handleEvent event).2 n h' → ¬ h'.unpacker.HasRoom → Returns h event results n h'
  | last {n : Nat} {h' : TcpHandler} : (h.handleEvent event).1 = true →
      Fed Pass results (h.handleEvent event).2 n h' → h'.unpacker.HasRoom →
      (∀ buf, readResult (results n) ≠ .bytes buf) →
      Returns h event results (n + 1) (ended h' (readResult (results n)))

variable {h h' : TcpHandler} {event : Event} {results : Nat → SysResult (List UInt8)} {calls : Nat}

theorem readResult_ne_nil {r : SysResult (List UInt8)} {buf : List UInt8}
    (h : readResult r = .bytes buf) : buf ≠ [] := by
  unfold readResult at h
  split at h
  · cases h
  · cases h
    exact List.cons_ne_nil _ _
  · split at h <;> cases h

/-- The reactor thread is in the read loop of `h`. -/
def Reading (h : TcpHandler) (s : System) : Prop := s.handler = h ∧ s.reading = true

/-- A pass is a step of the handler, ... -/
theorem Pass.step {s : System} {r : SysResult (List UInt8)} (hp : Pass h r h') (hr : Reading h s) :
    ∃ s', Step s s' ∧ Reading h' s' := by
  obtain ⟨rfl, hr⟩ := hr
  cases hp with
  | bytes _ hb hlen hg => exact ⟨_, .read hr (readResult_ne_nil hb) hlen hg, rfl, hr⟩

/-- ... some passes are a run of it, ... -/
theorem fed_steps {s : System} {n : Nat} (hf : Fed Pass results h n h') (hr : Reading h s) :
    ∃ s', Relation.ReflTransGen Step s s' ∧ Reading h' s' :=
  hf.simulate (fun _ _ _ _ hp => hp.step) hr

/-- ... and a call that returns is one to where it is not reading. -/
theorem Returns.steps (hret : Returns h event results calls h') {s : System} (hh : s.handler = h)
    (hr : s.reading = false) :
    ∃ s', Relation.ReflTransGen Step s s' ∧ s'.handler = h' ∧ s'.reading = false := by
  subst hh
  let s₁ : System :=
    { s with handler := (s.handler.handleEvent event).2, reading := (s.handler.handleEvent event).1 }
  have hfirst : Step s s₁ := .handleEvent event hr
  cases hret with
  | skipped hs => exact ⟨_, .single hfirst, rfl, hs⟩
  | bufferFull hs hf hfull =>
    obtain ⟨s', hsteps, rfl, hr'⟩ := fed_steps (s := s₁) hf ⟨rfl, hs⟩
    exact ⟨_, (Relation.ReflTransGen.head hfirst hsteps).tail (.bufferFull hr' (not_not.1 hfull)), rfl, rfl⟩
  | @last n _ hs hf hroom hlast =>
    obtain ⟨s', hsteps, rfl, hr'⟩ := fed_steps (s := s₁) hf ⟨rfl, hs⟩
    refine ⟨_, (Relation.ReflTransGen.head hfirst hsteps).tail
      (.readEnds (readResult (results n)) hr' hroom hlast), ?_, rfl⟩
    unfold ended
    cases readResult (results n) <;> rfl

/-! ### What is left in the socket -/

/-- The last call said that there is no more: nothing now, the end, or an error. -/
def Drained (results : Nat → SysResult (List UInt8)) (calls : Nat) : Prop :=
  ∃ n, calls = n + 1 ∧ ∀ buf, readResult (results n) ≠ .bytes buf

/-- An event on the handler's descriptor that says there is something to read. -/
def Readable (h : TcpHandler) (event : Event) : Prop :=
  event.fd = h.fd ∧ event.eventFlags &&& EventFlags.kReadable ≠ 0

/-- The flags with which the handler is closed without reading. -/
def Closes (event : Event) : Prop :=
  event.eventFlags &&& EventFlags.kError ≠ 0 ∨ event.eventFlags &&& EventFlags.kHangUp ≠ 0

theorem handleEvent_closes (he : Readable h event) (hc : Closes event) :
    h.handleEvent event = (false, { h with shouldClose := true }) := by
  unfold handleEvent
  rw [if_neg (not_not.2 he.1)]
  by_cases herror : event.eventFlags &&& EventFlags.kError ≠ 0
  · rw [if_pos herror]
  · rw [if_neg herror, if_pos (hc.resolve_left herror)]

theorem handleEvent_reads (he : Readable h event) (hc : ¬ Closes event) :
    h.handleEvent event = (true, h) := by
  unfold Closes at hc
  unfold handleEvent
  rw [if_neg (not_not.2 he.1), if_neg fun h => hc (.inl h), if_neg fun h => hc (.inr h)]
  exact Prod.ext (decide_eq_true he.2) rfl

theorem Pass.unique {r : SysResult (List UInt8)} {h'' : TcpHandler} (hp : Pass h r h')
    (hp' : Pass h r h'') : h' = h'' := by
  cases hp with
  | bytes _ hb _ hg =>
    cases hp' with
    | bytes _ hb' _ hg' =>
      obtain rfl := ReadResult.bytes.inj (hb.symm.trans hb')
      obtain ⟨rfl, rfl⟩ := hg.unique hg'
      rfl

theorem Pass.hasRoom {r : SysResult (List UInt8)} (hp : Pass h r h') : h.unpacker.HasRoom := by
  cases hp with
  | bytes hroom => exact hroom

/-- A pass goes on only with bytes. -/
theorem Pass.reads {r : SysResult (List UInt8)} (hp : Pass h r h') : ∃ buf, readResult r = .bytes buf := by
  cases hp with
  | bytes _ hb => exact ⟨_, hb⟩

/-- A readable event is read until there is no more just when the handler is not closed on it
and each pass begins with room in the ring. When it is closed, nothing is read. -/
theorem drained_iff (he : Readable h event) (hret : Returns h event results calls h') :
    (Drained results calls ↔
        ¬ Closes event ∧ ∀ n h₁, Fed Pass results h n h₁ → h₁.unpacker.HasRoom) ∧
      (Closes event → calls = 0 ∧ h' = { h with shouldClose := true }) := by
  by_cases hc : Closes event
  · have hev := handleEvent_closes he hc
    cases hret with
    | skipped _ =>
      refine ⟨iff_of_false ?_ fun h => h.1 hc, fun _ => ⟨rfl, congrArg Prod.snd hev⟩⟩
      rintro ⟨n, hn, -⟩
      cases hn
    | bufferFull hs _ _ | last hs _ _ _ =>
      rw [hev] at hs
      cases hs
  refine ⟨?_, fun h => absurd h hc⟩
  rw [and_iff_right hc]
  have hev := handleEvent_reads he hc
  cases hret with
  | skipped hs =>
    rw [hev] at hs
    cases hs
  | bufferFull _ hf hfull =>
    rw [hev] at hf
    refine iff_of_false ?_ fun hroom => hfull (hroom _ _ hf)
    -- The last call was the one before the ring was full, and it read bytes.
    rintro ⟨n, rfl, hlast⟩
    obtain ⟨_, _, -, hp⟩ := hf.passed (Nat.lt_succ_self n)
    obtain ⟨buf, hb⟩ := hp.reads
    exact hlast buf hb
  | @last n h' _ hf hroom hlast =>
    rw [hev] at hf
    refine iff_of_true ⟨n, rfl, hlast⟩ fun m h₁ hf₁ => ?_
    have hdet : ∀ s r s' s'', Pass s r s' → Pass s r s'' → s' = s'' := fun _ _ _ _ hp hp' => hp.unique hp'
    rcases Nat.lt_trichotomy m n with hlt | rfl | hgt
    · obtain ⟨_, hp⟩ := hf.goes_on hdet hf₁ hlt
      exact hp.hasRoom
    · obtain rfl := hf₁.unique hdet hf
      exact hroom
    · obtain ⟨_, _, -, hp⟩ := hf₁.passed hgt
      obtain ⟨buf, hb⟩ := hp.reads
      exact absurd hb (hlast buf)

/-- The theorem for two frames, each read by a call of its own, and then no more. -/
theorem drained_two_frames :
    let results : Nat → SysResult (List UInt8) :=
  fun n => if n = 0 then .ok [1, 7, 2] else if n = 1 then .ok [1, 8, 2] else .fails eAgain
    ∃ h', Returns { fd := 3, unpacker := oneTwo }
      ⟨3, EventFlags.kReadable ||| EventFlags.kWritable⟩ results 3 h' ∧ Drained results 3 := by
  intro results
  let h : TcpHandler := { fd := 3, unpacker := oneTwo }
  have hplay : (getPack 3 (filled oneTwo [1, 7, 2]) []).map (fun r => (r.2.1, r.2.2.getLinearWriteSpace.2,
      (getPack 3 (filled r.2.2 [1, 8, 2]) []).map fun r' => (r'.2.1, r'.2.2.getLinearWriteSpace.2))) =
      .ok ([[1, 7, 2]], 5, .ok ([[1, 8, 2]], 2)) := by decide
  obtain ⟨res₁, packs₁, u₁, hg₁, hplay⟩ := gets_of_getPack hplay
  simp only [Prod.mk.injEq] at hplay
  obtain ⟨rfl, hw₁, hplay⟩ := hplay
  obtain ⟨res₂, packs₂, u₂, hg₂, hplay⟩ := gets_of_getPack hplay
  simp only [Prod.mk.injEq] at hplay
  obtain ⟨rfl, hw₂⟩ := hplay
  have hroom₀ : h.unpacker.HasRoom := by
    unfold HasRoom
    decide
  have hroom₁ : u₁.HasRoom := by
    unfold HasRoom
    omega
  have hroom₂ : u₂.HasRoom := by
    unfold HasRoom
    omega
  have hf₁ : Fed Pass results h 1 { h with unpacker := u₁, packs := [[1, 7, 2]] } :=
    .next .start (.bytes hroom₀ rfl (by decide) hg₁)
  have hf₂ : Fed Pass results h 2 { h with unpacker := u₂, packs := [[1, 8, 2]] } :=
    hf₁.next (.bytes hroom₁ rfl (by show 3 ≤ u₁.getLinearWriteSpace.2; omega) hg₂)
  have hno : ∀ buf, readResult (results 2) ≠ .bytes buf := fun _ hb => nomatch hb
  have hret : Returns h ⟨3, EventFlags.kReadable ||| EventFlags.kWritable⟩ results 3 _ :=
    .last rfl hf₂ hroom₂ hno
  refine ⟨_, hret,
    (drained_iff ⟨rfl, by decide⟩ hret).1.2 ⟨by unfold Closes; decide, fun n h₁ hf => ?_⟩⟩
  have hdet : ∀ s r s' s'', Pass s r s' → Pass s r s'' → s' = s'' := fun _ _ _ _ hp hp' => hp.unique hp'
  match n with
  | 0 => exact hf.unique hdet .start ▸ hroom₀
  | 1 => exact hf.unique hdet hf₁ ▸ hroom₁
  | 2 => exact hf.unique hdet hf₂ ▸ hroom₂
  | n + 3 =>
    obtain ⟨_, _, -, hp⟩ := hf.passed (show 2 < n + 3 by omega)
    obtain ⟨buf, hb⟩ := hp.reads
    exact absurd hb (hno buf)

/-- A byte is waiting in the socket: it is not read with a hang-up, and the next one is not
read when the byte has filled the ring. -/
theorem left_unread :
    (∃ h h', Readable h ⟨3, EventFlags.kReadable ||| EventFlags.kHangUp⟩ ∧
      Returns h ⟨3, EventFlags.kReadable ||| EventFlags.kHangUp⟩ (fun _ => .ok [7]) 0 h' ∧
      ¬ Drained (fun _ => .ok [7]) 0) ∧
    ∃ h h', Readable h ⟨3, EventFlags.kReadable⟩ ∧
    Returns h ⟨3, EventFlags.kReadable⟩ (fun _ => .ok [7]) 1 h' ∧
      ¬ Drained (fun _ => .ok [7]) 1 := by
  let h : TcpHandler := { fd := 3, unpacker := createBasic [1] [2] 1 (by decide) }
  refine ⟨⟨h, _, ⟨rfl, by decide⟩, .skipped rfl, fun ⟨n, hn, _⟩ => nomatch hn⟩, ?_⟩
  have hroom : h.unpacker.HasRoom := by
    unfold HasRoom
    decide
  have hplay : (getPack 2 (filled h.unpacker [7]) []).map
      (fun r => (r.2.1, r.2.2.getLinearWriteSpace.2)) = .ok ([], 0) := by decide
  obtain ⟨res, packs, u', hgets, hplay⟩ := gets_of_getPack hplay
  simp only [Prod.mk.injEq] at hplay
  have hfed : Fed Pass (fun _ => .ok [7]) h 1 { h with unpacker := u', packs := packs } :=
    .next .start (.bytes hroom rfl (by decide) hgets)
  refine ⟨h, _, ⟨rfl, by decide⟩, .bufferFull rfl hfed (not_not.2 hplay.2), ?_⟩
  rintro ⟨n, -, hlast⟩
  exact hlast [7] rfl

end TcpHandler

/-! ## `UdpHandler::HandleEvent` -/

namespace UdpHandler

/-- The unpacker when `CommitWriteSize` returns. -/
def committed (u : UnPacker) : SysResult (List UInt8) → UnPacker
  | .ok d => received u d
  | .fails _ => commitFailed u

/-- A pass that goes on: with a datagram, and also with an error that is not `EAGAIN`. -/
inductive Pass (h : UdpHandler) : SysResult (List UInt8) → UdpHandler → Prop
  | datagram {d : List UInt8} {packs : List (List UInt8)} {u' : UnPacker} : h.unpacker.HasRoom →
      (committed h.unpacker (.ok d)).Gets packs u' → Pass h (.ok d) { h with unpacker := u', packs := packs }
  | failed {errno : Nat} {packs : List (List UInt8)} {u' : UnPacker} : h.unpacker.HasRoom → errno ≠ eAgain →
      (committed h.unpacker (.fails errno)).Gets packs u' →
      Pass h (.fails errno) { h with shouldClose := true, unpacker := u', packs := packs }

variable {h h' : UdpHandler} {results : Nat → SysResult (List UInt8)}

/-- The reactor thread is in the loop of `h`. -/
def Reading (h : UdpHandler) (s : System) : Prop := s.handler = h ∧ s.reading = true

/-- A pass is a step of the handler, ... -/
theorem Pass.step {s : System} {r : SysResult (List UInt8)} (hp : Pass h r h') (hr : Reading h s) :
    ∃ s', Step s s' ∧ Reading h' s' := by
  obtain ⟨rfl, hr⟩ := hr
  cases hp with
  | datagram hroom hg => exact ⟨_, (Receives.pass hr hroom hg).step, rfl, hr⟩
  | failed hroom _ hg => exact ⟨_, .recvFails hr hroom hg, rfl, hr⟩

/-- ... and some passes are a run of it. -/
theorem fed_steps {s : System} {n : Nat} (hf : Fed Pass results h n h') (hr : Reading h s) :
    ∃ s', Relation.ReflTransGen Step s s' ∧ Reading h' s' :=
  hf.simulate (fun _ _ _ _ hp => hp.step) hr

theorem Pass.unique {r : SysResult (List UInt8)} {h'' : UdpHandler} (hp : Pass h r h')
    (hp' : Pass h r h'') : h' = h'' := by
  cases hp with
  | datagram _ hg =>
    cases hp' with
    | datagram _ hg' =>
      obtain ⟨rfl, rfl⟩ := hg.unique hg'
      rfl
  | failed _ _ hg =>
    cases hp' with
    | failed _ _ hg' =>
      obtain ⟨rfl, rfl⟩ := hg.unique hg'
      rfl

theorem Pass.hasRoom {r : SysResult (List UInt8)} (hp : Pass h r h') : h.unpacker.HasRoom := by
  cases hp with
  | datagram hroom => exact hroom
  | failed hroom => exact hroom

theorem Pass.ne_eAgain (hp : Pass h (.fails eAgain) h') : False := by
  cases hp with
  | failed _ hne => exact hne rfl

/-- With any other result the loop goes on when `Get` comes back. -/
theorem no_pass_iff {r : SysResult (List UInt8)} (hroom : h.unpacker.HasRoom) (hr : r ≠ .fails eAgain) :
    (∀ h', ¬ Pass h r h') ↔ ∀ packs u', ¬ (committed h.unpacker r).Gets packs u' := by
  constructor
  · intro hno packs u' hg
    cases r with
    | ok d => exact hno _ (.datagram hroom hg)
    | fails errno => exact hno _ (.failed hroom (fun he => hr (he ▸ rfl)) hg)
  · intro hno h' hp
    cases hp with
    | datagram _ hg => exact hno _ _ hg
    | failed _ _ hg => exact hno _ _ hg

/-- The calls of `recvfrom` end at an `EAGAIN`, or where the ring is full or a `Get` does not come back. -/
theorem recvs_end_iff : FinitelyMany (·.unpacker.HasRoom) Pass results h ↔
    (∃ n, results n = .fails eAgain) ∨ ∃ n h', Fed Pass results h n h' ∧ results n ≠ .fails eAgain ∧
      (h'.unpacker.HasRoom → ∀ packs u', ¬ (committed h'.unpacker (results n)).Gets packs u') := by
  refine (finitelyMany_iff_last (· = .fails eAgain) (fun _ _ _ _ hp hp' => hp.unique hp')
    (fun _ _ _ hp => hp.hasRoom)
    fun _ _ _ he hp => Pass.ne_eAgain (he ▸ hp)).trans ?_
  refine or_congr_right (exists₂_congr fun n h' => and_congr_right fun _ => and_congr_right fun hr => ?_)
  exact forall_congr' fun hroom => no_pass_iff hroom hr

end UdpHandler

/-! ## `ReactorCore::HandleNewConnections` -/

namespace EventLoop

open ReactorCore (Registering)

/-- A pass that goes on: with a connection that is registered, and with an error that is not `EAGAIN`. -/
inductive Pass (s : State) : SysResult (Int × Registering) → State → Prop
  | accepted {connFd : Int} {os : Registering} {s' : State} :
      (s.accept connFd).createConnHandler connFd os = (none, s') → Pass s (.ok (connFd, os)) s'
  | failed {errno : Nat} : errno ≠ eAgain → Pass s (.fails errno) s

/-- `CreateConnHandler` throws for the connection `accept4` has returned. -/
def Throws (s : State) (r : SysResult (Int × Registering)) : Prop :=
  ∃ connFd os, r = .ok (connFd, os) ∧ ((s.accept connFd).createConnHandler connFd os).1 ≠ none

variable {s s' : State} {results : Nat → SysResult (Int × Registering)}

/-- A pass is a step of the reactor, or none. -/
theorem Pass.step {listenFd : Int} {r : SysResult (Int × Registering)} (hc : s.current = none)
    (hl : listenFd ∈ s.listeners)
    (hnew : ∀ connFd os, r = .ok (connFd, os) → connFd ∉ s.accepted ∧ connFd ∉ s.own) (hp : Pass s r s') :
    s' = s ∨ Step s s' := by
  cases hp with
  | @accepted connFd os _ hcreate =>
    obtain ⟨hacc, hown⟩ := hnew connFd os rfl
    have hstep := Step.newConnection listenFd connFd os hc hl hacc hown
    rw [hcreate] at hstep
    exact .inr hstep
  | failed _ => exact .inl rfl

theorem Pass.unique {r : SysResult (Int × Registering)} {s'' : State} (hp : Pass s r s')
    (hp' : Pass s r s'') : s' = s'' := by
  cases hp with
  | accepted hcreate =>
    cases hp' with
    | accepted hcreate' => exact (Prod.mk.injEq .. ▸ hcreate.symm.trans hcreate').2
  | failed _ =>
    cases hp' with
    | failed _ => rfl

theorem Pass.ne_eAgain (hp : Pass s (.fails eAgain) s') : False := by
  cases hp with
  | failed hne => exact hne rfl

theorem no_pass_iff {r : SysResult (Int × Registering)} (hr : r ≠ .fails eAgain) :
    (∀ s', ¬ Pass s r s') ↔ Throws s r := by
  constructor
  · intro hno
    cases r with
    | ok conn => exact ⟨conn.1, conn.2, rfl, fun hnone => hno _ (.accepted (Prod.ext hnone rfl))⟩
    | fails errno => exact absurd (.failed fun he => hr (he ▸ rfl)) (hno s)
  · rintro ⟨connFd, os, rfl, hthrow⟩ s' hp
    cases hp with
    | accepted hcreate => exact hthrow (congrArg Prod.fst hcreate)

/-- The calls of `accept4` end at an `EAGAIN` or an exception. -/
theorem accepts_end_iff : FinitelyMany (fun _ => True) Pass results s ↔
    (∃ n, results n = .fails eAgain) ∨ ∃ n s', Fed Pass results s n s' ∧ Throws s' (results n) := by
  refine (finitelyMany_iff_last (· = .fails eAgain) (fun _ _ _ _ hp hp' => hp.unique hp')
    (fun _ _ _ _ => trivial)
    fun _ _ _ he hp => Pass.ne_eAgain (he ▸ hp)).trans ?_
  refine or_congr_right (exists₂_congr fun n s' => and_congr_right fun _ => ?_)
  constructor
  · rintro ⟨hr, hno⟩
    exact (no_pass_iff hr).1 (hno trivial)
  · intro hthrow
    have hr : results n ≠ .fails eAgain := by
      obtain ⟨connFd, os, hr, -⟩ := hthrow
      rw [hr]
      exact nofun
    exact ⟨hr, fun _ => (no_pass_iff hr).2 hthrow⟩

/-! ## Errors that stay -/

/-- The three loops make finitely many calls, from the reactor `s` and handlers in any state. -/
def LoopsEnd (accepts : Nat → SysResult (Int × Registering))
    (datagrams reads : Nat → SysResult (List UInt8)) (s : State) (udp : UdpHandler)
    (tcp : TcpHandler) : Prop :=
  FinitelyMany (fun _ => True) Pass accepts s ∧
  FinitelyMany (·.unpacker.HasRoom) UdpHandler.Pass datagrams udp ∧
    FinitelyMany (·.unpacker.HasRoom) TcpHandler.Pass reads tcp

theorem reads_end {reads : Nat → SysResult (List UInt8)} (hr : FailsForGood reads) (tcp : TcpHandler) :
    FinitelyMany (·.unpacker.HasRoom) TcpHandler.Pass reads tcp := by
  obtain ⟨n, hn⟩ := hr
  obtain ⟨errno, herr⟩ := hn n (Nat.le_refl n)
  refine finitelyMany_of_last (n := n) fun h h' hp => ?_
  rw [herr] at hp
  cases hp with
  | bytes _ hb =>
    unfold TcpHandler.readResult at hb
    dsimp only at hb
    split at hb <;> cases hb

/-- When every call fails from some point on, the loops end if and only if `accept4` fails with `EAGAIN`
once or a registration throws, and `recvfrom` fails with `EAGAIN` once or its loop comes to a full ring or to
a `Get` that does not come back. -/
theorem loops_end_iff {accepts : Nat → SysResult (Int × Registering)}
    {datagrams reads : Nat → SysResult (List UInt8)} (hr : FailsForGood reads) (s : State)
    (udp : UdpHandler) (tcp : TcpHandler) : LoopsEnd accepts datagrams reads s udp tcp ↔
      ((∃ n, accepts n = .fails eAgain) ∨ ∃ n s', Fed Pass accepts s n s' ∧ Throws s' (accepts n)) ∧
        ((∃ n, datagrams n = .fails eAgain) ∨
          ∃ n h', Fed UdpHandler.Pass datagrams udp n h' ∧ datagrams n ≠ .fails eAgain ∧
          (h'.unpacker.HasRoom →
            ∀ packs u', ¬ (UdpHandler.committed h'.unpacker (datagrams n)).Gets packs u')) := by
  unfold LoopsEnd
  rw [accepts_end_iff, UdpHandler.recvs_end_iff, and_iff_left (reads_end hr tcp)]

/-- The theorem when each socket has something first, the first two then an error that passes
(`EMFILE`, `ECONNREFUSED`), and all are empty in the end. -/
theorem loops_end_after_errors : LoopsEnd
    (fun n => if n = 0 then .ok (5, {}) else if n = 1 then .fails 24 else .fails eAgain)
    (fun n => if n = 0 then .ok [1, 7, 2] else if n = 1 then .fails 111 else .fails eAgain)
    (fun n => if n < 2 then .ok [1, 7, 2] else .fails eAgain)
    (listening framing) UdpHandler.fresh.handler { fd := 4, unpacker := oneTwo } := by
  refine (loops_end_iff ⟨2, fun n hn => ⟨eAgain, ?_⟩⟩ _ _ _).2 ⟨.inl ⟨2, rfl⟩, .inl ⟨2, rfl⟩⟩
  rw [if_neg (Nat.not_lt.2 hn)]

/-- `EMFILE` from `accept4` and `ECONNREFUSED` from `recvfrom`, every time. -/
theorem errors_loop : (FailsForGood (fun _ => .fails 24 : Nat → SysResult (Int × Registering)) ∧
      ¬ FinitelyMany (fun _ => True) Pass (fun _ => .fails 24) {}) ∧
    FailsForGood (fun _ => .fails 111 : Nat → SysResult (List UInt8)) ∧
      ¬ FinitelyMany (·.unpacker.HasRoom) UdpHandler.Pass (fun _ => .fails 111) UdpHandler.fresh.handler := by
  refine ⟨⟨⟨0, fun _ _ => ⟨24, rfl⟩⟩, fun hfin => ?_⟩, ⟨0, fun _ _ => ⟨111, rfl⟩⟩,
    fun hfin => ?_⟩
  · rcases accepts_end_iff.1 hfin with ⟨n, hn⟩ | ⟨n, s', -, connFd, os, hr, -⟩
    · cases hn
    · cases hr
  · -- The refused commit leaves the ring as it is, and there is nothing to extract.
    have hsame : UdpHandler.committed UdpHandler.fresh.handler.unpacker (.fails 111) =
        UdpHandler.fresh.handler.unpacker :=
      UdpHandler.commitFailed_eq UdpHandler.fresh_inv
    have hgets : (UdpHandler.committed UdpHandler.fresh.handler.unpacker (.fails 111)).Gets []
        UdpHandler.fresh.handler.unpacker := by
      rw [hsame]
      exact gets_iff.2 (packs_iff.2 ⟨1, .kSuccess, rfl⟩)
    rcases UdpHandler.recvs_end_iff.1 hfin with ⟨n, hn⟩ | ⟨n, h', hf, -, hno⟩
    · cases hn
    · have hring : h'.unpacker = UdpHandler.fresh.handler.unpacker := by
        refine hf.inv (I := fun h => h.unpacker = UdpHandler.fresh.handler.unpacker) rfl
          fun n h h₁ hh hp => ?_
        cases hp with
        | failed _ _ hg =>
          rw [hh] at hg
          exact (hg.unique hgets).2
      rw [hring] at hno
      have hroom : UdpHandler.fresh.handler.unpacker.HasRoom := by
        unfold HasRoom
        decide
      exact hno hroom _ _ hgets

end EventLoop

end NebulaToolkit
