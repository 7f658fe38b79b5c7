import NebulaToolkit.Consumption
import NebulaToolkit.HandlerTasks
/-!
# What the ring keeps of a datagram

`recvfrom` gets the linear part of the free space and drops what it has no room
for. A datagram that fits into the free space is kept whole if and only if it
does not reach behind the end of the array (`datagrams_whole_iff`).
-/

namespace NebulaToolkit.UdpHandler

open Lib UnPacker
open TcpHandler (filled)

/-- The unpacker when `CommitWriteSize` returns: `recvfrom` had the next datagram `d` to copy from. -/
def received (u : UnPacker) (d : List UInt8) : UnPacker := filled u (d.take u.getLinearWriteSpace.2)

/-- The pass of the loop that takes the datagram `d` from the socket. -/
inductive Receives (d : List UInt8) : System → System → Prop
  | pass {s : System} {packs : List (List UInt8)} {u' : UnPacker} : s.reading = true →
      s.handler.unpacker.getLinearWriteSpace.2 ≠ 0 → (received s.handler.unpacker d).Gets packs u' →
      Receives d s { s with
        handler := { s.handler with unpacker := u', packs := packs }, tasks := s.tasks + 1 }

/-- The steps of the handler, each with the datagram it takes. -/
inductive Act : Option (List UInt8) × System → Option (List UInt8) × System → Prop
  | recv {c : Option (List UInt8)} {s s' : System} {d : List UInt8} : Receives d s s' →
      Act (c, s) (some d, s')
  | other {c : Option (List UInt8)} {s s' : System} : Step s s' → (∀ d, ¬ Receives d s s') →
      Act (c, s) (none, s')

variable {s s' : System} {x y : Option (List UInt8) × System}

theorem Receives.reading {d : List UInt8} (h : Receives d s s') : s.reading = true := by
  cases h with
  | pass hr => exact hr

theorem Receives.step {d : List UInt8} (h : Receives d s s') : Step s s' := by
  cases h with
  | pass hr hw hg =>
    refine .recv hr hw ?_ hg
    rw [List.length_take]
    exact Nat.min_le_left _ _

theorem Act.step (h : Act x y) : Step x.2 y.2 := by
  cases h with
  | recv hr => exact hr.step
  | other hs _ => exact hs

/-- Every step is one of them. -/
theorem Step.act (h : Step s s') : ∃ c', ∀ c, Act (c, s) (c', s') := by
  by_cases hr : ∃ d, Receives d s s'
  · obtain ⟨d, hd⟩ := hr
    exact ⟨some d, fun _ => .recv hd⟩
  · exact ⟨none, fun _ => .other h fun d hd => hr ⟨d, hd⟩⟩

/-! ## The ring on every run -/

/-- The size of a failed `recvfrom` is never accepted. -/
theorem commitFailed_eq {u : UnPacker} (hi : u.Inv) : commitFailed u = u := by
  have hrefused : (u.commitWriteSize (2 ^ 64 - 1)).2 = u.toRingBuffer := by
    rw [RingBuffer.commitWriteSize_eq hi, if_neg]
    have := u.capacity_lt
    omega
  unfold commitFailed
  rw [hrefused]

theorem Step.inv (h : Step s s') (hi : s.handler.unpacker.Inv) : s'.handler.unpacker.Inv := by
  cases h with
  | handleEvent event hr =>
    show (s.handler.handleEvent event).2.unpacker.Inv
    unfold UdpHandler.handleEvent
    split <;> exact hi
  | bufferFull | wouldBlock | runTask => exact hi
  | recv _ _ hw hg =>
    obtain ⟨hfit, hring⟩ := EventLoop.filled_ring hi hw
    have hfilled : (filled s.handler.unpacker _).toRingBuffer.Inv := hring ▸ hi.append hfit
    exact (hg.consumed hfilled).inv
  | recvFails _ _ hg =>
    rw [commitFailed_eq hi] at hg
    exact (hg.consumed hi).inv

theorem run_inv {x₀ : Option (List UInt8) × System} {run : List (Option (List UInt8) × System)}
    (hi : x₀.2.handler.unpacker.Inv) (h : (x₀ :: run).IsChain Act) :
    ∀ x ∈ x₀ :: run, x.2.handler.unpacker.Inv := by
  intro x hx
  rcases List.mem_cons.1 hx with rfl | hx
  · exact hi
  · exact h.cons_induction (·.2.handler.unpacker.Inv) run (fun _ _ hxy hx => hxy.step.inv hx) hi x hx

/-! ## Whole datagrams -/

/-- A datagram with no more bytes than are free stands behind the stored bytes, all of it. -/
def Whole (x y : Option (List UInt8) × System) : Prop :=
  ∀ d, y.1 = some d → d.length ≤ x.2.handler.unpacker.availableToWrite →
    (received x.2.handler.unpacker d).content = x.2.handler.unpacker.content ++ d

/-- It ends before the array does. -/
def Straight (x y : Option (List UInt8) × System) : Prop :=
  ∀ d, y.1 = some d → d.length ≤ x.2.handler.unpacker.availableToWrite →
    x.2.handler.unpacker.writeIndex + d.length ≤ x.2.handler.unpacker.capacity

theorem received_content {u : UnPacker} (hi : u.Inv) (d : List UInt8) :
    (received u d).content = u.content ++ d.take u.getLinearWriteSpace.2 := by
  have htake : (d.take u.getLinearWriteSpace.2).length ≤ u.getLinearWriteSpace.2 := by simp
  obtain ⟨hfit, hring⟩ := EventLoop.filled_ring hi htake
  unfold received
  rw [hring, RingBuffer.append_content hi hfit]

theorem received_whole_iff {u : UnPacker} (hi : u.Inv) {d : List UInt8} (hd : d.length ≤ u.availableToWrite) :
    (received u d).content = u.content ++ d ↔ u.writeIndex + d.length ≤ u.capacity := by
  rw [hi.availableToWrite_eq] at hd
  rw [received_content hi, List.append_right_inj, List.take_eq_self_iff, RingBuffer.getLinearWriteSpace_eq hi]
  have := hi.write_lt
  dsimp only
  omega

/-- In a run every datagram that fits into the free space is kept whole if and only if none
of them reaches behind the end of the array. -/
theorem datagrams_whole_iff {x₀ : Option (List UInt8) × System} {run : List (Option (List UInt8) × System)}
    (hi : x₀.2.handler.unpacker.Inv) (h : (x₀ :: run).IsChain Act) :
    (x₀ :: run).IsChain Whole ↔ (x₀ :: run).IsChain Straight := by
  have hinv := run_inv hi h
  have hstep (x) (hx : x ∈ x₀ :: run) (y) : Whole x y ↔ Straight x y :=
    forall₃_congr fun d _ hd => received_whole_iff (hinv x hx) hd
  constructor
  · intro hc
    exact hc.imp_of_mem_imp fun x y hx _ hxy => (hstep x hx y).1 hxy
  · intro hc
    exact hc.imp_of_mem_imp fun x y hx _ hxy => (hstep x hx y).2 hxy

/-! ## A datagram that goes round -/

/-- A handler on a ring of four bytes with the keys `1` and `2`, and its first event. -/
def fresh : System := { handler := { fd := 3, unpacker := createBasic [1] [2] 4 (by decide) } }

def woken : System := { fresh with reading := true }

theorem woken_act : Act (none, fresh) (none, woken) :=
  .other (.handleEvent ⟨3, EventFlags.kReadable⟩ rfl) fun _ hd => absurd hd.reading (by decide)

/-- A datagram that is one packet, and one of three bytes with two bytes left before the end of the array. -/
theorem two_datagrams : ∃ u₁ u₂, (received fresh.handler.unpacker [1, 2]).Gets [[1, 2]] u₁ ∧
    u₁.getLinearWriteSpace = (2, 2) ∧ u₁.availableToWrite = 4 ∧ (received u₁ [1, 9, 2]).Gets [] u₂ := by
  have hplay : (getPack 2 (received fresh.handler.unpacker [1, 2]) []).map
      (fun r => (r.2.1, r.2.2.getLinearWriteSpace, r.2.2.availableToWrite,
        (getPack 2 (received r.2.2 [1, 9, 2]) []).map fun r' => r'.2.1)) =
        .ok ([[1, 2]], (2, 2), 4, .ok []) := by
    decide
  obtain ⟨res₁, packs₁, u₁, hg₁, hplay⟩ := gets_of_getPack hplay
  simp only [Prod.mk.injEq] at hplay
  obtain ⟨rfl, hw, ha, hplay⟩ := hplay
  obtain ⟨res₂, packs₂, u₂, hg₂, rfl⟩ := gets_of_getPack hplay
  exact ⟨u₁, u₂, hg₁, hw, ha, hg₂⟩

theorem fresh_inv : fresh.handler.unpacker.Inv := RingBuffer.ofSize_inv (by decide) (by decide)

/-- The theorem at the first datagram. -/
theorem datagrams_whole_one : ∃ s, ((none, fresh) :: [(none, woken), (some [1, 2], s)]).IsChain Act ∧
    ((none, fresh) :: [(none, woken), (some [1, 2], s)]).IsChain Whole := by
  obtain ⟨u₁, u₂, hg, -⟩ := two_datagrams
  have hrun : ((none, fresh) :: [(none, woken), (some [1, 2], _)]).IsChain Act :=
    .cons_cons woken_act (.cons_cons (.recv (.pass rfl (by decide) hg)) (.singleton _))
  refine ⟨_, hrun, (datagrams_whole_iff fresh_inv hrun).2 ?_⟩
  refine .cons_cons (fun d hd => ?_) (.cons_cons (fun d hd _ => ?_) (.singleton _))
  · cases hd
  · cases hd
    decide

/-- Behind the first datagram four bytes are free and two are left before the end: the
second one loses its last byte. -/
theorem wrapped_datagram_cut :
    ¬ ∀ (x₀ : Option (List UInt8) × System) (run : List (Option (List UInt8) × System)),
    x₀.2.handler.unpacker.Inv → (x₀ :: run).IsChain Act → (x₀ :: run).IsChain Whole := by
  intro hall
  obtain ⟨u₁, u₂, hg₁, hw, ha, hg₂⟩ := two_datagrams
  have hwindow : u₁.getLinearWriteSpace.2 = 2 := congrArg Prod.snd hw
  have hroom : u₁.getLinearWriteSpace.2 ≠ 0 := by
    rw [hwindow]
    decide
  have hrun : ((none, fresh) :: [(none, woken), (some [1, 2], _), (some [1, 9, 2], _)]).IsChain Act :=
    .cons_cons woken_act (.cons_cons (.recv (.pass rfl (by decide) hg₁))
      (.cons_cons (.recv (.pass rfl hroom hg₂)) (.singleton _)))
  have hi : u₁.Inv :=
    run_inv fresh_inv hrun _ (List.mem_cons_of_mem _ (List.mem_cons_of_mem _ List.mem_cons_self))
  have hchain := (List.isChain_cons_cons.1 (hall _ _ fresh_inv hrun)).2
  have hwhole : (received u₁ [1, 9, 2]).content = u₁.content ++ [1, 9, 2] :=
    (List.isChain_cons_cons.1 (List.isChain_cons_cons.1 hchain).2).1 _ rfl (by
      show _ ≤ u₁.availableToWrite
      rw [ha]
      decide)
  rw [received_content hi, hwindow, List.append_right_inj] at hwhole
  revert hwhole
  decide

end NebulaToolkit.UdpHandler
