import Mathlib.Algebra.BigOperators.Ring.List
import NebulaToolkit.Datagrams
import NebulaToolkit.Session
/-!
# A session over UDP

`UdpHandler` with keys of one byte, where every datagram is one frame. The ring
is empty between two of them, but `recvfrom` gets only the space up to the
array's end: a frame that would go round it loses its end, and with it the
next frame is spoilt. So what the callback is given is what was sent just as
long as every frame ends before the array does (`udp_session_delivers`).
-/

namespace NebulaToolkit.UdpHandler

open Lib UnPacker
open TcpHandler (filled)

/-! ## One datagram -/

/-- No bytes, or a head key and bytes without the tail key. -/
def Opened (h t : UInt8) (q : List UInt8) : Prop := q = [] ∨ ∃ r, q = h :: r ∧ t ∉ r

section
variable {h t : UInt8} (hne : h ≠ t)
include hne

theorem Opened.no_tail {q : List UInt8} (hq : Opened h t q) : t ∉ q := by
  rcases hq with rfl | ⟨r, rfl, hr⟩
  · exact List.not_mem_nil
  · intro hm
    rcases List.mem_cons.1 hm with he | hm
    · exact hne he.symm
    · exact hr hm

/-- The first bytes of a frame, its end missing, are still open. -/
theorem Opened.append {q p : List UInt8} (hq : Opened h t q) (hp : t ∉ p) : Opened h t (q ++ h :: p) := by
  have hno : t ∉ h :: p := Opened.no_tail hne (.inr ⟨p, rfl, hp⟩)
  rcases hq with rfl | ⟨r, rfl, hr⟩
  · exact .inr ⟨p, rfl, hp⟩
  · refine .inr ⟨r ++ h :: p, rfl, fun hm => ?_⟩
    rcases List.mem_append.1 hm with hm | hm
    · exact hr hm
    · exact hno hm

/-- A frame of which the first `w` bytes come behind `q`: it is handed out if all of it comes and
`q` is empty; without its end nothing is, and never more than one packet. -/
theorem datagram_call {q p : List UInt8} (hq : Opened h t q) (hp : t ∉ p) {w : Nat} (hw : 0 < w) :
    OnePacket [h] [t] 1 (q ++ (framed h t p).take w) ∧
    (packetsOf [h] [t] 1 (q ++ (framed h t p).take w)).length ≤ 1 ∧
      Opened h t (leftover [h] [t] 1 (q ++ (framed h t p).take w)) ∧
      (w < p.length + 2 → packetsOf [h] [t] 1 (q ++ (framed h t p).take w) = []) ∧
      (q = [] → p.length + 2 ≤ w → packetsOf [h] [t] 1 (q ++ (framed h t p).take w) = [framed h t p] ∧
        leftover [h] [t] 1 (q ++ (framed h t p).take w) = []) := by
  by_cases hlong : p.length + 2 ≤ w
  · rw [List.take_of_length_le (by rw [framed_length]; exact hlong)]
    -- What `q` holds becomes part of the frame.
    have hwhole : ∃ p', t ∉ p' ∧ q ++ framed h t p = framed h t p' ++ [] ∧ (q = [] → p' = p) := by
      rcases hq with rfl | ⟨r, rfl, hr⟩
      · exact ⟨p, hp, by simp, fun _ => rfl⟩
      · refine ⟨r ++ h :: p, fun hm => ?_, by simp [framed], nofun⟩
        rcases List.mem_append.1 hm with hm | hm
        · exact hr hm
        · exact Opened.no_tail hne (.inr ⟨p, rfl, hp⟩) hm
    obtain ⟨p', hp', heq, hsame⟩ := hwhole
    obtain ⟨hone, hpacks, hleft⟩ := call_with_frame (h := h) hp' List.not_mem_nil
    rw [heq, hpacks, hleft]
    exact ⟨hone, Nat.le_refl 1, .inl rfl, fun hlt => absurd hlong (Nat.not_le.2 hlt),
      fun hnil _ => ⟨by rw [hsame hnil], rfl⟩⟩
  · -- The tail key is what is missing.
    have hopen : Opened h t (q ++ (framed h t p).take w) := by
      obtain ⟨w, rfl⟩ : ∃ w', w = w' + 1 := ⟨w - 1, by omega⟩
      have htake : (framed h t p).take (w + 1) = h :: p.take w := by
        rw [framed, List.cons_append, List.take_succ_cons, List.take_append_of_le_length (by omega)]
      rw [htake]
      exact hq.append hne fun hm => hp (List.mem_of_mem_take hm)
    obtain ⟨hone, hpacks, hleft⟩ := call_without_tail (h := h) (hopen.no_tail hne)
    rw [hpacks, hleft]
    exact ⟨hone, Nat.zero_le 1, hopen, fun _ => rfl, fun _ hle => absurd hle hlong⟩

end

/-! ## The session -/

/-- A handler and what has passed through it. -/
structure Session where
  sys : System
  /-- The payloads of the datagrams that `recvfrom` took, in their order. -/
  sent : List (List UInt8) := []
  /-- Every packet a `Get` extracted. -/
  extracted : List (List UInt8) := []
  /-- Every packet passed to the callback. -/
  delivered : List (List UInt8) := []
  /-- How many `Get`s came while a task was still to run. -/
  overlaps : Nat := 0

/-- A `Get` has extracted `packs`, and a task is scheduled. -/
def Session.got (x : Session) (handler : UdpHandler) (packs : List (List UInt8)) : Session :=
  { x with
    sys := { x.sys with handler := handler, tasks := x.sys.tasks + 1 }
    extracted := x.extracted ++ packs
    overlaps := if x.sys.tasks = 0 then x.overlaps else x.overlaps + 1 }

/-- The steps of a handler whose peer sends frames. -/
inductive Served (h t : UInt8) : Session → Session → Prop
  | recv {x : Session} {p : List UInt8} {packs : List (List UInt8)} {u' : UnPacker} : x.sys.reading = true →
      x.sys.handler.unpacker.getLinearWriteSpace.2 ≠ 0 → t ∉ p →
      (received x.sys.handler.unpacker (framed h t p)).Gets packs u' →
      Served h t x { x.got { x.sys.handler with unpacker := u', packs := packs } packs with
        sent := x.sent ++ [p] }
  | recvFails {x : Session} {packs : List (List UInt8)} {u' : UnPacker} : x.sys.reading = true →
      x.sys.handler.unpacker.getLinearWriteSpace.2 ≠ 0 → (commitFailed x.sys.handler.unpacker).Gets packs u' →
      Served h t x (x.got { x.sys.handler with shouldClose := true, unpacker := u', packs := packs } packs)
  | runTask {x : Session} {cb : ExecCb} : x.sys.tasks ≠ 0 → x.sys.handler.cb = some cb →
      Served h t x { x with
        sys := { x.sys with
          handler := { x.sys.handler with packs := cb x.sys.handler.packs }, tasks := x.sys.tasks - 1 }
        delivered := x.delivered ++ x.sys.handler.packs }
  /-- The steps that neither call `Get` nor run a task. -/
  | other {x : Session} {sys : System} : Step x.sys sys → sys.tasks = x.sys.tasks →
      Served h t x { x with sys := sys }

variable {h t : UInt8} {x y : Session}

/-- They are steps of the handler. -/
theorem Served.step (hs : Served h t x y) : Step x.sys y.sys := by
  cases hs with
  | recv hr hw _ hg => exact (Receives.pass hr hw hg).step
  | recvFails hr hw hg => exact .recvFails hr hw hg
  | runTask h0 hcb =>
    have hstep := Step.runTask h0
    rwa [hcb] at hstep
  | other hs => exact hs

/-- A new handler, its callback set. -/
def Begin (fd : Int) (u : UnPacker) (cb : ExecCb) (x : Session) : Prop :=
  x = { sys := { handler := setCallback { fd := fd, unpacker := u } (some cb) } }

/-- Each frame ends before the array does, if it begins where the last one has ended. -/
def InOnePart (h t : UInt8) (c : Nat) (ps : List (List UInt8)) : Prop :=
  ∀ k p, ps[k]? = some p → ((ps.take k).map (framed h t)).flatten.length % c + (p.length + 2) ≤ c

theorem inOnePart_concat {c : Nat} {ps : List (List UInt8)} {p : List UInt8} : InOnePart h t c (ps ++ [p]) ↔
    InOnePart h t c ps ∧ (ps.map (framed h t)).flatten.length % c + (p.length + 2) ≤ c := by
  constructor
  · intro hall
    refine ⟨fun k p' hk => ?_, ?_⟩
    · have hlt : k < ps.length := (List.getElem?_eq_some_iff.1 hk).1
      have := hall k p' (by rw [List.getElem?_append_left hlt]; exact hk)
      rwa [List.take_append_of_le_length (Nat.le_of_lt hlt)] at this
    · have := hall ps.length p (by simp)
      rwa [List.take_left] at this
  · rintro ⟨hall, hlast⟩ k p' hk
    rcases Nat.lt_or_ge k ps.length with hlt | hge
    · rw [List.getElem?_append_left hlt] at hk
      rw [List.take_append_of_le_length (Nat.le_of_lt hlt)]
      exact hall k p' hk
    · rw [List.getElem?_append_right hge, List.getElem?_singleton] at hk
      split at hk
      · obtain rfl := Option.some.inj hk
        rw [show k = ps.length by omega, List.take_left]
        exact hlast
      · cases hk

/-- Frames of one size that divides the ring's. -/
theorem uniform_inOnePart {c n : Nat} (h0 : 0 < c) (hn : n ∣ c) {ps : List (List UInt8)}
    (hsize : ∀ p ∈ ps, p.length + 2 = n) :
    InOnePart h t c ps := by
  intro k p hk
  have hframes : ∀ l ∈ (ps.take k).map (framed h t), n ∣ l.length := by
    intro l hl
    obtain ⟨p', hp', rfl⟩ := List.mem_map.1 hl
    rw [framed_length, hsize p' (List.mem_of_mem_take hp')]
  have hdvd : n ∣ ((ps.take k).map (framed h t)).flatten.length := by
    rw [List.length_flatten]
    exact List.dvd_sum fun m hm => by
      obtain ⟨l, hl, rfl⟩ := List.mem_map.1 hm
      exact hframes l hl
  rw [hsize p (List.mem_of_getElem? hk)]
  have hat := (Nat.dvd_mod_iff hn).2 hdvd
  exact Nat.le_of_lt_add_of_dvd (Nat.add_lt_add_right (Nat.mod_lt _ h0) n)
    (Nat.dvd_add hat (Nat.dvd_refl n)) hn

/-- What the pass that takes a frame leaves in the unpacker. -/
theorem recv_keys (hne : h ≠ t) {c : Nat} {u u' : UnPacker} {p : List UInt8} {packs : List (List UInt8)}
    (hk : Keys h t c u) (hq : Opened h t u.content) (hp : t ∉ p) (hw : u.getLinearWriteSpace.2 ≠ 0)
    (hg : (received u (framed h t p)).Gets packs u') :
    packs = packetsOf [h] [t] 1 (u.content ++ (framed h t p).take u.getLinearWriteSpace.2) ∧ Keys h t c u' ∧
      u'.content = leftover [h] [t] 1 (u.content ++ (framed h t p).take u.getLinearWriteSpace.2) ∧
      u'.writeIndex = (u.writeIndex + min u.getLinearWriteSpace.2 (p.length + 2)) % c := by
  have hi := hk.bytes.inv
  have hlen : ((framed h t p).take u.getLinearWriteSpace.2).length =
      min u.getLinearWriteSpace.2 (p.length + 2) := by
    rw [List.length_take, framed_length]
  have h0 : (framed h t p).take u.getLinearWriteSpace.2 ≠ [] := by
    rw [← List.length_pos_iff, hlen]
    omega
  have hle : ((framed h t p).take u.getLinearWriteSpace.2).length ≤ u.getLinearWriteSpace.2 := by
    rw [hlen]
    exact Nat.min_le_left _ _
  have hroom := (EventLoop.filled_ring hi hle).1
  unfold received at hg
  rw [EventLoop.filled_eq_writeRing hi h0 hle] at hg
  rw [← hlen]
  exact hk.pushed h0 hroom (datagram_call hne hq hp (Nat.pos_of_ne_zero hw)).1 hg

/-- What holds of a session: between two datagrams the ring is empty, as long as none went round. -/
structure Carried (h t : UInt8) (c : Nat) (x : Session) : Prop where
  keys : Keys h t c x.sys.handler.unpacker
  opened : Opened h t x.sys.handler.unpacker.content
  le : x.extracted.length ≤ x.sent.length
  whole : InOnePart h t c x.sent → x.sys.handler.unpacker.content = [] ∧
    x.sys.handler.unpacker.writeIndex = (x.sent.map (framed h t)).flatten.length % c ∧
      x.extracted = x.sent.map (framed h t)
  lost : ¬ InOnePart h t c x.sent → x.extracted.length < x.sent.length

/-- Steps that leave the ring, and what was sent and extracted, as they are. -/
theorem Carried.of_same {c : Nat} (hi : Carried h t c x)
    (hu : y.sys.handler.unpacker = x.sys.handler.unpacker) (hs : y.sent = x.sent)
    (he : y.extracted = x.extracted) : Carried h t c y := by
  constructor <;> simp only [hu, hs, he]
  exacts [hi.keys, hi.opened, hi.le, hi.whole, hi.lost]

theorem recv_carried (hne : h ≠ t) {c : Nat} (hi : Carried h t c x) {p : List UInt8}
    {packs : List (List UInt8)} {u' : UnPacker} (hw : x.sys.handler.unpacker.getLinearWriteSpace.2 ≠ 0)
    (hp : t ∉ p) (hg : (received x.sys.handler.unpacker (framed h t p)).Gets packs u') (shouldClose : Bool) :
    Carried h t c
    { x.got { x.sys.handler with shouldClose := shouldClose, unpacker := u', packs := packs } packs with
      sent := x.sent ++ [p] } := by
  obtain ⟨hpacks, hk, hcont, hwrite⟩ := recv_keys hne hi.keys hi.opened hp hw hg
  obtain ⟨-, hone, hopen, hcut, hfits⟩ := datagram_call hne hi.opened hp (Nat.pos_of_ne_zero hw)
  rw [← hpacks, ← hcont] at hfits
  rw [← hpacks] at hone hcut
  rw [← hcont] at hopen
  have hlen : (x.sent ++ [p]).length = x.sent.length + 1 := List.length_append
  have hmore : (x.extracted ++ packs).length ≤ x.extracted.length + 1 := by
    rw [List.length_append]
    omega
  -- In an empty ring the window reaches to the end of the array.
  have hwindow : InOnePart h t c x.sent →
      x.sys.handler.unpacker.getLinearWriteSpace.2 = c - (x.sent.map (framed h t)).flatten.length % c := by
    intro hall
    obtain ⟨hempty, hat, -⟩ := hi.whole hall
    have hlength := RingBuffer.content_length x.sys.handler.unpacker.toRingBuffer
    rw [hempty] at hlength
    rw [RingBuffer.getLinearWriteSpace_eq hi.keys.bytes.inv, ← hlength, hat, hi.keys.capacity]
    exact Nat.min_eq_right (Nat.sub_le _ _)
  have hmod (n : Nat) : n % c < c := Nat.mod_lt _ (hi.keys.capacity ▸ hi.keys.bytes.inv.capacity_pos)
  refine ⟨hk, hopen, ?_, fun hall => ?_, fun hno => ?_⟩
  · have := hi.le
    show (x.extracted ++ packs).length ≤ (x.sent ++ [p]).length
    omega
  · obtain ⟨hall, hlast⟩ := inOnePart_concat.1 hall
    obtain ⟨hempty, hat, hout⟩ := hi.whole hall
    have hspace := hwindow hall
    obtain ⟨hp', hleft⟩ := hfits hempty (by omega)
    refine ⟨hleft, ?_, ?_⟩
    · show u'.writeIndex = ((x.sent ++ [p]).map (framed h t)).flatten.length % c
      rw [hwrite, Nat.min_eq_right (by omega), hat, List.map_append, List.flatten_append, List.length_append,
        List.map_singleton, List.flatten_singleton, framed_length, Nat.mod_add_mod]
    · show x.extracted ++ packs = (x.sent ++ [p]).map (framed h t)
      rw [hout, hp', List.map_append]
      rfl
  · show (x.extracted ++ packs).length < (x.sent ++ [p]).length
    by_cases hall : InOnePart h t c x.sent
    · -- The first frame that goes round.
      have hspace := hwindow hall
      have hround : ¬ (x.sent.map (framed h t)).flatten.length % c + (p.length + 2) ≤ c := fun hlast =>
        hno (inOnePart_concat.2 ⟨hall, hlast⟩)
      have hle := hi.le
      have := hmod (x.sent.map (framed h t)).flatten.length
      rw [hcut (by omega), List.append_nil, hlen]
      omega
    · have := hi.lost hall
      omega

theorem step_other_unpacker {s s' : System} (hs : Step s s') (ht : s'.tasks = s.tasks) :
    s'.handler.unpacker = s.handler.unpacker ∧ s'.handler.packs = s.handler.packs ∧
    s'.handler.cb = s.handler.cb := by
  cases hs with
  | handleEvent event =>
    show (s.handler.handleEvent event).2.unpacker = _ ∧ (s.handler.handleEvent event).2.packs = _ ∧
      (s.handler.handleEvent event).2.cb = _
    unfold handleEvent
    split <;> exact ⟨rfl, rfl, rfl⟩
  | bufferFull | wouldBlock => exact ⟨rfl, rfl, rfl⟩
  | recv | recvFails => exact absurd ht (Nat.succ_ne_self _)
  | runTask h0 =>
    change s.tasks - 1 = s.tasks at ht
    omega

theorem served_carried (hne : h ≠ t) {c : Nat} (hi : Carried h t c x) (hs : Served h t x y) :
    Carried h t c y := by
  cases hs with
  | recv _ hw hp hg => exact recv_carried hne hi hw hp hg _
  | recvFails _ _ hg =>
    rw [commitFailed_eq hi.keys.bytes.inv] at hg
    obtain ⟨rfl, rfl⟩ := hi.keys.idle (hi.opened.no_tail hne) hg
    exact hi.of_same rfl rfl (List.append_nil _)
  | runTask => exact hi.of_same rfl rfl rfl
  | other hs ht => exact hi.of_same (step_other_unpacker hs ht).1 rfl rfl

/-! ## What the callback is given -/

/-- Without an overlap: what was extracted was delivered, except for what `packs_` holds while its task is
still to run. -/
structure Fine (x : Session) : Prop where
  tasks_le : x.sys.tasks ≤ 1
  extracted_eq : x.extracted = x.delivered ++ if x.sys.tasks = 0 then [] else x.sys.handler.packs

theorem got_fine (hi : x.overlaps = 0 → Fine x) (handler : UdpHandler) {packs : List (List UInt8)}
    (hp : handler.packs = packs) (h0 : (x.got handler packs).overlaps = 0) : Fine (x.got handler packs) := by
  change (if x.sys.tasks = 0 then x.overlaps else x.overlaps + 1) = 0 at h0
  have ht : x.sys.tasks = 0 := by
    by_contra ht
    rw [if_neg ht] at h0
    cases h0
  rw [if_pos ht] at h0
  have heq := (hi h0).extracted_eq
  rw [if_pos ht, List.append_nil] at heq
  refine ⟨by show x.sys.tasks + 1 ≤ 1; omega, ?_⟩
  show x.extracted ++ packs = x.delivered ++ if x.sys.tasks + 1 = 0 then [] else handler.packs
  rw [if_neg (Nat.succ_ne_zero _), heq, hp]

theorem served_fine (hi : x.overlaps = 0 → Fine x) (hs : Served h t x y) (h0 : y.overlaps = 0) : Fine y := by
  cases hs with
  | @recv p packs u' =>
    obtain ⟨hle, heq⟩ := got_fine hi { x.sys.handler with unpacker := u', packs := packs } rfl h0
    exact ⟨hle, heq⟩
  | recvFails => exact got_fine hi _ rfl h0
  | runTask ht hcb =>
    obtain ⟨hle, heq⟩ := hi h0
    have hlast : x.sys.tasks - 1 = 0 := by omega
    rw [if_neg ht] at heq
    refine ⟨by show x.sys.tasks - 1 ≤ 1; omega, ?_⟩
    show x.extracted = x.delivered ++ x.sys.handler.packs ++ if x.sys.tasks - 1 = 0 then [] else _
    rw [if_pos hlast, List.append_nil, heq]
  | other hs ht =>
    obtain ⟨hle, heq⟩ := hi h0
    refine ⟨ht ▸ hle, ?_⟩
    dsimp only
    rw [ht, (step_other_unpacker hs ht).2.1]
    exact heq

/-- A UDP handler whose unpacker has a head and a tail key of one byte, and a peer whose datagrams
are frames. In any interleaving of datagrams, failing calls of `recvfrom` and tasks: what
was extracted is the frames that were sent, in order, if and only if each of them ends
before the ring's array does, the first beginning at its start and each where the last one
ended; from the first that does not, there are always fewer packets than frames. Frames of one size
that divides the ring's never are of that kind. Once the tasks have run the callback was given
what was extracted, unless a `Get` came while one was still to run. -/
theorem udp_session_delivers (h t : UInt8) (hne : h ≠ t) (c : Nat) (hc : c ≤ maxSize) (h0 : 0 < c) (fd : Int)
    (cb : ExecCb) (x : Session) (hr : Reachable (Begin fd (createBasic [h] [t] c hc) cb) (Served h t) x) :
    (x.extracted = x.sent.map (framed h t) ↔ InOnePart h t c x.sent) ∧
      (¬ InOnePart h t c x.sent → x.extracted.length < x.sent.length) ∧
      (∀ n, n ∣ c → (∀ p ∈ x.sent, p.length + 2 = n) → InOnePart h t c x.sent) ∧
      (x.overlaps = 0 → x.sys.tasks = 0 → x.delivered = x.extracted) := by
  have hi : Carried h t c x ∧ (x.overlaps = 0 → Fine x) := by
    refine hr.inv (I := fun x => Carried h t c x ∧ (x.overlaps = 0 → Fine x)) ?_ fun x y _ hi hs =>
      ⟨served_carried hne hi.1 hs, served_fine hi.2 hs⟩
    rintro x rfl
    have hnone : InOnePart h t c [] := fun k p hk => by cases hk
    exact ⟨⟨create_keys h t hc h0, .inl rfl, Nat.le_refl 0, fun _ => ⟨rfl, (Nat.zero_mod c).symm, rfl⟩,
      fun hno => absurd hnone hno⟩, fun _ => ⟨Nat.zero_le 1, rfl⟩⟩
  obtain ⟨hcarried, hfine⟩ := hi
  refine ⟨⟨fun heq => ?_, fun hall => (hcarried.whole hall).2.2⟩, hcarried.lost, fun n hn hsize => ?_,
    fun hover htasks => ?_⟩
  · by_contra hno
    have hlt := hcarried.lost hno
    rw [heq, List.length_map] at hlt
    exact Nat.lt_irrefl _ hlt
  · exact uniform_inOnePart h0 hn hsize
  · have heq := (hfine hover).extracted_eq
    rw [if_pos htasks, List.append_nil] at heq
    exact heq.symm

/-- The theorem for a frame of two bytes and one of three, in a ring of four. -/
theorem udp_session_delivers_two : ∃ x : Session,
    Reachable (Begin 3 (createBasic [1] [2] 4 (by decide)) id) (Served 1 2) x ∧
    x.sent = [[], [9]] ∧ x.extracted = [[1, 2]] ∧ ¬ InOnePart 1 2 4 x.sent := by
  obtain ⟨u₁, u₂, hg₁, hw, -, hg₂⟩ := two_datagrams
  have hroom : u₁.getLinearWriteSpace.2 ≠ 0 := by
    rw [hw]
    decide
  have h₀ : Reachable (Begin 3 (createBasic [1] [2] 4 (by decide)) id) (Served 1 2)
      { sys := { handler :=
        setCallback { fd := 3, unpacker := createBasic [1] [2] 4 (by decide) } (some id) } } :=
    .start rfl
  have h₁ := h₀.next (.other (.handleEvent ⟨3, EventFlags.kReadable⟩ rfl) rfl)
  have h₂ := h₁.next (.recv (p := []) (by decide) (by decide) List.not_mem_nil hg₁)
  have h₃ := h₂.next (.runTask Nat.one_ne_zero rfl)
  have h₄ := h₃.next (.recv (p := [9]) rfl hroom (by decide) hg₂)
  refine ⟨_, h₄, rfl, rfl, fun hall => ?_⟩
  have heq := (udp_session_delivers 1 2 (by decide) 4 (by decide) (by decide) 3 id _ h₄).1.2 hall
  cases congrArg List.length heq

end NebulaToolkit.UdpHandler
