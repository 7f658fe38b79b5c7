import NebulaToolkit.HandlerTasks
import NebulaToolkit.Session
import NebulaToolkit.Windows
/-!
# A session over TCP

From the socket to the callback: `TcpHandler` with keys of one byte, reading a
stream of frames. As long as no read completes two frames and no `Get` comes
while a task is still to run, what the callback was given is the frames that
have arrived, in order, and the ring never fills up (`tcp_session_delivers`).
-/

namespace NebulaToolkit.TcpHandler

open Lib UnPacker

/-- After a pass that read bytes. -/
def System.got (s : System) (packs : List (List UInt8)) (u' : UnPacker) : System :=
  { s with
    handler := { s.handler with unpacker := u', packs := packs }
    tasks := if packs ≠ [] ∧ s.handler.cb.isSome then s.tasks + 1 else s.tasks
    gets := s.gets + 1
    extracted := s.extracted ++ packs.map fun p => (s.gets + 1, p)
    overlaps := if s.tasks = 0 then s.overlaps else s.overlaps + 1 }

/-- The steps, beside the bytes read so far; a read brings at most one tail key. -/
inductive Streamed (t : UInt8) : System × List UInt8 → System × List UInt8 → Prop
  | read {s : System} {received buf : List UInt8} {packs : List (List UInt8)}
      {u' : UnPacker} : s.reading = true → buf ≠ [] →
      buf.length ≤ s.handler.unpacker.getLinearWriteSpace.2 → (filled s.handler.unpacker buf).Gets packs u' →
        buf.count t ≤ 1 →
      Streamed t (s, received) (s.got packs u', received ++ buf)
  | other {s s' : System} {received : List UInt8} : Step s s' → s'.gets = s.gets →
      Streamed t (s, received) (s', received)

variable {h t : UInt8} {x y : System × List UInt8}

theorem Streamed.step (hs : Streamed t x y) : Step x.1 y.1 := by
  cases hs with
  | read hr h0 hw hg ht => exact .read hr h0 hw hg
  | other hs => exact hs

/-- A new handler that has read nothing. -/
def Begin (fd : Int) (u : UnPacker) (cb : ExecCb) (x : System × List UInt8) : Prop :=
  Start fd u (some cb) x.1 ∧ x.2 = []

theorem reachable_step {fd : Int} {u : UnPacker} {cb : ExecCb}
    (hr : Reachable (Begin fd u cb) (Streamed t) x) :
    Reachable (Start fd u (some cb)) Step x.1 :=
  hr.inv (I := fun x => Reachable (Start fd u (some cb)) Step x.1)
    (fun _ hs => .start hs.1) fun _ _ _ hr hs =>
    hr.next hs.step

/-- Some frames have come whole, and then the beginning of the next: the frames were extracted, the rest
is stored. -/
def InFrames (h t : UInt8) (ps : List (List UInt8)) (x : System × List UInt8) : Prop :=
  ∃ k r, x.2 = ((ps.take k).map (framed h t)).flatten ++ r ∧ t ∉ r ∧ x.1.handler.unpacker.content = r ∧
    x.1.extracted.map Prod.snd = (ps.take k).map (framed h t)

/-- What holds as long as the stream is one of frames. -/
structure Carried (h t : UInt8) (c : Nat) (ps : List (List UInt8)) (x : System × List UInt8) : Prop where
  keys : Keys h t c x.1.handler.unpacker
  frames : InFrames h t ps x

variable {c : Nat} {ps : List (List UInt8)}

theorem step_other_unpacker {s s' : System} (hs : Step s s') (hg : s'.gets = s.gets) :
    s'.handler.unpacker = s.handler.unpacker ∧ s'.extracted = s.extracted ∧ s'.tasks ≤ s.tasks := by
  cases hs with
  | handleEvent event =>
    refine ⟨?_, rfl, Nat.le_refl _⟩
    show (s.handler.handleEvent event).2.unpacker = _
    unfold handleEvent
    split
    · rfl
    split
    · rfl
    split <;> rfl
  | bufferFull => exact ⟨rfl, rfl, Nat.le_refl _⟩
  | runTask => exact ⟨rfl, rfl, Nat.sub_le _ _⟩
  | read => exact absurd hg (Nat.succ_ne_self _)
  | readEnds r => exact ⟨by cases r <;> rfl, rfl, Nat.le_refl _⟩

/-- What comes behind the frames that have come whole. -/
theorem rest_of_frames {k : Nat} {r later : List UInt8}
    (heq : ((ps.take k).map (framed h t)).flatten ++ r ++ later = (ps.map (framed h t)).flatten) :
    r ++ later = ((ps.drop k).map (framed h t)).flatten := by
  have hsplit : (ps.map (framed h t)).flatten = ((ps.take k).map (framed h t)).flatten ++
    ((ps.drop k).map (framed h t)).flatten := by
    rw [← List.flatten_append, ← List.map_append, List.take_append_drop]
  rw [hsplit, List.append_assoc] at heq
  exact List.append_cancel_left heq

/-- The bytes a read brings complete the next frame, or none. -/
theorem read_frames (hp : ∀ p ∈ ps, t ∉ p) (hne : h ≠ t) {r buf received later : List UInt8} {k : Nat}
    (ht : buf.count t ≤ 1) (hr : t ∉ r) (hrec : received = ((ps.take k).map (framed h t)).flatten ++ r)
    (heq : received ++ buf ++ later = (ps.map (framed h t)).flatten) :
    OnePacket [h] [t] 1 (r ++ buf) ∧
    ∃ k' r', received ++ buf = ((ps.take k').map (framed h t)).flatten ++ r' ∧ t ∉ r' ∧
      leftover [h] [t] 1 (r ++ buf) = r' ∧
      (ps.take k').map (framed h t) = (ps.take k).map (framed h t) ++ packetsOf [h] [t] 1 (r ++ buf) := by
  have hdrop (p : List UInt8) (hm : p ∈ ps.drop k) : t ∉ p := hp p (List.mem_of_mem_drop hm)
  have hrest : r ++ buf ++ later = ((ps.drop k).map (framed h t)).flatten := by
    rw [List.append_assoc]
    exact rest_of_frames (by rw [← heq, hrec]; simp only [List.append_assoc])
  rcases framed_step hdrop hne hr ht hrest with ⟨-, hno⟩ | ⟨p, ps', r', hps, -, hrb, hr', -⟩
  · obtain ⟨hone, hpacks, hleft⟩ := call_without_tail (h := h) hno
    exact ⟨hone, k, r ++ buf, by rw [hrec, List.append_assoc], hno, hleft, by rw [hpacks, List.append_nil]⟩
  · obtain ⟨hone, hpacks, hleft⟩ := call_with_frame (h := h) (hdrop p (by rw [hps]; simp)) hr'
    have htake : ps.take (k + 1) = ps.take k ++ [p] := by
      rw [List.take_add, hps]
      rfl
    rw [hrb]
    refine ⟨hone, k + 1, r', ?_, hr', hleft, by rw [hpacks, htake, List.map_append]; rfl⟩
    rw [hrec, List.append_assoc, hrb, htake, List.map_append, List.flatten_append, List.map_singleton,
      List.flatten_singleton, List.append_assoc]

theorem read_carried (hp : ∀ p ∈ ps, t ∉ p) (hne : h ≠ t) {s : System} {received buf : List UInt8}
    {packs : List (List UInt8)} {u' : UnPacker} (hi : Carried h t c ps (s, received)) (h0 : buf ≠ [])
    (hw : buf.length ≤ s.handler.unpacker.getLinearWriteSpace.2)
    (hg : (filled s.handler.unpacker buf).Gets packs u') (ht : buf.count t ≤ 1)
    (hpre : received ++ buf <+: (ps.map (framed h t)).flatten) :
    Carried h t c ps (s.got packs u', received ++ buf) := by
  obtain ⟨hk, k, r, hrec, hr, hcont, hout⟩ := hi
  dsimp only at hk hrec hcont hout
  obtain ⟨later, heq⟩ := hpre
  obtain ⟨hone, k', r', hrec', hr', hleft, hpacks⟩ := read_frames hp hne ht hr hrec heq
  have hroom := (EventLoop.filled_ring hk.bytes.inv hw).1
  rw [EventLoop.filled_eq_writeRing hk.bytes.inv h0 hw] at hg
  rw [← hcont] at hone hleft hpacks
  obtain ⟨rfl, hk', hc', -⟩ := hk.pushed h0 hroom hone hg
  refine ⟨hk', k', r', hrec', hr', hc'.trans hleft, ?_⟩
  show (s.extracted ++ _).map Prod.snd = _
  rw [List.map_append, hout, hpacks, List.map_map]
  exact congrArg _ (List.map_id _)

theorem reachable_carried (hp : ∀ p ∈ ps, t ∉ p) (hne : h ≠ t) (hc : c ≤ maxSize) (h0 : 0 < c) {fd : Int}
    {cb : ExecCb} (hr : Reachable (Begin fd (createBasic [h] [t] c hc) cb) (Streamed t) x)
    (hpre : x.2 <+: (ps.map (framed h t)).flatten) :
    Carried h t c ps x := by
  refine Reachable.inv (I := fun x => x.2 <+: (ps.map (framed h t)).flatten →
    Carried h t c ps x) ?_ ?_ hr hpre
  · rintro ⟨s, received⟩ ⟨hs, hrec⟩ -
    dsimp only [Start] at hs hrec
    subst hs hrec
    exact ⟨create_keys h t hc h0, 0, [], by simp, List.not_mem_nil, rfl, by simp⟩
  · intro x y _ hi hs hpre
    cases hs with
    | read _ hb0 hw hg ht =>
      exact read_carried hp hne (hi ((List.prefix_append _ _).trans hpre)) hb0 hw hg ht hpre
    | other hs hg =>
      obtain ⟨hu, hout, -⟩ := step_other_unpacker hs hg
      obtain ⟨hk, k, r, hrec, hr, hcont, hx⟩ := hi hpre
      refine ⟨hu ▸ hk, k, r, hrec, hr, ?_, ?_⟩
      · rw [hu]
        exact hcont
      · rw [hout]
        exact hx

/-- A TCP handler whose unpacker has a head and a tail key of one byte and room for every frame.
Of a stream of frames, in any interleaving of reads and tasks in which no read brings two
tail keys and no `Get` comes while a task is still to run: what was extracted is the frames
that have come whole, in order, the ring holds the beginning of the next and has
room to read more, and once the tasks have run the callback was given each frame once. -/
theorem tcp_session_delivers (h t : UInt8) (hne : h ≠ t) (c : Nat) (hc : c ≤ maxSize) (h0 : 0 < c) (fd : Int)
    (cb : ExecCb)
    (ps : List (List UInt8)) (hp : ∀ p ∈ ps, t ∉ p) (hfit : ∀ p ∈ ps, p.length + 2 ≤ c)
    (x : System × List UInt8) (hr : Reachable (Begin fd (createBasic [h] [t] c hc) cb) (Streamed t) x)
    (hpre : x.2 <+: (ps.map (framed h t)).flatten) (hover : x.1.overlaps = 0) :
    ∃ k r, x.2 = ((ps.take k).map (framed h t)).flatten ++ r ∧ t ∉ r ∧ x.1.handler.unpacker.content = r ∧
      x.1.handler.unpacker.getLinearWriteSpace.2 ≠ 0 ∧
      x.1.extracted.map Prod.snd = (ps.take k).map (framed h t) ∧
      (x.1.tasks = 0 → x.1.delivered.map Prod.snd = (ps.take k).map (framed h t)) := by
  obtain ⟨⟨hb, -, -, -, hcap⟩, k, r, hrec, hnot, hcont, hout⟩ := reachable_carried hp hne hc h0 hr hpre
  have hfine : Fine x.1 := by
    have hi : Inv cb x.1 :=
      (reachable_step hr).inv (fun _ hs => start_inv hs) fun _ _ _ hi hs => step_inv hi hs
    exact hi.fine hover
  refine ⟨k, r, hrec, hnot, hcont, fun hfull => ?_, hout, fun htasks => ?_⟩
  · -- The bytes of an incomplete frame do not fill the ring.
    have hlen := (RingBuffer.writeWindow_zero hb.inv).1 hfull
    rw [← RingBuffer.content_length, hcont,
      show x.1.handler.unpacker.toRingBuffer.capacity = c from hcap] at hlen
    obtain ⟨later, heq⟩ := hpre
    rw [hrec] at heq
    have hrest := rest_of_frames heq
    cases hd : ps.drop k with
    | nil =>
      rw [hd, List.map_nil, List.flatten_nil, List.append_eq_nil_iff] at hrest
      rw [hrest.1] at hlen
      exact absurd hlen.symm (Nat.ne_of_gt h0)
    | cons p ps' =>
      rw [hd] at hrest
      have hshort := framed_pending hnot hrest
      have hmem : p ∈ ps := List.mem_of_mem_drop (hd ▸ List.mem_cons_self : p ∈ ps.drop k)
      have := hfit p hmem
      omega
  · have heq := hfine.extracted_eq
    rw [if_pos htasks, List.append_nil] at heq
    rw [← heq, hout]

/-- The theorem for a frame read in one piece, its task run. -/
theorem tcp_session_delivers_one : ∃ x : System × List UInt8,
    Reachable (Begin 3 (createBasic [1] [2] 8 (by decide)) id) (Streamed 2) x ∧ x.2 = [1, 7, 2] ∧
    x.1.tasks = 0 ∧
      ∃ k r, x.2 = (([[7]].take k).map (framed 1 2)).flatten ++ r ∧ (2 : UInt8) ∉ r ∧
      x.1.handler.unpacker.content = r ∧
        x.1.handler.unpacker.getLinearWriteSpace.2 ≠ 0 ∧
        x.1.extracted.map Prod.snd = ([[7]].take k).map (framed 1 2) ∧
        (x.1.tasks = 0 → x.1.delivered.map Prod.snd = ([[7]].take k).map (framed 1 2)) := by
  obtain ⟨u₁, -, hg, -, -⟩ := two_reads
  have h₀ : Reachable (Begin 3 oneTwo id) (Streamed 2)
      ({ handler := setCallback { fd := 3, unpacker := oneTwo } (some id) }, []) := .start ⟨rfl, rfl⟩
  have h₁ := h₀.next (.other (.handleEvent ⟨3, EventFlags.kReadable⟩ rfl) rfl)
  have h₂ := h₁.next (.read (by decide) (by decide) (by decide) hg (by decide))
  have h₃ := h₂.next (.other (.runTask Nat.one_ne_zero rfl) rfl)
  exact ⟨_, h₃, rfl, rfl,
    tcp_session_delivers 1 2 (by decide) 8 (by decide) (by decide) 3 id [[7]] (by decide) (by decide) _ h₃
    ⟨[], rfl⟩ rfl⟩

/-! ## A frame that is too long -/

/-- Every frame has one tail key. -/
theorem count_frames (hp : ∀ p ∈ ps, t ∉ p) (hne : h ≠ t) (k : Nat) :
    ((ps.take k).map (framed h t)).flatten.count t = min k ps.length := by
  induction ps generalizing k with
  | nil => simp
  | cons p ps ih =>
    cases k with
    | zero => simp
    | succ k =>
      have hone : (framed h t p).count t = 1 := by
        rw [framed, List.count_append, List.count_cons_of_ne hne, List.count_eq_zero.2 (hp p (by simp)),
          List.count_singleton_self]
      rw [List.take_succ_cons, List.map_cons, List.flatten_cons, List.count_append, hone,
        ih (fun p hm => hp p (by simp [hm])), List.length_cons]
      omega

/-- Bytes of whole frames and of the beginning of one more can be told apart in one way. -/
theorem frames_unique (hp : ∀ p ∈ ps, t ∉ p) (hne : h ≠ t) {k j : Nat} {r q : List UInt8} (hr : t ∉ r)
    (hq : t ∉ q) (heq : ((ps.take k).map (framed h t)).flatten ++ r =
      ((ps.take j).map (framed h t)).flatten ++ q) : r = q := by
  have hcount := congrArg (List.count t) heq
  rw [List.count_append, List.count_append, List.count_eq_zero.2 hr, List.count_eq_zero.2 hq,
    count_frames hp hne, count_frames hp hne] at hcount
  have htake : ps.take k = ps.take j := by rw [List.take_eq_take_iff]; omega
  rw [htake] at heq
  exact List.append_cancel_left heq

/-- Between `x` and `y` nothing was read, extracted or scheduled. -/
structure Idle (x y : System × List UInt8) : Prop where
  received : y.2 = x.2
  gets : y.1.gets = x.1.gets
  extracted : y.1.extracted = x.1.extracted
  unpacker : y.1.handler.unpacker = x.1.handler.unpacker
  tasks_le : y.1.tasks ≤ x.1.tasks

/-- A full ring stays as it is. -/
theorem wedged_step (hfull : x.1.handler.unpacker.getLinearWriteSpace.2 = 0) (hs : Streamed t x y) :
    Idle x y := by
  cases hs with
  | read _ hb hw =>
    dsimp only at hfull
    rw [hfull, Nat.le_zero, List.length_eq_zero_iff] at hw
    exact absurd hw hb
  | other hs hg =>
    obtain ⟨hu, hout, ht⟩ := step_other_unpacker hs hg
    exact ⟨rfl, hg, hout, hu, ht⟩

theorem wedged_run (hfull : x.1.handler.unpacker.getLinearWriteSpace.2 = 0)
    (hs : Relation.ReflTransGen (Streamed t) x y) : Idle x y := by
  induction hs with
  | refl => exact ⟨rfl, rfl, rfl, rfl, Nat.le_refl _⟩
  | tail _ hs ih =>
    obtain ⟨h₁, h₂, h₃, h₄, h₅⟩ := wedged_step (by rw [ih.unpacker]; exact hfull) hs
    exact ⟨h₁.trans ih.received, h₂.trans ih.gets, h₃.trans ih.extracted, h₄.trans ih.unpacker,
      h₅.trans ih.tasks_le⟩

/-- The same handler on a stream with frames of any length. Its window is closed if and only if the
next frame does not fit into the ring and as much of it has come as does; and then it never
reads, extracts or schedules anything again, whatever events come. -/
theorem long_frame_wedges (h t : UInt8) (hne : h ≠ t) (c : Nat) (hc : c ≤ maxSize) (h0 : 0 < c) (fd : Int)
    (cb : ExecCb) (ps : List (List UInt8)) (hp : ∀ p ∈ ps, t ∉ p) (x : System × List UInt8)
    (hr : Reachable (Begin fd (createBasic [h] [t] c hc) cb) (Streamed t) x)
    (hpre : x.2 <+: (ps.map (framed h t)).flatten) :
    (x.1.handler.unpacker.getLinearWriteSpace.2 = 0 ↔ ∃ k p, ps[k]? = some p ∧ c < p.length + 2 ∧
        x.2 = ((ps.take k).map (framed h t)).flatten ++ (framed h t p).take c) ∧
      (x.1.handler.unpacker.getLinearWriteSpace.2 = 0 → ∀ y, Relation.ReflTransGen (Streamed t) x y →
        Idle x y) := by
  obtain ⟨⟨hb, -, -, -, hcap⟩, k, r, hrec, hnot, hcont, -⟩ := reachable_carried hp hne hc h0 hr hpre
  refine ⟨?_, fun hfull y hy => wedged_run hfull hy⟩
  have hwindow : x.1.handler.unpacker.getLinearWriteSpace.2 = 0 ↔ r.length = c := by
    rw [RingBuffer.writeWindow_zero hb.inv, ← RingBuffer.content_length, hcont,
      show x.1.handler.unpacker.toRingBuffer.capacity = c from hcap]
  rw [hwindow]
  constructor
  · intro hlen
    obtain ⟨later, heq⟩ := hpre
    rw [hrec] at heq
    have hrest := rest_of_frames heq
    cases hd : ps.drop k with
    | nil =>
      rw [hd, List.map_nil, List.flatten_nil, List.append_eq_nil_iff] at hrest
      rw [hrest.1] at hlen
      exact absurd hlen (Nat.ne_of_lt h0)
    | cons p ps' =>
      rw [hd] at hrest
      have hshort := framed_pending hnot hrest
      refine ⟨k, p, ?_, by omega, ?_⟩
      · rw [← List.head?_drop, hd]
        rfl
      · -- What has come of the frame are its first bytes.
        rw [hrec]
        refine congrArg (_ ++ ·) ?_
        rw [List.map_cons, List.flatten_cons] at hrest
        have htake := congrArg (List.take c) hrest
        rwa [← hlen, List.take_left, hlen,
          List.take_append_of_le_length (by rw [framed_length]; omega)] at htake
  · rintro ⟨j, p, hget, hlong, hrec'⟩
    have hnot' : t ∉ (framed h t p).take c := by
      rw [framed, List.take_append_of_le_length (by simp; omega)]
      intro hm
      rcases List.mem_cons.1 (List.mem_of_mem_take hm) with he | hm
      · exact hne he.symm
      · exact hp p (List.mem_of_getElem? hget) hm
    have hsame := frames_unique hp hne hnot hnot' (hrec.symm.trans hrec')
    rw [hsame, List.length_take, framed_length]
    omega

/-- The theorem for a ring of three bytes and a frame of five. -/
theorem long_frame_wedges_three : ∃ x : System × List UInt8,
    Reachable (Begin 3 (createBasic [1] [2] 3 (by decide)) id) (Streamed 2) x ∧ x.2 = [1, 7, 8] ∧
      x.1.handler.unpacker.getLinearWriteSpace.2 = 0 ∧ ∀ y, Relation.ReflTransGen (Streamed 2) x y →
      Idle x y := by
  have hplay : (getPack 3 (filled (createBasic [1] [2] 3 (by decide)) [1, 7, 8]) []).map (·.2.1) =
      .ok [] := by decide
  obtain ⟨res, packs, u, hg, rfl⟩ := gets_of_getPack hplay
  have h₀ : Reachable (Begin 3 (createBasic [1] [2] 3 (by decide)) id) (Streamed 2)
      ({ handler := setCallback { fd := 3, unpacker := createBasic [1] [2] 3 (by decide) } (some id) }, []) :=
        .start ⟨rfl, rfl⟩
  have h₁ := h₀.next (.other (.handleEvent ⟨3, EventFlags.kReadable⟩ rfl) rfl)
  have h₂ := h₁.next (.read (by decide) (by decide) (by decide) hg (by decide))
  obtain ⟨hclosed, hforever⟩ :=
    long_frame_wedges 1 2 (by decide) 3 (by decide) (by decide) 3 id [[7, 8, 9]] (by decide) _ h₂
    ⟨[9, 2], rfl⟩
  have hfull := hclosed.2 ⟨0, [7, 8, 9], rfl, by decide, rfl⟩
  exact ⟨_, h₂, rfl, hfull, hforever hfull⟩

end NebulaToolkit.TcpHandler
