import NebulaToolkit.Logger
/-!
# What reaches the log file

Every accepted byte is either written or still in the ring, in order
(`Copied`), as long as no iteration takes more than its `read_buffer` holds.
Two questions follow from it: is the file a copy, and is it complete when the
logger is gone.
-/

namespace NebulaToolkit

open Lib

namespace Logger

variable {ι : Type} {s s' : State ι}

/-- What was accepted and not written is what the ring holds. -/
structure Copied (s : State ι) : Prop where
  ring : s.ringBuffer.Inv
  accepted_eq : s.accepted = s.written ++ s.ringBuffer.content

theorem Copied.starts_accepted (h : Copied s) : s.written <+: s.accepted := ⟨_, h.accepted_eq.symm⟩

theorem start_copied (h : Start s) : Copied s := by
  obtain ⟨file, rfl⟩ := h
  exact ⟨initialRing_inv, rfl⟩

/-- How many bytes an iteration takes. -/
def State.minReadBytes (s : State ι) : Nat := min s.ringBuffer.availableToRead s.config.logAsync.batchSizeKb

theorem State.minReadBytes_le (s : State ι) : s.minReadBytes ≤ s.ringBuffer.length := Nat.min_le_left _ _

theorem consume_eq (s : State ι) (readBuffer beyond : List UInt8) :
    s.consume readBuffer beyond = if s.minReadBytes > 0 then
      { s with
        ringBuffer := (s.ringBuffer.readVector 1 readBuffer s.minReadBytes).2
        consumer := .head (s.ringBuffer.readVector 1 readBuffer s.minReadBytes).1.2
        written := s.written ++
        ((s.ringBuffer.readVector 1 readBuffer s.minReadBytes).1.2 ++ beyond).take s.minReadBytes }
    else { s with consumer := .head readBuffer } := rfl

/-- An iteration that takes no more than its `read_buffer` holds. -/
theorem consume_spec (hi : s.ringBuffer.Inv) {readBuffer : List UInt8} (beyond : List UInt8)
    (hfit : s.minReadBytes ≤ readBuffer.length) :
    ∃ ring readBuffer', readBuffer'.length = readBuffer.length ∧ ring.Inv ∧
      ring.content = s.ringBuffer.content.drop s.minReadBytes ∧
      s.consume readBuffer beyond = { s with
        ringBuffer := ring
        consumer := .head readBuffer'
        written := s.written ++ s.ringBuffer.content.take s.minReadBytes } := by
  have hle := s.minReadBytes_le
  rw [consume_eq]
  generalize s.minReadBytes = n at *
  by_cases h0 : n = 0
  · subst h0
    refine ⟨s.ringBuffer, readBuffer, rfl, hi, rfl, ?_⟩
    rw [if_neg (by omega), List.take_zero, List.append_nil]
  · -- `Read` fills the front of the vector, and that is what is written.
    have htake : (s.ringBuffer.content.take n).length = n := by simpa using hle
    have hput : put readBuffer 0 (s.ringBuffer.content.take n) =
        s.ringBuffer.content.take n ++ readBuffer.drop n := by
      rw [put_start (by omega), htake]
    refine ⟨s.ringBuffer.dropFront n, put readBuffer 0 (s.ringBuffer.content.take n), put_length _ _ _,
      hi.dropFront hle, RingBuffer.dropFront_content hle, ?_⟩
    rw [if_pos (by omega), RingBuffer.readVector_eq hi, if_neg h0, if_neg (by omega), if_pos hle]
    congr 2
    simp only [hput]
    rw [List.append_assoc, List.take_left' htake]

/-- An iteration that takes more than its `read_buffer` holds: `Read` is refused, and what `read_buffer` held
before, with whatever lies behind it, is written. -/
theorem consume_overread (hi : s.ringBuffer.Inv) {readBuffer : List UInt8} (beyond : List UInt8)
    (hover : readBuffer.length < s.minReadBytes) :
    s.consume readBuffer beyond = { s with
      consumer := .head readBuffer
      written := s.written ++ (readBuffer ++ beyond).take s.minReadBytes } := by
  rw [consume_eq, RingBuffer.readVector_eq hi, if_pos (by omega), if_neg (by omega), if_pos hover]

/-- A record that fits into the ring. -/
theorem log_accepts [DecidableEq ι] (hi : s.ringBuffer.Inv) {i : ι} {c : Call} {time : List UInt8}
    (hlevel : c.level ≠ .msg)
    (hroom : s.ringBuffer.length + (c.record s.config.logGlobal time).length ≤ s.ringBuffer.capacity) :
    s.log i c time = { s with
      call := Function.update s.call i none
      ringBuffer := s.ringBuffer.append (c.record s.config.logGlobal time)
      accepted := s.accepted ++ c.record s.config.logGlobal time } := by
  unfold State.log
  have hnil := mt List.eq_nil_of_length_eq_zero (c.record_ne_nil s.config.logGlobal time)
  simp only [if_neg hlevel, RingBuffer.write_eq hi, if_neg hnil, if_pos hroom, if_true]

/-- A call of `LogCout` or `LogPrint`: a record that is accepted stands behind the others. -/
theorem log_spec [DecidableEq ι] (hi : s.ringBuffer.Inv) {i : ι} {c : Call} {time : List UInt8}
    (hlen : (c.record s.config.logGlobal time).length ≤ maxSize) :
    ∃ ring xs, ring.Inv ∧ ring.content = s.ringBuffer.content ++ xs ∧
      s.log i c time = { s with
        call := Function.update s.call i none
        ringBuffer := ring
        accepted := s.accepted ++ xs } := by
  by_cases hmsg : c.level = .msg
  · refine ⟨s.ringBuffer, [], hi, (List.append_nil _).symm, ?_⟩
    unfold State.log
    simp only [if_pos hmsg, List.append_nil]
  by_cases hroom : s.ringBuffer.length + (c.record s.config.logGlobal time).length ≤ s.ringBuffer.capacity
  · exact ⟨_, _, hi.append hroom, RingBuffer.append_content hi hroom, log_accepts hi hmsg hroom⟩
  · refine ⟨s.ringBuffer, [], hi, (List.append_nil _).symm, ?_⟩
    have hnil := mt List.eq_nil_of_length_eq_zero (c.record_ne_nil s.config.logGlobal time)
    have hres : Result.kErrorFull.toSize ≠ (c.record s.config.logGlobal time).length := by
      simp only [maxSize] at hlen
      simp only [Result.toSize]
      omega
    unfold State.log
    simp only [if_neg hmsg, RingBuffer.write_eq hi, if_neg hnil, if_neg hroom, if_neg hres, List.append_nil]

/-- A call of `LogCout`. -/
def sampleCall : Call := { level := .info, func := [], line := 1, message := .cout [bytes "x"] }

/-- What `CurrentTime` returned to it. -/
def sampleTime : List UInt8 := bytes "2024-01-01 00:00:00"

/-- What it writes. -/
def sampleRecord : List UInt8 := bytes "2024-01-01 00:00:00 [INFO] x\n"

/-- The state with the call's record in the ring. -/
def State.withSample (s : State Unit) : State Unit :=
  { s with
    call := Function.update (Function.update s.call () (some sampleCall)) () none
    ringBuffer := s.ringBuffer.append sampleRecord
    accepted := s.accepted ++ sampleRecord }

theorem sampleRecord_length : sampleRecord.length = 29 := by decide

theorem sample_fits : initialRing.length + sampleRecord.length ≤ initialRing.capacity := by
  have hcap : initialRing.capacity = 65536 := RingBuffer.ofSize_capacity _
  have hempty : initialRing.length = 0 := rfl
  rw [sampleRecord_length, hcap, hempty]
  decide

theorem sample_accepted {s : State Unit} (hring : s.ringBuffer = initialRing)
    (hf : s.config.logGlobal.printFunc = false) (hl : s.config.logGlobal.printLine = false) :
    Step { s with call := Function.update s.call () (some sampleCall) } s.withSample := by
  have hrecord : sampleCall.record s.config.logGlobal sampleTime = sampleRecord := by
    unfold Call.record
    rw [hf, hl]
    decide
  have hcall : Function.update s.call () (some sampleCall) () = some sampleCall := Function.update_self ..
  have hstep :=
    Step.log (s := { s with call := Function.update s.call () (some sampleCall) }) (i := ()) sampleTime
    hcall (by rw [hrecord, sampleRecord_length]; decide)
  rw [log_accepts (hring ▸ initialRing_inv) (by decide), hrecord] at hstep
  · exact hstep
  · rw [hrecord, hring]
    exact sample_fits

/-! ## The file is a copy -/

/-- An iteration takes more bytes than its `read_buffer` holds. -/
def Overread (s s' : State ι) : Prop :=
  ∃ readBuffer readBuffer', s.consumer = .body readBuffer ∧ s'.consumer = .head readBuffer' ∧
  readBuffer.length < s.minReadBytes

/-- After an iteration the thread is before its test again. -/
theorem consume_head (s : State ι) (readBuffer beyond : List UInt8) :
    ∃ readBuffer', (s.consume readBuffer beyond).consumer = .head readBuffer' := by
  rw [consume_eq]
  split <;> exact ⟨_, rfl⟩

variable [DecidableEq ι]

theorem step_copied (h : Copied s) (hs : Step s s') (ho : ¬ Overread s s') : Copied s' := by
  cases hs with
  | @log i c time hc hlen =>
    obtain ⟨ring, xs, hring, hcontent, he⟩ := log_spec (i := i) h.ring hlen
    rw [he]
    refine ⟨hring, ?_⟩
    rw [hcontent, ← List.append_assoc, ← h.accepted_eq]
  | @consume readBuffer beyond hb h0 hlen =>
    have hfit : s.minReadBytes ≤ readBuffer.length := by
      obtain ⟨readBuffer', hh⟩ := consume_head s readBuffer beyond
      exact Nat.not_lt.1 fun hlt => ho ⟨_, _, hb, hh, hlt⟩
    obtain ⟨ring, readBuffer', -, hring, hcontent, he⟩ := consume_spec h.ring beyond hfit
    rw [he]
    refine ⟨hring, ?_⟩
    rw [hcontent, List.append_assoc, List.take_append_drop]
    exact h.accepted_eq
  | reload | monitorExit | shouldLog | start | loadRunning | timeout | stopMonitor | stopCust | joinMonitor
  | joinCust =>
    exact ⟨h.ring, h.accepted_eq⟩

/-- In a run without an overread the file holds the accepted records, up to those still in the ring. -/
theorem file_copies_records (s₀ : State ι) (run : List (State ι)) (h : IsRun Start Step s₀ run)
    (hgood : (s₀ :: run).IsChain fun s s' => ¬ Overread s s') :
    ∀ s ∈ s₀ :: run, s.written <+: s.accepted := by
  intro s hs
  have hrun := h.and hgood
  exact (hrun.inv (fun _ => start_copied) (fun s s' hi hs => step_copied hi hs.1 hs.2) s hs).starts_accepted

/-! ## The file is complete -/

/-- `cust_thread_running_`, from how far the destructor is. -/
def Destructor.custRunning : Destructor → Bool
  | .notBegun | .monitorStopped => true
  | .custStopped | .monitorJoined | .custJoined => false

/-- Facts of every run in which `batch_size_kb` is always `b`. -/
structure Steady (b : Nat) (s : State ι) : Prop where
  copied : Copied s
  batch : s.config.logAsync.batchSizeKb = b
  buffer : ∀ readBuffer, s.consumer = .head readBuffer ∨ s.consumer = .body readBuffer → readBuffer.length = b
  before_prefix : s.before <+: s.accepted
  running : s.custRunning = s.destructor.custRunning
  joined : s.destructor = .custJoined → s.consumer = .done

/-- What is missing of the records accepted before the destructor began, the consumer
still writes although `cust_thread_running_` is cleared: it is in its last iteration. -/
def State.Drains (s : State ι) : Prop :=
  s.before.length ≤ s.written.length ∨
    (∃ readBuffer, s.consumer = .body readBuffer) ∧
    s.before.length ≤ s.written.length + s.config.logAsync.batchSizeKb

/-- The step of `~Logger` that clears `cust_thread_running_`. -/
def StopsCust (s s' : State ι) : Prop := s.custRunning = true ∧ s'.custRunning = false

variable {b : Nat}

omit [DecidableEq ι] in
theorem start_steady (h : Start s) (hb : s.config.logAsync.batchSizeKb = b) : Steady b s := by
  have hcopied := start_copied h
  obtain ⟨file, rfl⟩ := h
  refine ⟨hcopied, hb, fun readBuffer hr => ?_, List.prefix_rfl, rfl, fun hj => by cases hj⟩
  rcases hr with hr | hr <;> cases hr

omit [DecidableEq ι] in
theorem Steady.fits (h : Steady b s) {readBuffer : List UInt8} (hb : s.consumer = .body readBuffer) :
    s.minReadBytes ≤ readBuffer.length := by
  rw [h.buffer readBuffer (.inr hb), ← h.batch]
  exact Nat.min_le_right _ _

theorem step_steady (h : Steady b s) (hs : Step s s') (hb' : s'.config.logAsync.batchSizeKb = b) :
    Steady b s' := by
  have hcopied : Copied s' := by
    refine step_copied h.copied hs ?_
    rintro ⟨readBuffer, _, hb, _, hlt⟩
    exact absurd (h.fits hb) (Nat.not_le.2 hlt)
  cases hs with
  | @log i c time hc hlen =>
    obtain ⟨ring, xs, -, -, he⟩ := log_spec (i := i) h.copied.ring hlen
    rw [he] at hcopied ⊢
    exact ⟨hcopied, h.batch, h.buffer, h.before_prefix.trans (List.prefix_append _ _), h.running, h.joined⟩
  | @consume readBuffer beyond hb h0 hlen =>
    obtain ⟨ring, readBuffer', hlen', -, -, he⟩ := consume_spec h.copied.ring beyond (h.fits hb)
    rw [he] at hcopied ⊢
    refine ⟨hcopied, h.batch, fun r hr => ?_, h.before_prefix, h.running, fun hj => ?_⟩
    · rcases hr with hr | hr <;> cases hr
      rw [hlen', h.buffer readBuffer (.inr hb)]
    · rw [h.joined hj] at hb
      cases hb
  | start hc hsize =>
    refine ⟨hcopied, h.batch, fun r hr => ?_, h.before_prefix, h.running, fun hj => ?_⟩
    · rcases hr with hr | hr <;> cases hr
      rw [List.length_replicate, h.batch]
    · rw [h.joined hj] at hc
      cases hc
  | @loadRunning readBuffer hc =>
    refine ⟨hcopied, h.batch, fun r hr => ?_, h.before_prefix, h.running, fun hj => ?_⟩
    · have hlen := h.buffer readBuffer (.inl hc)
      cases hrun : s.custRunning <;> simp only [hrun] at hr <;> rcases hr with hr | hr <;> cases hr
      exact hlen
    · rw [h.joined hj] at hc
      cases hc
  | @timeout readBuffer hc h0 =>
    refine ⟨hcopied, h.batch, fun r hr => ?_, h.before_prefix, h.running, fun hj => ?_⟩
    · rcases hr with hr | hr <;> cases hr
      exact h.buffer readBuffer (.inr hc)
    · rw [h.joined hj] at hc
      cases hc
  | stopMonitor hd =>
    refine ⟨hcopied, h.batch, h.buffer, List.prefix_rfl, ?_, fun hj => by cases hj⟩
    rw [h.running, hd]
    rfl
  | stopCust hd => exact ⟨hcopied, h.batch, h.buffer, h.before_prefix, rfl, fun hj => by cases hj⟩
  | joinMonitor hd hm =>
    refine ⟨hcopied, h.batch, h.buffer, h.before_prefix, ?_, fun hj => by cases hj⟩
    rw [h.running, hd]
    rfl
  | joinCust hd hc =>
    refine ⟨hcopied, h.batch, h.buffer, h.before_prefix, ?_, fun _ => hc⟩
    rw [h.running, hd]
    rfl
  | reload => exact ⟨hcopied, hb', h.buffer, h.before_prefix, h.running, h.joined⟩
  | monitorExit | shouldLog => exact ⟨hcopied, h.batch, h.buffer, h.before_prefix, h.running, h.joined⟩

omit [DecidableEq ι] in
theorem drains_iff (hn : ∀ readBuffer, s.consumer ≠ .body readBuffer) :
    s.Drains ↔ s.before.length ≤ s.written.length :=
  or_iff_left fun h => h.1.elim hn

omit [DecidableEq ι] in
theorem drains_body {readBuffer : List UInt8} (hb : s.consumer = .body readBuffer) :
    s.Drains ↔ s.before.length ≤ s.written.length + s.config.logAsync.batchSizeKb := by
  refine ⟨fun h => ?_, fun h => .inr ⟨⟨_, hb⟩, h⟩⟩
  rcases h with h | h
  · exact Nat.le_add_right_of_le h
  · exact h.2

omit [DecidableEq ι] in
/-- No more is missing than the ring holds. -/
theorem Steady.before_le (h : Steady b s) : s.before.length ≤ s.written.length + s.ringBuffer.length := by
  have := h.before_prefix.length_le
  rwa [h.copied.accepted_eq, List.length_append, RingBuffer.content_length] at this

omit [DecidableEq ι] in
/-- A step that does not touch the flag settles nothing when it leaves what drains. -/
theorem settled_of_kept (hr : s'.custRunning = s.custRunning)
    (hd : s.custRunning = false → (s'.Drains ↔ s.Drains)) :
    (s'.custRunning = false → s'.Drains) ↔
    (s.custRunning = false → s.Drains) ∧ (StopsCust s s' → s.Drains) := by
  have hno : ¬ StopsCust s s' := by
    rintro ⟨h, h'⟩
    rw [hr, h] at h'
    cases h'
  rw [hr]
  exact ⟨fun h => ⟨fun hf => (hd hf).1 (h hf), fun hs => absurd hs hno⟩, fun h hf => (hd hf).2 (h.1 hf)⟩

/-- Once the flag is cleared it is settled whether the missing records are written. -/
theorem step_drains (h : Steady b s) (hs : Step s s') (hb' : s'.config.logAsync.batchSizeKb = b) :
    (s'.custRunning = false → s'.Drains) ↔
    (s.custRunning = false → s.Drains) ∧ (StopsCust s s' → s.Drains) := by
  cases hs with
  | @log i c time hc hlen =>
    obtain ⟨ring, xs, -, -, he⟩ := log_spec (i := i) h.copied.ring hlen
    rw [he]
    exact settled_of_kept rfl fun _ => Iff.rfl
  | @consume readBuffer beyond hb h0 hlen =>
    obtain ⟨ring, readBuffer', -, -, -, he⟩ := consume_spec h.copied.ring beyond (h.fits hb)
    rw [he]
    refine settled_of_kept rfl fun _ => ?_
    -- The last iteration takes the oldest bytes of the ring, a batch at most.
    have hle := h.before_le
    have htake : (s.ringBuffer.content.take s.minReadBytes).length =
        min s.ringBuffer.length s.config.logAsync.batchSizeKb := by
      rw [List.length_take, RingBuffer.content_length]
      exact Nat.min_eq_left s.minReadBytes_le
    rw [drains_iff (fun r hr => by cases hr), drains_body hb, List.length_append, htake]
    change s.before.length ≤ _ ↔ _
    omega
  | start hc hsize =>
    refine settled_of_kept rfl fun _ => ?_
    exact (drains_iff fun r hr => by cases hr).trans (drains_iff fun r hr => by rw [hc] at hr; cases hr).symm
  | @loadRunning readBuffer hc =>
    refine settled_of_kept rfl fun hr => ?_
    exact (drains_iff fun r hb => by simp only [hr] at hb; cases hb).trans
      (drains_iff fun r hb => by rw [hc] at hb; cases hb).symm
  | @timeout readBuffer hc h0 =>
    refine settled_of_kept rfl fun _ => ?_
    have hle := h.before_le
    rw [drains_iff (fun r hr => by cases hr), drains_body hc]
    change s.before.length ≤ s.written.length ↔ _
    omega
  | stopMonitor hd =>
    have hrun : s.custRunning = true := by rw [h.running, hd]; rfl
    refine settled_of_kept rfl fun hr => ?_
    rw [hrun] at hr
    cases hr
  | stopCust hd =>
    have hrun : s.custRunning = true := by rw [h.running, hd]; rfl
    constructor
    · refine fun hdrains => ⟨fun hr => ?_, fun _ => hdrains rfl⟩
      rw [hrun] at hr
      cases hr
    · exact fun hstop _ => hstop.2 ⟨hrun, rfl⟩
  | reload =>
    refine settled_of_kept rfl fun _ => ?_
    unfold State.Drains
    rw [hb', h.batch]
  | monitorExit | shouldLog | joinMonitor | joinCust => exact settled_of_kept rfl fun _ => Iff.rfl

/-- When the consumer is joined, all records accepted before the destructor began are in the file
if and only if the consumer would still write what was missing when its flag was cleared. -/
theorem shutdown_drains (s₀ : State ι) (run : List (State ι)) (h : IsRun Start Step s₀ run)
    (hfixed : ∀ s ∈ s₀ :: run, s.config.logAsync.batchSizeKb = b)
    (hjoined : ((s₀ :: run).getLast (List.cons_ne_nil _ _)).destructor = .custJoined) :
    ((s₀ :: run).getLast (List.cons_ne_nil _ _)).before <+:
    ((s₀ :: run).getLast (List.cons_ne_nil _ _)).written ↔
      (s₀ :: run).IsChain fun s s' => StopsCust s s' → s.Drains := by
  have hrun : IsRun (fun s : State ι => Start s ∧ s.config.logAsync.batchSizeKb = b)
      (fun s s' => Step s s' ∧ s'.config.logAsync.batchSizeKb = b) s₀ run :=
    ⟨⟨h.1, hfixed _ List.mem_cons_self⟩, h.2.imp_of_mem_imp fun s s' _ hs' hs => ⟨hs, hfixed s' hs'⟩⟩
  have hstart : ∀ s : State ι, Start s ∧ s.config.logAsync.batchSizeKb = b → Steady b s :=
    fun s hs => start_steady hs.1 hs.2
  have hsteps : ∀ s s' : State ι, Steady b s → Step s s' ∧ s'.config.logAsync.batchSizeKb = b →
      Steady b s' :=
    fun s s' hi hs => step_steady hi hs.1 hs.2
  have hsettled : (((s₀ :: run).getLast (List.cons_ne_nil _ _)).custRunning = false →
      ((s₀ :: run).getLast (List.cons_ne_nil _ _)).Drains) ↔
      (s₀ :: run).IsChain fun s s' => StopsCust s s' → s.Drains := by
    refine (hrun.strengthen hstart hsteps).last_iff (Q := fun s => s.custRunning = false → s.Drains)
      (fun s hs hr => ?_)
      fun s s' hs => step_drains hs.1 hs.2.1 hs.2.2
    obtain ⟨⟨file, rfl⟩, -⟩ := hs
    cases hr
  rw [← hsettled]
  have hs := hrun.inv hstart hsteps _ (List.getLast_mem (List.cons_ne_nil s₀ run))
  generalize (s₀ :: run).getLast (List.cons_ne_nil _ _) = s at *
  have hdone := hs.joined hjoined
  have hstopped : s.custRunning = false := by rw [hs.running, hjoined]; rfl
  have hdrains : s.Drains ↔ s.before.length ≤ s.written.length :=
    drains_iff fun r hr => by rw [hdone] at hr; cases hr
  rw [hdrains]
  constructor
  · exact fun hp _ => hp.length_le
  · exact fun hle => List.prefix_of_prefix_length_le hs.before_prefix hs.copied.starts_accepted (hle hstopped)

/-! ## Runs -/

/-- After the constructor, with a file that lets the call through. -/
def sampleStart : State Unit :=
  { config := updateConfig (some "[LOG_LEVEL]\ninfo = 1".toList) {}, ringBuffer := initialRing }

/-- A step with the configuration fixed that neither overreads nor leaves anything behind. -/
def SoundStep (s s' : State ι) : Prop :=
  Step s s' ∧ s'.config = s.config ∧ ¬ Overread s s' ∧ (StopsCust s s' → s.Drains)

omit [DecidableEq ι] in
theorem not_overread (hn : ∀ readBuffer, s.consumer ≠ .body readBuffer) : ¬ Overread s s' := by
  rintro ⟨readBuffer, _, hb, _, _⟩
  exact hn readBuffer hb

omit [DecidableEq ι] in
theorem not_stopsCust (hr : s'.custRunning = s.custRunning) : ¬ StopsCust s s' := by
  rintro ⟨h, h'⟩
  rw [hr, h] at h'
  cases h'

theorem SoundStep.of_step (h : Step s s') (hc : s'.config = s.config)
    (hn : ∀ readBuffer, s.consumer ≠ .body readBuffer) (hr : s'.custRunning = s.custRunning) :
    SoundStep s s' :=
  ⟨h, hc, not_overread hn, fun hs => absurd hs (not_stopsCust hr)⟩

theorem sample_reached : Reachable Start SoundStep sampleStart.withSample := by
  have h₀ : Reachable Start SoundStep sampleStart := .start ⟨_, rfl⟩
  have hlog : Step sampleStart { sampleStart with
      call := Function.update sampleStart.call () (some sampleCall) } :=
    .shouldLog () sampleCall rfl (by decide)
  have h₁ := h₀.next (.of_step hlog rfl (fun _ => nofun) rfl)
  exact h₁.next (.of_step (sample_accepted rfl (by decide) (by decide)) rfl (fun _ => nofun) rfl)

/-- What the runs below need to know of the state with the record. -/
theorem sample_state :
    sampleStart.withSample.ringBuffer.Inv ∧ sampleStart.withSample.ringBuffer.content = sampleRecord ∧
    sampleStart.withSample.config.logAsync.batchSizeKb = 4096 := by
  have hring : sampleStart.withSample.ringBuffer = initialRing.append sampleRecord := by
    simp only [State.withSample, sampleStart]
  have hempty : initialRing.content = [] := RingBuffer.ofSize_content _
  rw [hring, RingBuffer.append_content initialRing_inv sample_fits, hempty, List.nil_append]
  exact ⟨initialRing_inv.append sample_fits, rfl, by decide⟩

/-- The record is written, then the logger goes. -/
theorem sample_shutdown : ∃ s : State Unit, Reachable Start SoundStep s ∧ s.config = sampleStart.config ∧
    s.destructor = .custJoined ∧ s.before = sampleRecord ∧ s.accepted = sampleRecord ∧
    s.written = sampleRecord := by
  have h := sample_reached
  obtain ⟨hi, hcontent, hbatch⟩ := sample_state
  have hconfig : sampleStart.withSample.config = sampleStart.config := rfl
  have hstarting : sampleStart.withSample.consumer = .starting := rfl
  have hrunning : sampleStart.withSample.custRunning = true := rfl
  have hdestructor : sampleStart.withSample.destructor = .notBegun := rfl
  have haccepted : sampleStart.withSample.accepted = sampleRecord := rfl
  have hwritten : sampleStart.withSample.written = [] := rfl
  generalize sampleStart.withSample = s at *
  have h₁ := h.next (.of_step (.start hstarting (by rw [hbatch]; decide)) rfl
    (fun r hr => by rw [hstarting] at hr; cases hr) rfl)
  have h₂ : Reachable Start SoundStep { s with
      consumer := .body (List.replicate s.config.logAsync.batchSizeKb 0) } := by
    have hstep := Step.loadRunning
      (s := { s with consumer := .head (List.replicate s.config.logAsync.batchSizeKb 0) }) rfl
    rw [if_pos hrunning] at hstep
    exact h₁.next (.of_step hstep rfl (fun _ => nofun) rfl)
  -- One iteration takes the whole record.
  have hlength : s.ringBuffer.length = 29 := by
    rw [← RingBuffer.content_length, hcontent, sampleRecord_length]
  have hmin : s.minReadBytes = 29 := by
    unfold State.minReadBytes RingBuffer.availableToRead
    rw [hlength, hbatch]
    decide
  have hfit : s.minReadBytes ≤ (List.replicate s.config.logAsync.batchSizeKb (0 : UInt8)).length := by
    rw [hmin, List.length_replicate, hbatch]
    decide
  obtain ⟨ring, readBuffer, -, -, -, he⟩ :=
    consume_spec (s := { s with consumer := .body (List.replicate s.config.logAsync.batchSizeKb 0) })
      hi [] hfit
  have hall : s.written ++ s.ringBuffer.content.take s.minReadBytes = sampleRecord := by
    rw [hcontent, hmin, ← sampleRecord_length, List.take_length, hwritten, List.nil_append]
  have h₃ : Reachable Start SoundStep { s with
      ringBuffer := ring, consumer := .head readBuffer, written := sampleRecord } := by
    have hstep :=
      Step.consume (s := { s with consumer := .body (List.replicate s.config.logAsync.batchSizeKb 0) }) []
      rfl (by rw [hlength]; decide) (Nat.sub_eq_zero_of_le hfit).symm
    rw [he] at hstep
    change Step _ { s with
      ringBuffer := ring, consumer := .head readBuffer
      written := s.written ++ s.ringBuffer.content.take s.minReadBytes } at hstep
    rw [hall] at hstep
    refine h₂.next ⟨hstep, rfl, ?_, fun hs => absurd hs (not_stopsCust rfl)⟩
    rintro ⟨_, _, hb, _, hlt⟩
    cases hb
    exact absurd hfit (Nat.not_le.2 hlt)
  have h₄ := h₃.next (.of_step (.stopMonitor hdestructor) rfl (fun _ => nofun) rfl)
  have h₅ := h₄.next ⟨.stopCust rfl, rfl, not_overread fun _ => nofun, fun _ => .inl (by rw [haccepted])⟩
  have h₆ := h₅.next (.of_step (.loadRunning rfl) rfl (fun _ => nofun) rfl)
  have h₇ := h₆.next (.of_step (.monitorExit rfl) rfl (fun _ => nofun) rfl)
  have h₈ := h₇.next (.of_step (.joinMonitor rfl rfl) rfl (fun _ => nofun) rfl)
  have h₉ := h₈.next (.of_step (.joinCust rfl rfl) rfl (fun _ => nofun) rfl)
  exact ⟨_, h₉, hconfig, rfl, haccepted, haccepted, rfl⟩

/-- The theorem for a logger that writes one record and goes. -/
theorem file_copies_records_sample : ∃ (s₀ : State Unit) (run : List (State Unit)), IsRun Start Step s₀ run ∧
    ∃ s ∈ s₀ :: run, s.accepted = sampleRecord ∧ s.written = sampleRecord ∧
    ∀ s ∈ s₀ :: run, s.written <+: s.accepted := by
  obtain ⟨s, h, -, -, -, haccepted, hwritten⟩ := sample_shutdown
  obtain ⟨s₀, run, hrun, rfl⟩ := h.exists_run
  exact ⟨s₀, run, hrun.imp fun _ _ hs => hs.1, _, List.getLast_mem _, haccepted, hwritten,
    file_copies_records s₀ run (hrun.imp fun _ _ hs => hs.1) (hrun.2.imp fun _ _ hs => hs.2.2.1)⟩

/-- `batch_size_kb` is 1 when the consumer starts and 64 when it comes to the record. -/
theorem overread_spoils : ∃ s : State Unit, Reachable Start Step s ∧ ¬ s.written <+: s.accepted := by
  obtain ⟨c₀, hc₀⟩ : ∃ c, c = updateConfig (some "[LOG_GLOBAL]\nbatch_size_kb = 1".toList) {} :=
    ⟨_, rfl⟩
  obtain ⟨c₁, hc₁⟩ : ∃ c, c =
      updateConfig (some "[LOG_GLOBAL]\nbatch_size_kb = 64\n[LOG_LEVEL]\ninfo = 1".toList) c₀ := ⟨_, rfl⟩
  have hbatch₀ : c₀.logAsync.batchSizeKb = 1 := by rw [hc₀]; decide
  have hbatch₁ : c₁.logAsync.batchSizeKb = 64 := by rw [hc₁, hc₀]; decide
  have hinfo : c₁.logLevel.info = true := by rw [hc₁, hc₀]; decide
  have hfunc : c₁.logGlobal.printFunc = false := by rw [hc₁, hc₀]; decide
  have hline : c₁.logGlobal.printLine = false := by rw [hc₁, hc₀]; decide
  have h₀ : Reachable Start Step ({ config := c₀, ringBuffer := initialRing } : State Unit) :=
    .start ⟨_, by rw [hc₀]⟩
  have h₁ := h₀.next (.start rfl (by rw [hbatch₀]; decide))
  have h₂ := h₁.next (.reload (some "[LOG_GLOBAL]\nbatch_size_kb = 64\n[LOG_LEVEL]\ninfo = 1".toList) rfl)
  simp only [hbatch₀, List.replicate_one, ← hc₁] at h₂
  have h₃ := h₂.next (.loadRunning rfl)
  have h₄ := h₃.next (.shouldLog () sampleCall rfl hinfo)
  have h₅ := h₄.next (sample_accepted rfl hfunc hline)
  simp only [if_true, State.withSample, List.nil_append] at h₅
  have hi : (initialRing.append sampleRecord).Inv := initialRing_inv.append sample_fits
  have hlength : (initialRing.append sampleRecord).length = 29 := by
    rw [← RingBuffer.content_length, RingBuffer.append_content initialRing_inv sample_fits,
      List.length_append, RingBuffer.content_length, sampleRecord_length]
    rfl
  generalize initialRing.append sampleRecord = ring at *
  have hmin : min ring.availableToRead c₁.logAsync.batchSizeKb = 29 := by
    unfold RingBuffer.availableToRead
    rw [hlength, hbatch₁]
    decide
  have hstep := Step.consume
    (s := { config := c₁, ringBuffer := ring, consumer := .body [0], accepted := sampleRecord,
            call := Function.update (Function.update (fun _ => none) () (some sampleCall)) () none })
    (List.replicate 28 0) rfl (by rw [hlength]; decide) (by rw [hmin]; decide)
  rw [consume_overread hi _ (by unfold State.minReadBytes; rw [hmin]; decide)] at hstep
  refine ⟨_, h₅.next hstep, ?_⟩
  unfold State.minReadBytes
  rw [hmin]
  change ¬ ([0] ++ List.replicate 28 (0 : UInt8)).take 29 <+: sampleRecord
  decide

/-- The theorem for a logger that writes one record and goes. -/
theorem shutdown_drains_sample : ∃ (s₀ : State Unit) (run : List (State Unit)), IsRun Start Step s₀ run ∧
    ((s₀ :: run).getLast (List.cons_ne_nil _ _)).before = sampleRecord ∧
    ((s₀ :: run).getLast (List.cons_ne_nil _ _)).before <+:
    ((s₀ :: run).getLast (List.cons_ne_nil _ _)).written := by
  obtain ⟨s, h, -, hjoined, hbefore, -, -⟩ := sample_shutdown
  obtain ⟨s₀, run, hrun, rfl⟩ := h.exists_run
  have hstay : IsRun (· = s₀) SoundStep s₀ run := ⟨rfl, hrun.2⟩
  have hconfig := hstay.inv (I := fun s => s.config = s₀.config)
    (fun s hs => by rw [hs]) fun s s' hs hss' => hss'.2.1.trans hs
  exact ⟨s₀, run, hrun.imp fun _ _ hs => hs.1, hbefore,
    (shutdown_drains s₀ run (hrun.imp fun _ _ hs => hs.1) (fun s hs => by rw [hconfig s hs]) hjoined).2
      (hrun.2.imp fun _ _ hs => hs.2.2.2)⟩

/-- Stopped before the consumer has run: the record stays in the ring. -/
theorem shutdown_loses : ∃ s : State Unit, Reachable Start (fun s s' => Step s s' ∧ s'.config = s.config) s ∧
    0 < s.config.logAsync.batchSizeKb ∧ s.destructor = .custJoined ∧ ¬ s.before <+: s.written := by
  obtain ⟨s₀, h₀, hr⟩ := sample_reached
  have h : Reachable Start
      (fun s s' : State Unit => Step s s' ∧ s'.config = s.config) sampleStart.withSample :=
    ⟨s₀, h₀, hr.lift id fun _ _ hs => ⟨hs.1, hs.2.1⟩⟩
  have hbatch := sample_state.2.2
  have hstarting : sampleStart.withSample.consumer = .starting := rfl
  have hdestructor : sampleStart.withSample.destructor = .notBegun := rfl
  have haccepted : sampleStart.withSample.accepted = sampleRecord := rfl
  have hwritten : sampleStart.withSample.written = [] := rfl
  generalize sampleStart.withSample = s at *
  have h₁ := h.next ⟨.stopMonitor hdestructor, rfl⟩
  have h₂ := h₁.next ⟨.stopCust rfl, rfl⟩
  have h₃ := h₂.next ⟨.start hstarting (by rw [hbatch]; decide), rfl⟩
  have h₄ := h₃.next ⟨.loadRunning rfl, rfl⟩
  have h₅ := h₄.next ⟨.monitorExit rfl, rfl⟩
  have h₆ := h₅.next ⟨.joinMonitor rfl rfl, rfl⟩
  have h₇ := h₆.next ⟨.joinCust rfl rfl, rfl⟩
  refine ⟨_, h₇, by rw [hbatch]; decide, rfl, ?_⟩
  change ¬ s.accepted <+: s.written
  rw [haccepted, hwritten, List.prefix_nil]
  decide

end Logger

end NebulaToolkit
