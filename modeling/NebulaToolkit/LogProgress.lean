import NebulaToolkit.Lib.Progress
import NebulaToolkit.LogFile
/-!
# When the records reach the file

`CustThreadProc` goes round as long as its flag is set, whatever is logged
meanwhile. Each iteration takes the oldest bytes of the ring, a batch at
most: so iterations can be counted, and with them the bytes that are in the
file by then. With the flag cleared there is one iteration left at most, and
`~Logger` comes to its end.
-/

namespace NebulaToolkit

open Lib

namespace Logger

variable {ι : Type} {b : Nat} {s s' s'' : State ι}

theorem Steady.content_length (h : Steady b s) :
    s.accepted.length = s.written.length + s.ringBuffer.content.length := by
  rw [h.copied.accepted_eq, List.length_append]

/-- A file that holds so many of the accepted bytes holds the oldest of them. -/
theorem Steady.take_prefix (h : Steady b s) {xs : List UInt8} (hx : xs <+: s.accepted) {n : Nat}
    (hn : min n xs.length ≤ s.written.length) : xs.take n <+: s.written := by
  refine List.prefix_of_prefix_length_le ((List.take_prefix n xs).trans hx) h.copied.starts_accepted ?_
  rwa [List.length_take]

/-- `CustThreadProc` comes to the end of an iteration. -/
def Finishes (s s' : State ι) : Prop :=
  ∃ readBuffer readBuffer', s.consumer = .body readBuffer ∧ s'.consumer = .head readBuffer'

/-- `~Logger` has passed its first statement. -/
def Destructor.begun : Destructor → Bool
  | .notBegun => false
  | .monitorStopped | .custStopped | .monitorJoined | .custJoined => true

/-- The monitor's flag is cleared by the destructor and never set again. -/
def MonitorTold (s : State ι) : Prop := s.destructor.begun = true → s.monitorRunning = false

/-- The batch of an iteration that has begun. -/
def State.lastBatch (s : State ι) : List UInt8 :=
  match s.consumer with
  | .body _ => s.ringBuffer.content.take s.config.logAsync.batchSizeKb
  | .starting | .head _ | .done => []

theorem lastBatch_of_body {readBuffer : List UInt8} (h : s.consumer = .body readBuffer) :
    s.lastBatch = s.ringBuffer.content.take s.config.logAsync.batchSizeKb := by
  unfold State.lastBatch
  rw [h]

theorem lastBatch_nil (h : ∀ readBuffer, s.consumer ≠ .body readBuffer) : s.lastBatch = [] := by
  unfold State.lastBatch
  split
  · next readBuffer hb => exact absurd hb (h readBuffer)
  all_goals rfl

variable [DecidableEq ι]

/-! ## Iterations -/

/-- A step with `batch_size_kb` at `b`. -/
def Under (b : Nat) (s s' : State ι) : Prop := Step s s' ∧ s'.config.logAsync.batchSizeKb = b

/-- A run in which `CustThreadProc` comes to the end of an iteration `n` times, or more often. -/
inductive After (b : Nat) : Nat → State ι → State ι → Prop
  | refl (s : State ι) : After b 0 s s
  | step {n : Nat} {s s' s'' : State ι} : After b n s s' → Under b s' s'' → After b n s s''
  | finish {n : Nat} {s s' s'' : State ι} : After b n s s' → Under b s' s'' → Finishes s' s'' →
      After b (n + 1) s s''

theorem under_steady (h : Steady b s) (hs : Under b s s') : Steady b s' := step_steady h hs.1 hs.2

/-- Bytes are only ever added, to the records and to the file. -/
theorem step_grows (h : Steady b s) (hs : Step s s') :
    s.accepted <+: s'.accepted ∧ s.written <+: s'.written := by
  cases hs with
  | @log i c time hc hlen =>
    obtain ⟨ring, xs, -, -, he⟩ := log_spec (i := i) h.copied.ring hlen
    rw [he]
    exact ⟨List.prefix_append _ _, List.prefix_rfl⟩
  | @consume readBuffer beyond hb h0 hlen =>
    obtain ⟨ring, readBuffer', -, -, -, he⟩ := consume_spec h.copied.ring beyond (h.fits hb)
    rw [he]
    exact ⟨List.prefix_rfl, List.prefix_append _ _⟩
  | reload | monitorExit | shouldLog | start | loadRunning | timeout | stopMonitor | stopCust | joinMonitor
      | joinCust =>
    exact ⟨List.prefix_rfl, List.prefix_rfl⟩

/-- The end of an iteration: a batch is in the file, or all there is. -/
theorem finish_writes (h : Steady b s) (hs : Step s s') (hf : Finishes s s') :
    s'.accepted = s.accepted ∧ s'.written = s.written ++ s.ringBuffer.content.take b := by
  obtain ⟨r, r', hbody, hhead⟩ := hf
  cases hs with
  | @log i c time hc hlen =>
    obtain ⟨ring, xs, -, -, he⟩ := log_spec (i := i) h.copied.ring hlen
    rw [he] at hhead
    exact absurd (hbody.symm.trans hhead) (by simp)
  | @consume readBuffer beyond hb h0 hlen =>
    obtain ⟨ring, readBuffer', -, -, -, he⟩ := consume_spec h.copied.ring beyond (h.fits hb)
    rw [he]
    refine ⟨rfl, ?_⟩
    change s.written ++ s.ringBuffer.content.take (min s.ringBuffer.length s.config.logAsync.batchSizeKb) = _
    rw [List.append_cancel_left_eq, List.take_eq_take_iff, h.batch, RingBuffer.content_length]
    omega
  | @timeout readBuffer hc h0 =>
    have hempty : s.ringBuffer.content = [] :=
      List.eq_nil_of_length_eq_zero (by rw [RingBuffer.content_length, h0])
    exact ⟨rfl, by rw [hempty, List.take_nil, List.append_nil]⟩
  | start hc hsize => exact absurd (hbody.symm.trans hc) (by simp)
  | loadRunning hc => exact absurd (hbody.symm.trans hc) (by simp)
  | reload | monitorExit | shouldLog | stopMonitor | stopCust | joinMonitor | joinCust =>
    exact absurd (hbody.symm.trans hhead) (by simp)

/-- So many iterations on, so many batches of what was accepted before are in the file. -/
theorem After.writes {n : Nat} (h : Steady b s) (ha : After b n s s') :
    Steady b s' ∧ s.accepted <+: s'.accepted ∧
      min (s.written.length + n * b) s.accepted.length ≤ s'.written.length := by
  induction ha with
  | refl s => exact ⟨h, List.prefix_rfl, by omega⟩
  | @step n s s' s'' _ hs ih =>
    obtain ⟨hi, hacc, hlen⟩ := ih h
    obtain ⟨hacc', hwritten⟩ := step_grows hi hs.1
    exact ⟨under_steady hi hs, hacc.trans hacc', hlen.trans hwritten.length_le⟩
  | @finish n s s' s'' _ hs hf ih =>
    obtain ⟨hi, hacc, hlen⟩ := ih h
    obtain ⟨hsame, hwritten⟩ := finish_writes hi hs.1 hf
    refine ⟨under_steady hi hs, hsame ▸ hacc, ?_⟩
    have hle := hacc.length_le
    rw [hi.content_length] at hle
    rw [hwritten, List.length_append, List.length_take, Nat.succ_mul]
    omega

omit [DecidableEq ι] in
theorem not_done (h : s.consumer ≠ .done) :
    s.consumer = .starting ∨ (∃ readBuffer, s.consumer = .head readBuffer) ∨
      ∃ readBuffer, s.consumer = .body readBuffer := by
  cases hc : s.consumer with
  | starting => exact .inl rfl
  | head readBuffer => exact .inr (.inl ⟨_, rfl⟩)
  | body readBuffer => exact .inr (.inr ⟨_, rfl⟩)
  | done => exact absurd hc h

/-- An iteration that has begun can be finished. -/
theorem body_finishes (h : Steady b s) {readBuffer : List UInt8} (hb : s.consumer = .body readBuffer) :
    ∃ s', Under b s s' ∧ Finishes s s' ∧ s'.call = s.call ∧ s'.config = s.config := by
  by_cases h0 : s.ringBuffer.length = 0
  · exact ⟨_, ⟨.timeout hb h0, h.batch⟩, ⟨_, _, hb, rfl⟩, rfl, rfl⟩
  · have hs := Step.consume
      (List.replicate (min s.ringBuffer.availableToRead s.config.logAsync.batchSizeKb - readBuffer.length) 0)
      hb h0 List.length_replicate
    obtain ⟨ring, readBuffer', -, -, -, he⟩ := consume_spec h.copied.ring
      (List.replicate (min s.ringBuffer.availableToRead s.config.logAsync.batchSizeKb - readBuffer.length) 0)
        (h.fits hb)
    rw [he] at hs
    exact ⟨_, ⟨hs, h.batch⟩, ⟨_, _, hb, rfl⟩, rfl, rfl⟩

/-- Until it has returned, `CustThreadProc` waits for no other thread. -/
theorem consumer_moves (h : Steady b s) (hb : b ≤ maxSize) (hd : s.consumer ≠ .done) :
    ∃ s', Under b s s' ∧ s'.consumer ≠ s.consumer ∧ s'.call = s.call ∧ s'.config = s.config := by
  rcases not_done hd with hc | ⟨readBuffer, hc⟩ | ⟨readBuffer, hc⟩
  · refine ⟨_, ⟨.start hc (by rwa [h.batch]), h.batch⟩, ?_, rfl, rfl⟩
    rw [hc]
    simp
  · refine ⟨_, ⟨.loadRunning hc, h.batch⟩, ?_, rfl, rfl⟩
    rw [hc]
    cases s.custRunning <;> simp
  · obtain ⟨s', hs, ⟨_, _, _, hhead⟩, hcall, hconfig⟩ := body_finishes h hc
    refine ⟨s', hs, ?_, hcall, hconfig⟩
    rw [hc, hhead]
    simp

/-! ## The destructor -/

/-- A step of the two threads or of `~Logger`, with no calls and no edits of the file. -/
def Ends (s s' : State ι) : Prop := Step s s' ∧ s'.call = s.call ∧ s'.config = s.config ∧ s' ≠ s

/-- How many statements `CustThreadProc` has left once its flag is cleared. -/
def Consumer.toDo : Consumer → Nat
  | .starting | .body _ => 2
  | .head _ => 1
  | .done => 0

/-- How many statements `~Logger` has left. -/
def Destructor.toDo : Destructor → Nat
  | .notBegun => 4
  | .monitorStopped => 3
  | .custStopped => 2
  | .monitorJoined => 1
  | .custJoined => 0

/-- The most steps the threads and `~Logger` have left once both flags are cleared. -/
def State.toDo (s : State ι) : Nat := s.consumer.toDo + s.destructor.toDo + if s.monitorDone then 0 else 1

theorem step_monitorTold (h : Steady b s) (hm : MonitorTold s) (hs : Step s s') : MonitorTold s' := by
  cases hs with
  | @log i c time hc hlen =>
    obtain ⟨ring, xs, -, -, he⟩ := log_spec (i := i) h.copied.ring hlen
    rw [he]
    exact hm
  | @consume readBuffer beyond hb h0 hlen =>
    obtain ⟨ring, readBuffer', -, -, -, he⟩ := consume_spec h.copied.ring beyond (h.fits hb)
    rw [he]
    exact hm
  | stopMonitor hd => exact fun _ => rfl
  | stopCust hd | joinMonitor hd | joinCust hd => exact fun _ => hm (by rw [hd]; rfl)
  | reload | monitorExit | shouldLog | start | loadRunning | timeout => exact hm

/-- What holds while the logger goes, with the flag of `CustThreadProc` cleared: `file` is what
will be written in the end. -/
structure Going (b : Nat) (file : List UInt8) (s : State ι) : Prop where
  steady : Steady b s
  told : MonitorTold s
  stopped : s.custRunning = false
  file_eq : s.written ++ s.lastBatch = file

omit [DecidableEq ι] in
theorem Going.file_idle {file : List UInt8} (h : Going b file s)
    (hn : ∀ readBuffer, s.consumer ≠ .body readBuffer) :
    s.written = file := by
  have hfile := h.file_eq
  rwa [lastBatch_nil hn, List.append_nil] at hfile

omit [DecidableEq ι] in
/-- A step that leaves the consumer where it is, the ring and the file. -/
theorem Going.of_kept {file : List UInt8} (h : Going b file s) (hs : Steady b s') (ht : MonitorTold s')
    (hr : s'.custRunning = false)
    (hc : s'.consumer = s.consumer) (hring : s'.ringBuffer = s.ringBuffer) (hconfig : s'.config = s.config)
    (hw : s'.written = s.written) : Going b file s' := by
  refine ⟨hs, ht, hr, ?_⟩
  unfold State.lastBatch
  rw [hc, hring, hconfig, hw]
  exact h.file_eq

/-- Each step is one of those left, and what will be in the file stays the same. -/
theorem ends_going {file : List UInt8} (h : Going b file s) (hs : Ends s s') :
    Going b file s' ∧ s'.toDo < s.toDo := by
  obtain ⟨hstep, hcall, hconfig, hne⟩ := hs
  have hsteady : Steady b s' := step_steady h.steady hstep (by rw [hconfig, h.steady.batch])
  have htold := step_monitorTold h.steady h.told hstep
  have hrun : s.destructor.custRunning = false := h.steady.running ▸ h.stopped
  cases hstep with
  | reload file hm =>
    change updateConfig file s.config = s.config at hconfig
    rw [hconfig] at hne
    exact absurd rfl hne
  | monitorExit hm =>
    have hdone : s.monitorDone = false := by
      by_contra hdone
      exact hne (by rw [← Bool.eq_true_of_not_eq_false hdone])
    refine ⟨h.of_kept hsteady htold h.stopped rfl rfl rfl rfl, ?_⟩
    simp [State.toDo, hdone]
  | shouldLog i c hc hl =>
    have := congrFun hcall i
    rw [hc] at this
    simp at this
  | @log i c time hc hlen =>
    obtain ⟨ring, xs, -, -, he⟩ := log_spec (i := i) h.steady.copied.ring hlen
    rw [he] at hcall
    have := congrFun hcall i
    rw [hc] at this
    simp at this
  | start hc hsize =>
    refine ⟨⟨hsteady, htold, h.stopped, ?_⟩, ?_⟩
    · rw [lastBatch_nil (by simp), List.append_nil]
      exact h.file_idle (by simp [hc])
    · simp [State.toDo, hc, Consumer.toDo]
  | @loadRunning readBuffer hc =>
    refine ⟨⟨hsteady, htold, h.stopped, ?_⟩, ?_⟩
    · rw [lastBatch_nil (by simp [h.stopped]), List.append_nil]
      exact h.file_idle (by simp [hc])
    · simp [State.toDo, hc, Consumer.toDo, h.stopped]
  | @timeout readBuffer hc h0 =>
    have hempty : s.ringBuffer.content = [] :=
      List.eq_nil_of_length_eq_zero (by rw [RingBuffer.content_length, h0])
    refine ⟨⟨hsteady, htold, h.stopped, ?_⟩, ?_⟩
    · have hfile := h.file_eq
      rw [lastBatch_of_body hc, hempty, List.take_nil] at hfile
      rwa [lastBatch_nil (by simp)]
    · simp [State.toDo, hc, Consumer.toDo]
  | @consume readBuffer beyond hb h0 hlen =>
    obtain ⟨readBuffer', hhead⟩ := consume_head s readBuffer beyond
    have hwrites := (finish_writes h.steady (.consume beyond hb h0 hlen) ⟨_, _, hb, hhead⟩).2
    have hfile := h.file_eq
    rw [lastBatch_of_body hb, h.steady.batch, ← hwrites] at hfile
    obtain ⟨ring, readBuffer'', -, -, -, he⟩ := consume_spec h.steady.copied.ring beyond (h.steady.fits hb)
    refine ⟨⟨hsteady, htold, ?_, ?_⟩, ?_⟩
    · rw [he]
      exact h.stopped
    · rw [lastBatch_nil (by simp [hhead]), List.append_nil]
      exact hfile
    · rw [he]
      simp [State.toDo, hb, Consumer.toDo]
  | stopMonitor hd | stopCust hd =>
    rw [hd] at hrun
    cases hrun
  | joinMonitor hd hm =>
    refine ⟨h.of_kept hsteady htold h.stopped rfl rfl rfl rfl, ?_⟩
    simp [State.toDo, hd, Destructor.toDo]
  | joinCust hd hc =>
    refine ⟨h.of_kept hsteady htold h.stopped rfl rfl rfl rfl, ?_⟩
    simp [State.toDo, hd, Destructor.toDo]

/-- Where nothing can be done any more, `~Logger` has joined both threads. -/
theorem going_rests {file : List UInt8} (hb : b ≤ maxSize) (h : Going b file s) (hstuck : ∀ s', ¬ Ends s s') :
    s.destructor = .custJoined ∧ s.written = file := by
  have hdone : s.consumer = .done := by
    by_contra hd
    obtain ⟨s', hs, hne, hcall, hconfig⟩ := consumer_moves h.steady hb hd
    exact hstuck s' ⟨hs.1, hcall, hconfig, fun he => hne (by rw [he])⟩
  refine ⟨?_, h.file_idle (by simp [hdone])⟩
  have hrun : s.destructor.custRunning = false := h.steady.running ▸ h.stopped
  have hmoves {s' : State ι} (hs : Step s s') (hcall : s'.call = s.call)
      (hconfig : s'.config = s.config) : s' = s := by
    by_contra hne
    exact hstuck s' ⟨hs, hcall, hconfig, hne⟩
  cases hd : s.destructor with
  | notBegun | monitorStopped =>
    rw [hd] at hrun
    cases hrun
  | custStopped =>
    -- The monitor has been told, so it can exit, and be joined once it has.
    have hmonitor : s.monitorDone = true :=
      congrArg State.monitorDone (hmoves (.monitorExit (h.told (by rw [hd]; rfl))) rfl rfl).symm
    have := congrArg State.destructor (hmoves (.joinMonitor hd hmonitor) rfl rfl)
    rw [hd] at this
    cases this
  | monitorJoined =>
    have := congrArg State.destructor (hmoves (.joinCust hd hdone) rfl rfl)
    rw [hd] at this
    cases this
  | custJoined => rfl

/-! ## Runs -/

/-- After the constructor, with `batch_size_kb` at `b`. -/
def StartUnder (b : Nat) (s : State ι) : Prop := Start s ∧ s.config.logAsync.batchSizeKb = b

theorem reached_steady (hr : Reachable (StartUnder b) (Under b) s) : Steady b s ∧ MonitorTold s := by
  refine hr.inv (I := fun s => Steady b s ∧ MonitorTold s) (fun s hs => ⟨start_steady hs.1 hs.2, ?_⟩)
    fun s s' _ hi hs =>
    ⟨under_steady hi.1 hs, step_monitorTold hi.1 hi.2 hs.1⟩
  obtain ⟨⟨file, rfl⟩, -⟩ := hs
  exact fun hd => by cases hd

/-- From any state a run with `batch_size_kb` at `b` reaches: until `CustThreadProc` has returned it can
do its next statement; when it has come to the end of `n` more iterations, the oldest `n * b` of the bytes
that were accepted and not written are in the file, whatever has been logged since; and once
its flag is cleared, at most `toDo` steps are left, after which `~Logger` has joined both threads and
only the iteration that had begun was added to the file. -/
theorem records_reach_file (hb : b ≤ maxSize) (hr : Reachable (StartUnder b) (Under b) s) :
    (s.consumer ≠ .done → ∃ s', Under b s s' ∧ s'.consumer ≠ s.consumer) ∧
      (∀ n s', After b n s s' → s.accepted.take (s.written.length + n * b) <+: s'.written) ∧
      (s.custRunning = false →
        Settles Ends s s.toDo fun s' => s'.destructor = .custJoined ∧
        s'.written = s.written ++ s.lastBatch) := by
  obtain ⟨hsteady, htold⟩ := reached_steady hr
  refine ⟨fun hd => ?_, fun n s' ha => ?_, fun hstopped => ?_⟩
  · obtain ⟨s', hs, hne, -, -⟩ := consumer_moves hsteady hb hd
    exact ⟨s', hs, hne⟩
  · obtain ⟨hsteady', hacc, hlen⟩ := ha.writes hsteady
    exact hsteady'.take_prefix hacc hlen
  · exact settles_of_measure (I := Going b (s.written ++ s.lastBatch))
      (fun s s' => ends_going) ⟨hsteady, htold, hstopped, rfl⟩
      fun s' => going_rests hb

/-- The theorem for a record that is in the ring when `CustThreadProc` begins: one iteration, and it is in
the file. -/
theorem records_reach_file_sample : ∃ s s' : State Unit, Reachable (StartUnder 4096) (Under 4096) s ∧
    After 4096 1 s s' ∧
    s.written = [] ∧ s.accepted = sampleRecord ∧ sampleRecord <+: s'.written := by
  have hbatch := sample_state.2.2
  have h₀ : Reachable (StartUnder 4096) (Under 4096) sampleStart := .start ⟨⟨_, rfl⟩, hbatch⟩
  have h₁ := h₀.next ⟨.shouldLog () sampleCall rfl (by decide), hbatch⟩
  have h₂ := h₁.next ⟨sample_accepted rfl (by decide) (by decide), hbatch⟩
  have hstarting : sampleStart.withSample.consumer = .starting := rfl
  have hrunning : sampleStart.withSample.custRunning = true := rfl
  have haccepted : sampleStart.withSample.accepted = sampleRecord := rfl
  have hwritten : sampleStart.withSample.written = [] := rfl
  generalize sampleStart.withSample = s at *
  have hstart : Under 4096 s { s with consumer := .head (List.replicate s.config.logAsync.batchSizeKb 0) } :=
    ⟨.start hstarting (by rw [hbatch]; decide), hbatch⟩
  have hload := Step.loadRunning
    (s := { s with consumer := .head (List.replicate s.config.logAsync.batchSizeKb 0) }) rfl
  rw [if_pos hrunning] at hload
  have ha := (After.refl s).step hstart |>.step ⟨hload, hbatch⟩
  obtain ⟨s', hs, hf, -, -⟩ := body_finishes ((ha.writes (reached_steady h₂).1).1) rfl
  have hrecord := (records_reach_file (by decide) h₂).2.1 1 s' (ha.finish hs hf)
  rw [haccepted, hwritten, List.take_of_length_le (by rw [sampleRecord_length]; decide)] at hrecord
  exact ⟨s, s', h₂, ha.finish hs hf, hwritten, haccepted, hrecord⟩

end Logger

end NebulaToolkit
