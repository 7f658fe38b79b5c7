import NebulaToolkit.Lib.Mutex
import NebulaToolkit.RingFifo
/-!
# The ring buffer under its mutex

Every method of `containers::RingBuffer` begins with
`std::lock_guard<std::mutex> lock(mutex_)`. Here its body is taken apart: the
checks, each `memcpy` and each assignment to an index or to the length is a step
of its own, and any number of threads call. `runs_alone` says that a body that
nobody interrupts is the call of `RingBuffer`, and `calls_linearize` that under
the mutex nobody can tell the two apart.
-/

namespace NebulaToolkit.RingBuffer

open Lib

inductive Call where
  | write (writePtr : List UInt8)
  | read (bytesToRead : Nat)
  | peek (bytesToRead : Nat)
  | clear
  | commitWriteSize (writeSize : Nat)
  | commitReadSize (readSize : Nat)
  | getLinearWriteSpace
  | getLinearReadSpace

/-- What a call returns, with the bytes it copied out. -/
inductive Answer where
  | out (out : Out)
  | window (start size : Nat)

/-- The call in one step. -/
def Call.run (rb : RingBuffer) : Call → Answer × RingBuffer
  | .write p => (.out (.size (rb.write p).1 []), (rb.write p).2)
  | .read n => (.out (.size (rb.read n).1.1 (rb.read n).1.2), (rb.read n).2)
  | .peek n => (.out (.size (rb.peek [] n).1.1 (rb.peek [] n).1.2), (rb.peek [] n).2)
  | .clear => (.out (.bool rb.clear.1), rb.clear.2)
  | .commitWriteSize n => (.out (.result (rb.commitWriteSize n).1 []), (rb.commitWriteSize n).2)
  | .commitReadSize n => (.out (.result (rb.commitReadSize n).1 []), (rb.commitReadSize n).2)
  | .getLinearWriteSpace => (.window rb.getLinearWriteSpace.1 rb.getLinearWriteSpace.2, rb)
  | .getLinearReadSpace => (.window rb.getLinearReadSpace.1 rb.getLinearReadSpace.2, rb)

/-! ## The bodies -/

/-- The next statement of a body, with its local variables. -/
inductive Place where
  | entry (call : Call)
  /-- `Write`: the two `memcpy`s. -/
  | copyIn (writePtr : List UInt8) (firstChunk : Nat)
  | copyInRest (writePtr : List UInt8) (firstChunk : Nat)
  /-- `write_index_ = ...`, then `length_ += ...`, then the return. -/
  | advanceWrite (n : Nat) (answer : Answer)
  | addLength (n : Nat) (answer : Answer)
  /-- `Read` and `Peek`: the two `memcpy`s. -/
  | copyOut (n firstChunk : Nat) (consume : Bool)
  | copyOutRest (n firstChunk : Nat) (consume : Bool) (bytes : List UInt8)
  /-- `read_index_ = ...`, then `length_ -= ...`, then the return. -/
  | advanceRead (n : Nat) (answer : Answer)
  | subLength (n : Nat) (answer : Answer)
  /-- `Clear` behind `read_index_ = 0`. -/
  | clearWriteIndex
  | clearLength
  | ret (answer : Answer)

/-- What follows the bytes of `Read` or `Peek`. -/
def copied (n : Nat) (consume : Bool) (bytes : List UInt8) : Place :=
  if consume then .advanceRead n (.out (.size n bytes)) else .ret (.out (.size n bytes))

/-- The statements up to the first `memcpy` or assignment. -/
def enter (rb : RingBuffer) : Call → (Place ⊕ Answer) × RingBuffer
  | .write p =>
    if p.length = 0 then (.inr (.out (.size Result.kErrorEmpty.toSize [])), rb)
    else if p.length > rb.availableToWrite then (.inr (.out (.size Result.kErrorFull.toSize [])), rb)
    else (.inl (.copyIn p (min p.length (subSz rb.capacity rb.writeIndex))), rb)
  | .read n =>
    if n = 0 then (.inr (.out (.size Result.kErrorEmpty.toSize [])), rb)
    else if n > rb.availableToRead then (.inr (.out (.size Result.kErrorFull.toSize [])), rb)
    else (.inl (.copyOut n (min n (subSz rb.capacity rb.readIndex)) true), rb)
  | .peek n =>
    if n = 0 then (.inr (.out (.size 0 [])), rb)
    else if n > rb.availableToRead then (.inr (.out (.size (2 ^ 64 - 1) [])), rb)
    else (.inl (.copyOut n (min n (subSz rb.capacity rb.readIndex)) false), rb)
  | .clear => (.inl .clearWriteIndex, { rb with readIndex := 0 })
  | .commitWriteSize n =>
    if n > rb.availableToWrite then (.inr (.out (.result .kErrorInvalidSize [])), rb) else
      (.inl (.advanceWrite n (.out (.result .kSuccess []))), rb)
  | .commitReadSize n =>
    if n > rb.availableToRead then (.inr (.out (.result .kErrorInvalidSize [])), rb) else
      (.inl (.advanceRead n (.out (.result .kSuccess []))), rb)
  | .getLinearWriteSpace => (.inr (.window rb.getLinearWriteSpace.1 rb.getLinearWriteSpace.2), rb)
  | .getLinearReadSpace => (.inr (.window rb.getLinearReadSpace.1 rb.getLinearReadSpace.2), rb)

/-- One statement. -/
def micro : Place → RingBuffer → (Place ⊕ Answer) × RingBuffer
  | .entry c, rb => rb.enter c
  | .copyIn p k, rb =>
    (.inl (if p.length > k then .copyInRest p k else .advanceWrite p.length (.out (.size p.length []))),
    rb.store rb.writeIndex (slice p 0 k))
  | .copyInRest p k, rb =>
    (.inl (.advanceWrite p.length (.out (.size p.length []))), rb.store 0 (slice p k (p.length - k)))
  | .advanceWrite n a, rb =>
    (.inl (.addLength n a), { rb with writeIndex := addSz rb.writeIndex n % rb.capacity })
  | .addLength n a, rb => (.inr a, { rb with length := addSz rb.length n })
  | .copyOut n k consume, rb =>
    (.inl (if n > k then .copyOutRest n k consume (rb.load rb.readIndex k) else copied n consume
      (rb.load rb.readIndex k)), rb)
  | .copyOutRest n k consume bytes, rb => (.inl (copied n consume (bytes ++ rb.load 0 (n - k))), rb)
  | .advanceRead n a, rb =>
    (.inl (.subLength n a), { rb with readIndex := addSz rb.readIndex n % rb.capacity })
  | .subLength n a, rb => (.inr a, { rb with length := subSz rb.length n })
  | .clearWriteIndex, rb => (.inl .clearLength, { rb with writeIndex := 0 })
  | .clearLength, rb => (.inr (.out (.bool true)), { rb with length := 0 })
  | .ret a, rb => (.inr a, rb)

/-- The methods of the class. -/
def body : Mutex.Body RingBuffer Call Place Answer where
  enter := .entry
  micro := micro

/-! ## A body that nobody interrupts -/

section
variable {rb rb' : RingBuffer} {n k : Nat} {p bytes : List UInt8} {consume : Bool} {a o : Answer}

@[simp] theorem finishes_ret : body.Finishes (.ret a) rb o rb' ↔ (o, rb') = (a, rb) := body.finishes_ret rfl

@[simp] theorem finishes_addLength :
    body.Finishes (.addLength n a) rb o rb' ↔ (o, rb') = (a, { rb with length := addSz rb.length n }) :=
      body.finishes_ret rfl

@[simp] theorem finishes_subLength :
    body.Finishes (.subLength n a) rb o rb' ↔ (o, rb') = (a, { rb with length := subSz rb.length n }) :=
      body.finishes_ret rfl

@[simp] theorem finishes_advanceWrite : body.Finishes (.advanceWrite n a) rb o rb' ↔
    (o, rb') = (a,
      { rb with writeIndex := addSz rb.writeIndex n % rb.capacity, length := addSz rb.length n }) :=
  (body.finishes_next rfl).trans finishes_addLength

@[simp] theorem finishes_advanceRead : body.Finishes (.advanceRead n a) rb o rb' ↔
    (o, rb') = (a,
      { rb with readIndex := addSz rb.readIndex n % rb.capacity, length := subSz rb.length n }) :=
  (body.finishes_next rfl).trans finishes_subLength

@[simp] theorem finishes_copied : body.Finishes (copied n consume bytes) rb o rb' ↔
    (o, rb') = (.out (.size n bytes), if consume then
      { rb with readIndex := addSz rb.readIndex n % rb.capacity, length := subSz rb.length n } else rb) := by
  cases consume <;> simp [copied]

/-- The two `memcpy`s into the ring, whether or not the second is needed. -/
theorem finishes_copyIn :
    body.Finishes (.copyIn p (min p.length (subSz rb.capacity rb.writeIndex))) rb o rb' ↔
    body.Finishes (.advanceWrite p.length (.out (.size p.length []))) (rb.copyIn p) o rb' := by
  refine (body.finishes_next rfl).trans ?_
  unfold copyIn
  dsimp only
  split
  · exact body.finishes_next rfl
  · exact Iff.rfl

/-- The two `memcpy`s out of it. -/
theorem finishes_copyOut :
    body.Finishes (.copyOut n (min n (subSz rb.capacity rb.readIndex)) consume) rb o rb' ↔
    body.Finishes (copied n consume (rb.copyOut n)) rb o rb' := by
  refine (body.finishes_next rfl).trans ?_
  unfold copyOut
  dsimp only
  split
  · exact body.finishes_next rfl
  · rw [List.append_nil]

@[simp] theorem capacity_copyIn (rb : RingBuffer) (p : List UInt8) :
    (rb.copyIn p).capacity = rb.capacity := by
  unfold copyIn
  dsimp only
  split <;> simp only [capacity_store]

@[simp] theorem indices_copyIn (rb : RingBuffer) (p : List UInt8) :
    (rb.copyIn p).writeIndex = rb.writeIndex ∧ (rb.copyIn p).length = rb.length := by
  unfold copyIn
  dsimp only
  split <;> exact ⟨rfl, rfl⟩

/-- From its entry to its return a body does what the call does. -/
theorem runs_alone (c : Call) : body.Finishes (.entry c) rb o rb' ↔ (o, rb') = c.run rb := by
  cases c with
  | write p =>
    simp only [Call.run, write]
    split
    · rename_i h0
      exact body.finishes_ret (if_pos h0)
    rename_i h0
    split
    · rename_i hfull
      exact body.finishes_ret ((if_neg h0).trans (if_pos hfull))
    · rename_i hfull
      have hnext : body.micro (.entry (.write p)) rb =
        (.inl (.copyIn p (min p.length (subSz rb.capacity rb.writeIndex))), rb) :=
        (if_neg h0).trans (if_neg hfull)
      refine (body.finishes_next hnext).trans ?_
      rw [finishes_copyIn, finishes_advanceWrite, capacity_copyIn, (indices_copyIn rb p).1,
        (indices_copyIn rb p).2]
  | read n =>
    simp only [Call.run, read]
    split
    · rename_i h0
      exact body.finishes_ret (if_pos h0)
    rename_i h0
    split
    · rename_i hfull
      exact body.finishes_ret ((if_neg h0).trans (if_pos hfull))
    · rename_i hfull
      have hnext : body.micro (.entry (.read n)) rb =
        (.inl (.copyOut n (min n (subSz rb.capacity rb.readIndex)) true), rb) :=
        (if_neg h0).trans (if_neg hfull)
      refine (body.finishes_next hnext).trans ?_
      rw [finishes_copyOut, finishes_copied, if_pos rfl]
  | peek n =>
    simp only [Call.run, peek]
    split
    · rename_i h0
      exact body.finishes_ret (if_pos h0)
    rename_i h0
    split
    · rename_i hfull
      exact body.finishes_ret ((if_neg h0).trans (if_pos hfull))
    · rename_i hfull
      have hnext : body.micro (.entry (.peek n)) rb =
        (.inl (.copyOut n (min n (subSz rb.capacity rb.readIndex)) false), rb) :=
        (if_neg h0).trans (if_neg hfull)
      refine (body.finishes_next hnext).trans ?_
      rw [finishes_copyOut, finishes_copied, if_neg Bool.false_ne_true]
  | clear => exact (body.finishes_next rfl).trans ((body.finishes_next rfl).trans (body.finishes_ret rfl))
  | commitWriteSize n =>
    simp only [Call.run, commitWriteSize]
    split
    · rename_i hfull
      exact body.finishes_ret (if_pos hfull)
    · rename_i hfull
      have hnext : body.micro (.entry (.commitWriteSize n)) rb =
        (.inl (.advanceWrite n (.out (.result .kSuccess []))), rb) := if_neg hfull
      exact (body.finishes_next hnext).trans finishes_advanceWrite
  | commitReadSize n =>
    simp only [Call.run, commitReadSize]
    split
    · rename_i hfull
      exact body.finishes_ret (if_pos hfull)
    · rename_i hfull
      have hnext : body.micro (.entry (.commitReadSize n)) rb =
        (.inl (.advanceRead n (.out (.result .kSuccess []))), rb) := if_neg hfull
      exact (body.finishes_next hnext).trans finishes_advanceRead
  | getLinearWriteSpace => exact body.finishes_ret rfl
  | getLinearReadSpace => exact body.finishes_ret rfl

end

/-- How many statements follow, at most. -/
def Place.rank : Place → Nat
  | .entry _ => 5
  | .copyIn .. | .copyOut .. => 4
  | .copyInRest .. | .copyOutRest .. => 3
  | .advanceWrite .. | .advanceRead .. | .clearWriteIndex => 2
  | .addLength .. | .subLength .. | .clearLength | .ret _ => 1

theorem rank_copied (n : Nat) (consume : Bool) (bytes : List UInt8) : (copied n consume bytes).rank ≤ 2 := by
  cases consume
  · exact Nat.le_succ 1
  · exact Nat.le_refl 2

theorem micro_rank (p : Place) (rb : RingBuffer) (p' : Place) (rb' : RingBuffer)
    (h : body.micro p rb = (.inl p', rb')) :
    p'.rank < p.rank := by
  cases p with
  | entry c =>
    cases c <;> simp only [body, micro, enter] at h <;> (try split at h) <;> (try split at h) <;> cases h <;>
      simp only [Place.rank] <;> decide
  | copyIn p k =>
    cases h
    split <;> simp only [Place.rank] <;> decide
  | copyOut n k consume =>
    cases h
    split
    · simp only [Place.rank]
      decide
    · exact Nat.lt_of_le_of_lt (rank_copied ..) (by simp only [Place.rank]; decide)
  | copyOutRest n k consume bytes =>
    cases h
    exact Nat.lt_of_le_of_lt (rank_copied ..) (by simp only [Place.rank]; decide)
  | copyInRest | advanceWrite | advanceRead | clearWriteIndex =>
    cases h
    simp only [Place.rank]
    decide
  | addLength | subLength | clearLength | ret => cases h

/-! ## The queue -/

/-- What a call may answer on a ring of capacity `c` that holds `q`, and what the ring
holds then. `CommitWriteSize` takes over what is in its cells, whoever put it there. -/
def Call.Spec (c : Nat) (q : List UInt8) : Call → Answer → List UInt8 → Prop
  | .write p, a, q' => ∃ o, a = .out o ∧ RingBuffer.Spec c q (.write p) o q'
  | .read n, a, q' => ∃ o, a = .out o ∧ RingBuffer.Spec c q (.read n) o q'
  | .peek n, a, q' => ∃ o, a = .out o ∧ RingBuffer.Spec c q (.peek n) o q'
  | .clear, a, q' => ∃ o, a = .out o ∧ RingBuffer.Spec c q .clear o q'
  | .commitReadSize n, a, q' => ∃ o, a = .out o ∧ RingBuffer.Spec c q (.commitReadSize n) o q'
  | .commitWriteSize n, a, q' =>
    if n ≤ c - q.length then a = .out (.result .kSuccess []) ∧ ∃ xs, xs.length = n ∧ q' = q ++ xs
    else a = .out (.result .kErrorInvalidSize []) ∧ q' = q
  | .getLinearWriteSpace, a, q' =>
    q' = q ∧ ∃ start m, a = .window start m ∧ m ≤ c - q.length ∧ (m = 0 ↔ q.length = c)
  | .getLinearReadSpace, a, q' =>
    q' = q ∧ ∃ start m, a = .window start m ∧ m ≤ q.length ∧ (m = 0 ↔ q = [])

theorem run_refines {c : Nat} (rb : RingBuffer) (q : List UInt8) (call : Call) (h : Holds c rb q) :
    ∃ q', Call.Spec c q call (call.run rb).1 q' ∧ Holds c (call.run rb).2 q' := by
  obtain ⟨hi, rfl, rfl⟩ := h
  have hl := hi.length_le
  cases call with
  | write p =>
    obtain ⟨q', hs, hh⟩ := step_refines rb rb.content (.write p) ⟨hi, rfl, rfl⟩
    exact ⟨q', ⟨_, rfl, hs⟩, hh⟩
  | read n =>
    obtain ⟨q', hs, hh⟩ := step_refines rb rb.content (.read n) ⟨hi, rfl, rfl⟩
    exact ⟨q', ⟨_, rfl, hs⟩, hh⟩
  | peek n =>
    obtain ⟨q', hs, hh⟩ := step_refines rb rb.content (.peek n) ⟨hi, rfl, rfl⟩
    exact ⟨q', ⟨_, rfl, hs⟩, hh⟩
  | clear =>
    obtain ⟨q', hs, hh⟩ := step_refines rb rb.content .clear ⟨hi, rfl, rfl⟩
    exact ⟨q', ⟨_, rfl, hs⟩, hh⟩
  | commitReadSize n =>
    obtain ⟨q', hs, hh⟩ := step_refines rb rb.content (.commitReadSize n) ⟨hi, rfl, rfl⟩
    exact ⟨q', ⟨_, rfl, hs⟩, hh⟩
  | commitWriteSize n =>
    simp only [Call.run, Call.Spec, commitWriteSize_eq hi, content_length]
    by_cases hn : rb.length + n ≤ rb.capacity
    · have hfree : n ≤ rb.capacity - rb.length := by omega
      have hcont : (rb.growBack n).content = rb.content ++ cyc rb.buffer (rb.readIndex + rb.length) n :=
        cyc_add ..
      simp only [if_pos hn, if_pos hfree]
      exact ⟨_, ⟨trivial, _, cyc_length .., hcont⟩, hi.growBack hn, rfl, rfl⟩
    · have hfull : ¬ n ≤ rb.capacity - rb.length := by omega
      simp only [if_neg hn, if_neg hfull]
      exact ⟨rb.content, ⟨trivial, rfl⟩, hi, rfl, rfl⟩
  | getLinearWriteSpace =>
    refine ⟨rb.content, ⟨rfl, _, _, rfl, ?_, ?_⟩, hi, rfl, rfl⟩
    · rw [getLinearWriteSpace_eq hi, content_length]
      exact Nat.min_le_left _ _
    · have hlt := hi.write_lt
      rw [getLinearWriteSpace_eq hi, content_length]
      dsimp only
      omega
  | getLinearReadSpace =>
    have hlt := hi.read_lt
    have hw : rb.getLinearReadSpace.2 = min rb.length (rb.capacity - rb.readIndex) := by
      rw [getLinearReadSpace, hi.toEnd_read]
      rfl
    refine ⟨rb.content, ⟨rfl, _, _, rfl, ?_, ?_⟩, hi, rfl, rfl⟩
    · rw [hw, content_length]
      exact Nat.min_le_left _ _
    · rw [hw, ← List.length_eq_zero_iff, content_length]
      omega

/-! ## Any number of threads -/

/-- A new ring of capacity `c` that nobody calls. -/
def Unused {ι : Type} (c : Nat) (hc : c ≤ maxSize) (s : Mutex.State ι RingBuffer Call Place Answer) : Prop :=
  Mutex.Start (ofSize c hc) s

/-- However the statements of the calls interleave, the answers are those the calls give one
behind the other in the order in which they released the mutex, which are those of a
bounded queue; a call stands there behind all that were over when it was made; a
thread gets the answer that stands there; and who holds the mutex releases it. -/
theorem calls_linearize {ι : Type} [DecidableEq ι] (c : Nat) (h0 : 0 < c) (hc : c ≤ maxSize)
    (s : Mutex.State ι RingBuffer Call Place Answer) (h : Reachable (Unused c hc) (Mutex.Step body) s) :
    let run := runOut Call.run (ofSize c hc) s.calls
    s.outs = run.1 ∧ (s.holder = none → s.object = run.2) ∧
      (Trace (Call.Spec c) [] s.calls s.outs run.2.content ∧ run.2.Inv ∧ run.2.capacity = c) ∧
      (∀ (j : Nat) (e : Mutex.Entry ι Call Answer), s.log[j]? = some e → e.since ≤ j) ∧
      (∀ i k o, s.thread i = .left k o → ∃ e ∈ s.log, e.thread = i ∧ e.call = k ∧ e.out = o) ∧
      ∀ i, s.holder = some i →
      ∃ k n p, s.thread i = .inside k n p ∧ ∃ o rb', body.Finishes p s.object o rb' := by
  intro run
  have hi := Mutex.linearizable (fun rb k o rb' => (o, rb') = Call.run rb k) Eq (ofSize c hc) rfl
    (fun rb t k o rb' hsim hfin => ⟨rb', hsim ▸ (runs_alone k).1 hfin, rfl⟩) h
  obtain ⟨base, t, hserial⟩ := hi.serial
  obtain rfl := hserial.sim_base
  have hrun : (s.outs, base) = run := hserial.trace.eq_runOut
  obtain ⟨q, htrace, hinv, hcap, hq⟩ := runOut_refines run_refines s.calls (ofSize c hc) []
    ⟨ofSize_inv _ h0, ofSize_capacity _, ofSize_content _⟩
  refine ⟨congrArg Prod.fst hrun, fun hfree => ?_, ⟨?_, hinv, hcap⟩, hi.inOrder, hi.told, fun i hholder => ?_⟩
  · rw [hserial.free hfree]
    exact congrArg Prod.snd hrun
  · have houts : s.outs = run.1 := congrArg Prod.fst hrun
    rw [houts, hq]
    exact htrace
  · obtain ⟨k, n, p, hp, -⟩ := hserial.held i hholder
    exact ⟨k, n, p, hp, body.finishes_of_rank Place.rank micro_rank p s.object⟩

theorem five_le_maxSize : 5 ≤ maxSize := by decide

/-- The theorem for a `Read` that is called while a `Write` holds the mutex. -/
theorem calls_linearize_two : ∃ s : Mutex.State Bool RingBuffer Call Place Answer,
    Reachable (Unused 5 five_le_maxSize) (Mutex.Step body) s ∧ s.calls = [.write [7], .read 1] ∧
      s.outs = [.out (.size 1 []), .out (.size 1 [7])] ∧ s.object.content = [] ∧
      ∀ (j : Nat) (e : Mutex.Entry Bool Call Answer), s.log[j]? = some e → e.since ≤ j := by
  have h₀ : Reachable (Unused 5 five_le_maxSize) (Mutex.Step body)
    ({ object := ofSize 5 five_le_maxSize } : Mutex.State Bool RingBuffer Call Place Answer) := .start rfl
  have h₁ := h₀.next (.call true (.write [7]) rfl)
  have h₂ := h₁.next (.acquire (i := true) rfl rfl)
  have h₃ := h₂.next (@Mutex.Step.micro _ _ _ _ _ _ body _ true _ _ _ (.copyIn [7] 1) _ rfl rfl)
  have h₄ := h₃.next (.call false (.read 1) rfl)
  have h₅ := h₄.next
    (@Mutex.Step.micro _ _ _ _ _ _ body _ true _ _ _ (.advanceWrite 1 (.out (.size 1 []))) _ rfl rfl)
  have h₆ := h₅.next
    (@Mutex.Step.micro _ _ _ _ _ _ body _ true _ _ _ (.addLength 1 (.out (.size 1 []))) _ rfl rfl)
  have h₇ := h₆.next (.release (i := true) (o := .out (.size 1 [])) rfl rfl)
  have h₈ := h₇.next (.acquire (i := false) rfl rfl)
  have h₉ := h₈.next (@Mutex.Step.micro _ _ _ _ _ _ body _ false _ _ _ (.copyOut 1 1 true) _ rfl rfl)
  have h₁₀ := h₉.next
    (@Mutex.Step.micro _ _ _ _ _ _ body _ false _ _ _ (.advanceRead 1 (.out (.size 1 [7]))) _ rfl rfl)
  have h₁₁ := h₁₀.next
    (@Mutex.Step.micro _ _ _ _ _ _ body _ false _ _ _ (.subLength 1 (.out (.size 1 [7]))) _ rfl rfl)
  have h₁₂ := h₁₁.next (.release (i := false) (o := .out (.size 1 [7])) rfl rfl)
  have hlin := calls_linearize 5 (by decide) five_le_maxSize _ h₁₂
  exact ⟨_, h₁₂, rfl, rfl, rfl, hlin.2.2.2.1⟩

end NebulaToolkit.RingBuffer
