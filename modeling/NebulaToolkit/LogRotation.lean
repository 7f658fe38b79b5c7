import Mathlib.Data.Prod.Lex
import NebulaToolkit.Lib.Segments
import NebulaToolkit.LogFile
/-!
# Rotating the log file

`FileManager` and the methods of `Logger` that choose the file a batch is
written to: a new one for a new date, the next index when the file has grown
too large. Process follows process, each with an empty `FileManager`, and all
write into one directory. Read in the order of dates and indices, are its files
the batches in the order in which they were written?
-/

namespace NebulaToolkit

open Lib

/-- `FileManager`. A date is a string that compares as the dates do; the empty string is `none`. -/
structure FileManager (Date : Type) where
  /-- The file the stream has open. -/
  file : Option (Date ×ₗ Nat) := none
  currentDate : Option Date := none
  currentIndex : Nat := 0

namespace LogRotation

variable {Date : Type} [LinearOrder Date]

/-- `OpenNewFile`: the file is named by the date and the index. -/
def openNewFile (fm : FileManager Date) : FileManager Date :=
  { fm with file := fm.currentDate.map fun date => toLex (date, fm.currentIndex) }

/-- `RotateFileIfNeeded`; `date` is what `CurrentDate` returned. -/
def rotateFileIfNeeded (fm : FileManager Date) (date : Date) (tellp maxFileSize : Nat) : FileManager Date :=
  if fm.currentDate ≠ some date then openNewFile { fm with currentDate := some date, currentIndex := 0 }
  else if tellp > maxFileSize then openNewFile { fm with currentIndex := addSz fm.currentIndex 1 }
  else fm

/-- A batch, with its number in the order of writing. -/
structure Batch where
  number : Nat
  bytes : List UInt8

structure State (Date : Type) where
  fileManager : FileManager Date := {}
  /-- The files of the directory, in the order of their dates and indices, with the batches they hold. -/
  directory : List ((Date ×ₗ Nat) × List Batch) := []
  /-- All batches, in the order in which they were written, ... -/
  written : List Batch := []
  /-- ... and the date of the last one. -/
  lastDate : Option Date := none

/-- A batch is written by `CustThreadProc`. -/
def State.writeBatch (s : State Date) (date : Date) (tellp maxFileSize : Nat) (bytes : List UInt8) :
    State Date :=
  let fm := rotateFileIfNeeded s.fileManager date tellp maxFileSize
  let batch := { number := s.written.length, bytes := bytes : Batch }
  { fileManager := fm
    directory := fm.file.elim s.directory fun file => appendTo file [batch] s.directory
    written := s.written ++ [batch]
    lastDate := some date }

inductive Step : State Date → State Date → Prop
  /-- The process ends and another one begins. -/
  | restart {s} : Step s { s with fileManager := {} }
  /-- The date never goes back. Nothing is asked of `tellp`, nor of the configured size. -/
  | write {s} (date : Date) (tellp maxFileSize : Nat)
      (bytes : List UInt8) : (∀ d ∈ s.lastDate, d ≤ date) → bytes ≠ [] →
        Step s (s.writeBatch date tellp maxFileSize bytes)

/-- An empty directory. -/
def Start (s : State Date) : Prop := s = {}

/-- The files, read one after the other, are the batches in the order in which they were written. -/
def InOrder (s : State Date) : Prop := concat s.directory = s.written

/-- There is a file with this name. -/
def State.Has (s : State Date) (file : Date ×ₗ Nat) : Prop := ∃ batches, (file, batches) ∈ s.directory

/-- A process writes its first batch of a date when files of that date have been rotated before. -/
def Resumes (s s' : State Date) : Prop :=
  ∃ date tellp maxFileSize bytes, s' = s.writeBatch date tellp maxFileSize bytes ∧
    s.fileManager.currentDate ≠ some date ∧ ∃ index, index ≠ 0 ∧ s.Has (toLex (date, index))

/-- The index runs over. -/
def Wraps (s s' : State Date) : Prop :=
  ∃ date tellp maxFileSize bytes, s' = s.writeBatch date tellp maxFileSize bytes ∧
    s.fileManager.currentDate = some date ∧ tellp > maxFileSize ∧ s.fileManager.currentIndex = 2 ^ 64 - 1

variable {s s' : State Date}

/-! ## The file a batch goes to -/

/-- The index of the file that is open after `RotateFileIfNeeded`. -/
def nextIndex (fm : FileManager Date) (date : Date) (tellp maxFileSize : Nat) : Nat :=
  if fm.currentDate ≠ some date then 0
  else if tellp > maxFileSize then addSz fm.currentIndex 1
  else fm.currentIndex

theorem rotateFileIfNeeded_eq {fm : FileManager Date} {date : Date}
    (h : fm.currentDate = some date → fm.file = some (toLex (date, fm.currentIndex)))
    (tellp maxFileSize : Nat) :
    rotateFileIfNeeded fm date tellp maxFileSize =
      { file := some (toLex (date, nextIndex fm date tellp maxFileSize))
        currentDate := some date
        currentIndex := nextIndex fm date tellp maxFileSize } := by
  unfold rotateFileIfNeeded nextIndex
  split
  · rfl
  · rename_i hdate
    have hcurrent := not_not.1 hdate
    split
    · simp [openNewFile, hcurrent]
    · rw [← h hcurrent, ← hcurrent]

/-- The state of the files, whatever happened. -/
structure Filed (s : State Date) : Prop where
  ascending : Ascending s.directory
  nonempty : ∀ a ∈ s.directory, a.2 ≠ []
  numbers : ∀ b ∈ concat s.directory, b.number < s.written.length
  current : ∀ date, s.fileManager.currentDate = some date →
    s.fileManager.file = some (toLex (date, s.fileManager.currentIndex)) ∧
      s.Has (toLex (date, s.fileManager.currentIndex)) ∧ s.lastDate = some date
  dates : ∀ a ∈ s.directory, ∃ d, s.lastDate = some d ∧ (ofLex a.1).1 ≤ d
  index_lt : s.fileManager.currentIndex < 2 ^ 64

section
variable (hf : Filed s) (date : Date) (tellp maxFileSize : Nat) (bytes : List UInt8)
include hf

theorem Filed.writeBatch_eq : s.writeBatch date tellp maxFileSize bytes =
    let index := nextIndex s.fileManager date tellp maxFileSize
    let batch := { number := s.written.length, bytes := bytes }
    { fileManager := { file := some (toLex (date, index)), currentDate := some date, currentIndex := index }
      directory := appendTo (toLex (date, index)) [batch] s.directory
      written := s.written ++ [batch]
      lastDate := some date } := by
  unfold State.writeBatch
  rw [rotateFileIfNeeded_eq fun h => (hf.current date h).1]
  rfl

theorem Filed.write (hdate : ∀ d ∈ s.lastDate, d ≤ date) :
    Filed (s.writeBatch date tellp maxFileSize bytes) := by
  rw [hf.writeBatch_eq]
  refine ⟨hf.ascending.appendTo, fun a ha => ?_, fun b hb => ?_, fun d hd => ?_, fun a ha => ?_, ?_⟩
  · rcases mem_appendTo ha with ha | ⟨-, h | ⟨ys, -, h⟩⟩
    · exact hf.nonempty a ha
    · rw [h]; exact List.cons_ne_nil _ _
    · rw [h]; exact List.append_ne_nil_of_right_ne_nil _ (List.cons_ne_nil _ _)
  · change b ∈ concat (appendTo _ _ _) at hb
    rw [concat_appendTo hf.ascending, List.mem_append, List.mem_append, List.mem_singleton] at hb
    rw [List.length_append, List.length_singleton]
    have hold (hb : b ∈ concat s.directory) : b.number < s.written.length + 1 :=
      Nat.lt_succ_of_lt (hf.numbers b hb)
    rw [concat_split hf.ascending (toLex (date, nextIndex s.fileManager date tellp maxFileSize)),
      List.mem_append] at hold
    rcases hb with (hb | rfl) | hb
    · exact hold (.inl hb)
    · exact Nat.lt_succ_self _
    · exact hold (.inr hb)
  · cases hd
    exact ⟨rfl, appendTo_has _ _ _, rfl⟩
  · refine ⟨date, rfl, ?_⟩
    rcases mem_appendTo ha with ha | ⟨hk, -⟩
    · obtain ⟨d, hd, hle⟩ := hf.dates a ha
      exact hle.trans (hdate d hd)
    · rw [hk]
      exact le_rfl
  · dsimp only [nextIndex]
    split
    · exact Nat.two_pow_pos 64
    split
    · exact wadd_lt
    · exact hf.index_lt

end

theorem start_filed (h : Start s) : Filed s := by
  subst h
  exact ⟨List.Pairwise.nil, fun a ha => (List.not_mem_nil ha).elim, fun b hb => (List.not_mem_nil hb).elim,
    fun d hd => (nomatch hd), fun a ha => (List.not_mem_nil ha).elim, Nat.two_pow_pos 64⟩

theorem step_filed (hf : Filed s) (hs : Step s s') : Filed s' := by
  cases hs with
  | restart => exact ⟨hf.ascending, hf.nonempty, hf.numbers, fun d hd => (nomatch hd), hf.dates,
      Nat.two_pow_pos 64⟩
  | write date tellp maxFileSize bytes hdate _ => exact hf.write date tellp maxFileSize bytes hdate

/-! ## When the order is kept -/

/-- The file that is open is the last of the directory. -/
def Latest (s : State Date) : Prop :=
  ∀ date, s.fileManager.currentDate = some date →
  ∀ a ∈ s.directory, a.1 ≤ toLex (date, s.fileManager.currentIndex)

section
variable (hf : Filed s) {date : Date} {tellp maxFileSize : Nat} {bytes : List UInt8}
include hf

/-- No file of the directory comes behind the one `RotateFileIfNeeded` chooses. -/
theorem Filed.next_latest (hlatest : Latest s) (hdate : ∀ d ∈ s.lastDate, d ≤ date)
    (hresumes : ¬ Resumes s (s.writeBatch date tellp maxFileSize bytes))
    (hwraps : ¬ Wraps s (s.writeBatch date tellp maxFileSize bytes)) :
    ∀ a ∈ s.directory, a.1 ≤ toLex (date, nextIndex s.fileManager date tellp maxFileSize) := by
  rintro ⟨file, batches⟩ ha
  unfold nextIndex
  split
  · rename_i hnew
    -- A file of an earlier date, or the first one of this date.
    obtain ⟨d, hd, hle⟩ := hf.dates _ ha
    refine Prod.Lex.toLex_le_toLex'.2 ⟨hle.trans (hdate d hd), fun heq => ?_⟩
    by_contra hindex
    refine hresumes ⟨date, tellp, maxFileSize, bytes, rfl, hnew, (ofLex file).2,
      fun h0 => hindex (Nat.le_of_eq h0), batches, ?_⟩
    rw [show toLex (date, (ofLex file).2) = file from congrArg (fun d => toLex (d, (ofLex file).2)) heq.symm]
    exact ha
  rename_i hsame
  have hle := hlatest date (not_not.1 hsame) _ ha
  split
  · rename_i hfull
    have hlast : s.fileManager.currentIndex ≠ 2 ^ 64 - 1 := fun hlast =>
      hwraps ⟨date, tellp, maxFileSize, bytes, rfl, not_not.1 hsame, hfull, hlast⟩
    have hlt := hf.index_lt
    have hnext : addSz s.fileManager.currentIndex 1 = s.fileManager.currentIndex + 1 := wadd_of_lt (by omega)
    rw [hnext]
    exact hle.trans (Prod.Lex.toLex_le_toLex'.2 ⟨le_rfl, fun _ => Nat.le_succ _⟩)
  · exact hle

/-- A file that comes behind the one the batch is written to holds earlier batches. -/
theorem Filed.not_inOrder {file : Date ×ₗ Nat} (hhas : s.Has file)
    (hlt : toLex (date, nextIndex s.fileManager date tellp maxFileSize) < file) :
    ¬ InOrder (s.writeBatch date tellp maxFileSize bytes) := by
  intro horder
  obtain ⟨batches, hmem⟩ := hhas
  rw [hf.writeBatch_eq] at horder
  unfold InOrder at horder
  dsimp only at horder
  rw [concat_appendTo hf.ascending] at horder
  -- The last batch read is one of that file or of a later one, so its number is too small.
  obtain ⟨b, hb⟩ := List.exists_mem_of_ne_nil batches (hf.nonempty _ hmem)
  have hbehind :
      b ∈ concat (behind (toLex (date, nextIndex s.fileManager date tellp maxFileSize)) s.directory) :=
    List.mem_flatMap.2 ⟨_, List.mem_filter.2 ⟨hmem, by simpa using hlt⟩, hb⟩
  have hne := List.ne_nil_of_mem hbehind
  have hlast := congrArg List.getLast? horder
  rw [List.getLast?_append_of_ne_nil _ hne, List.getLast?_concat, List.getLast?_eq_some_iff] at hlast
  obtain ⟨ys, hys⟩ := hlast
  have hin : { number := s.written.length, bytes := bytes } ∈ concat s.directory := by
    rw [concat_split hf.ascending, hys]
    simp
  exact Nat.lt_irrefl _ (hf.numbers _ hin)

end

/-- A step that neither resumes a rotated date nor runs over the index. -/
theorem step_inOrder (hf : Filed s) (hi : InOrder s ∧ Latest s) (hs : Step s s') (hresumes : ¬ Resumes s s')
    (hwraps : ¬ Wraps s s') : InOrder s' ∧ Latest s' := by
  cases hs with
  | restart => exact ⟨hi.1, fun d hd => nomatch hd⟩
  | write date tellp maxFileSize bytes hdate _ =>
    have hlast := hf.next_latest hi.2 hdate hresumes hwraps
    rw [hf.writeBatch_eq]
    refine ⟨(concat_appendTo_last hf.ascending hlast _).trans (congrArg (· ++ _) hi.1), fun d hd a ha => ?_⟩
    cases hd
    rcases mem_appendTo ha with ha | ⟨hk, -⟩
    · exact hlast a ha
    · exact le_of_eq hk

/-- A step that does. -/
theorem not_inOrder_of_bad (hf : Filed s) (h : Resumes s s' ∨ Wraps s s') : ¬ InOrder s' := by
  rcases h with ⟨date, tellp, maxFileSize, bytes, rfl, hnew, index, hindex, hhas⟩ |
    ⟨date, tellp, maxFileSize, bytes, rfl, hsame, hfull, hlast⟩
  · refine hf.not_inOrder hhas (Prod.Lex.toLex_lt_toLex'.2 ⟨le_rfl, fun _ => ?_⟩)
    rw [nextIndex, if_pos hnew]
    exact Nat.pos_of_ne_zero hindex
  · refine hf.not_inOrder (hf.current date hsame).2.1 (Prod.Lex.toLex_lt_toLex'.2 ⟨le_rfl, fun _ => ?_⟩)
    rw [nextIndex, if_neg (not_not.2 hsame), if_pos hfull, hlast]
    show addSz (2 ^ 64 - 1) 1 < 2 ^ 64 - 1
    decide

/-- The files read back in order all along a sequence of processes if and only if none of them begins with a
date whose files an earlier one has rotated, and no index runs over. -/
theorem rotated_files_in_order_iff (s₀ : State Date) (run : List (State Date)) (h : IsRun Start Step s₀ run) :
    (∀ s ∈ s₀ :: run, InOrder s) ↔ (s₀ :: run).IsChain fun s s' => ¬ Resumes s s' ∧ ¬ Wraps s s' := by
  refine (h.strengthen (fun s hs => start_filed hs) (fun s s' hf hs => step_filed hf hs)).forall_iff
    (I := fun s => InOrder s ∧ Latest s) ?_
      (fun s s' hi hs hgood => step_inOrder hs.1 hi hs.2 hgood.1 hgood.2)
    (fun s hi => hi.1) fun s s' hs horder => not_or.1 fun hbad => not_inOrder_of_bad hs.1 hbad horder
  intro s hs
  subst hs
  exact ⟨rfl, fun d hd => nomatch hd⟩

/-- Two batches, the second into a new file, by one process, and a third by another on the date given. -/
def threeBatches (date : Nat) : List (State Nat) :=
  let s₁ : State Nat := ({} : State Nat).writeBatch 1 0 4 [97]
  let s₂ := s₁.writeBatch 1 5 4 [98]
  let s₃ := { s₂ with fileManager := {} }
  [s₁, s₂, s₃, s₃.writeBatch date 0 4 [99]]

theorem threeBatches_run {date : Nat} (h : 1 ≤ date) :
    IsRun Start Step ({} : State Nat) (threeBatches date) := by
  refine ⟨rfl, .cons_cons (.write 1 0 4 [97] (fun d hd => nomatch hd) (List.cons_ne_nil _ _)) <|
    .cons_cons (.write 1 5 4 [98] (fun d hd => ?_) (List.cons_ne_nil _ _)) <| .cons_cons .restart <|
    .cons_cons (.write date 0 4 [99] (fun d hd => ?_) (List.cons_ne_nil _ _)) (.singleton _)⟩ <;> cases hd
  exacts [le_rfl, h]

/-- The theorem for a second process that begins on the next date. -/
theorem rotated_files_in_order_next :
    (({} : State Nat) :: threeBatches 2).IsChain fun s s' => ¬ Resumes s s' ∧ ¬ Wraps s s' := by
  refine (rotated_files_in_order_iff {} (threeBatches 2) (threeBatches_run (by decide))).1 ?_
  intro s hs
  simp only [threeBatches, List.mem_cons, List.not_mem_nil, or_false] at hs
  rcases hs with rfl | rfl | rfl | rfl | rfl <;> rfl

/-- On the same date the third batch goes to the file of the first, and is read before the second. -/
theorem restart_breaks_order : ∃ run s, IsRun Start Step ({} : State Nat) run ∧ s ∈ run ∧
    s.written.map Batch.bytes = [[97], [98], [99]] ∧
    (concat s.directory).map Batch.bytes = [[97], [99], [98]] :=
  ⟨threeBatches 1, _, threeBatches_run le_rfl, .tail _ (.tail _ (.tail _ (.head _))), rfl, rfl⟩

/-! ## The batches of one process -/

section
variable {ι : Type} [DecidableEq ι] {p p' : Logger.State ι}

/-- A step of the logger writes nothing, or one batch. -/
theorem logger_step (hi : p.ringBuffer.Inv) (hs : Logger.Step p p') :
    p'.ringBuffer.Inv ∧ ∃ bytes, p'.written = p.written ++ bytes := by
  cases hs with
  | log time _ hlen =>
    obtain ⟨ring, xs, hring, -, heq⟩ := Logger.log_spec hi hlen
    rw [heq]
    exact ⟨hring, [], (List.append_nil _).symm⟩
  | @consume readBuffer beyond _ _ _ =>
    rcases Nat.lt_or_ge readBuffer.length p.minReadBytes with hover | hfit
    · rw [Logger.consume_overread hi beyond hover]
      exact ⟨hi, _, rfl⟩
    · obtain ⟨ring, readBuffer', -, hring, -, heq⟩ := Logger.consume_spec hi beyond hfit
      rw [heq]
      exact ⟨hring, _, rfl⟩
  | reload | monitorExit | shouldLog | start | loadRunning | timeout | stopMonitor | stopCust | joinMonitor
  | joinCust =>
    exact ⟨hi, [], (List.append_nil _).symm⟩

/-- What a process writes during one date are batches of a run of the files. -/
theorem process_batches (date : Date) (h : Reachable Logger.Start Logger.Step p) : ∃ s : State Date,
    Reachable Start Step s ∧ (∀ d ∈ s.lastDate, d ≤ date) ∧ s.written.flatMap Batch.bytes = p.written := by
  have hinv : p.ringBuffer.Inv ∧ ∃ s : State Date,
      Reachable Start Step s ∧ (∀ d ∈ s.lastDate, d ≤ date) ∧
      s.written.flatMap Batch.bytes = p.written := by
    refine h.inv (I := fun p => p.ringBuffer.Inv ∧ ∃ s : State Date,
      Reachable Start Step s ∧ (∀ d ∈ s.lastDate, d ≤ date) ∧ s.written.flatMap Batch.bytes = p.written)
      (fun p hp => ?_) ?_
    · exact ⟨(Logger.start_copied hp).ring, {}, .start rfl,
        fun d hd => (nomatch hd), by obtain ⟨_, rfl⟩ := hp; rfl⟩
    · rintro p p' - ⟨hi, s, hs, hdate, hw⟩ hstep
      obtain ⟨hi', bytes, hb⟩ := logger_step hi hstep
      refine ⟨hi', ?_⟩
      by_cases hnil : bytes = []
      · exact ⟨s, hs, hdate, by rw [hb, hnil, List.append_nil, hw]⟩
      · refine ⟨_, hs.next (.write date 0 0 bytes hdate hnil), fun d hd => ?_, ?_⟩
        · cases hd
          exact le_rfl
        · show (s.written ++ [_]).flatMap Batch.bytes = _
          rw [List.flatMap_append, hw, hb]
          simp
  exact hinv.2

end

end LogRotation

end NebulaToolkit
