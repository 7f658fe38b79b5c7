import Mathlib.Logic.Function.Iterate
import NebulaToolkit.Logger
/-!
# The configuration follows its file

`MonitorConfigChanges`, statement by statement, while the file is edited. Each
`GetValue` of `UpdateConfig` opens the file anew, so one reload may read several
versions of it. What brings the monitor back is `st_mtime`: as long as no edit
leaves it at what `last_mod` holds, the configuration ends up as that of the
file (`configuration_catches_up`).
-/

namespace NebulaToolkit.ConfigMonitor

open Lib Logger IniReader

/-- The statements of `UpdateConfig` behind the lock. -/
def statements : List (Option (List Char) → Config → Config) := [
  fun file c => { c with logGlobal := { c.logGlobal with
    maxFileSize := (getSize file globalSection "max_file_size_kb".toList c.logGlobal.maxFileSize).2 } },
  fun _ c => { c with
    logGlobal := { c.logGlobal with maxFileSize := c.logGlobal.maxFileSize * 1024 % 2 ^ 64 } },
  fun file c => { c with logGlobal := { c.logGlobal with
    printLine := (getBool file globalSection "print_line".toList c.logGlobal.printLine).2 } },
  fun file c => { c with logGlobal := { c.logGlobal with
    printFunc := (getBool file globalSection "print_func".toList c.logGlobal.printFunc).2 } },
  fun file c => { c with logGlobal := { c.logGlobal with
    printTime := (getBool file globalSection "print_time".toList c.logGlobal.printTime).2 } },
  fun file c => { c with logGlobal := { c.logGlobal with
    logDirectory := (getValue file globalSection "log_directory".toList c.logGlobal.logDirectory).2 } },
  fun file c => { c with logAsync := { c.logAsync with
    ringBufferSizeKb :=
      (getSize file asyncSection "ring_buffer_size_kb".toList c.logAsync.ringBufferSizeKb).2 } },
  fun file c => { c with logAsync := { c.logAsync with
    batchSizeKb := (getSize file asyncSection "batch_size_kb".toList c.logAsync.batchSizeKb).2 } },
  fun file c => { c with logAsync := { c.logAsync with
    maxFlushSize := (getSize file asyncSection "max_flush_size".toList c.logAsync.maxFlushSize).2 } },
  fun file c => { c with logLevel := { c.logLevel with
    msg := (getBool file levelSection "msg".toList c.logLevel.msg).2 } },
  fun file c => { c with logLevel := { c.logLevel with
    info := (getBool file levelSection "info".toList c.logLevel.info).2 } },
  fun file c => { c with logLevel := { c.logLevel with
    warn := (getBool file levelSection "warn".toList c.logLevel.warn).2 } },
  fun file c => { c with logLevel := { c.logLevel with
    debug := (getBool file levelSection "debug".toList c.logLevel.debug).2 } },
  fun file c => { c with logLevel := { c.logLevel with
    error := (getBool file levelSection "error".toList c.logLevel.error).2 } }]

/-- The first `k` statements, all on one file. -/
def updated (k : Nat) (file : Option (List Char)) (c : Config) : Config :=
  (statements.take k).foldl (fun c f => f file c) c

/-- All of them are `UpdateConfig`. -/
theorem updated_all (file : Option (List Char)) (c : Config) : updated 14 file c = updateConfig file c := rfl

theorem updated_succ {k : Nat} {f : Option (List Char) → Config → Config} (hf : statements[k]? = some f)
    (file : Option (List Char)) (c : Config) : updated (k + 1) file c = f file (updated k file c) := by
  unfold updated
  rw [List.take_add_one, hf, List.foldl_append]
  rfl

/-- Where `MonitorConfigChanges` is. -/
inductive Monitor where
  /-- Before `while (monitor_config_thread_running_)`. -/
  | head
  /-- Before `stat`. -/
  | body
  /-- In `UpdateConfig`, so many statements done. -/
  | updating (k : Nat)
  | sleeping
  | done

structure State where
  /-- What is under `CONFIG_PATH`: nothing, or a text. -/
  file : Option (List Char)
  /-- What `stat` finds; `none` if it fails. -/
  stMtime : Option Int
  config : Config
  lastMod : Int := 0
  /-- `monitor_config_thread_running_` -/
  running : Bool := true
  monitor : Monitor := .head

/-- The monitor's next statement. -/
def State.monitorStep (s : State) : State :=
  match s.monitor with
  | .head => { s with monitor := if s.running then .body else .done }
  | .body =>
    match s.stMtime with
    | none => { s with monitor := .sleeping }
    | some m => if m ≠ s.lastMod then { s with lastMod := m, monitor := .updating 0 } else
        { s with monitor := .sleeping }
  | .updating k =>
    match statements[k]? with
    | some f => { s with config := f s.file s.config, monitor := .updating (k + 1) }
    | none => { s with monitor := .sleeping }
  | .sleeping => { s with monitor := .head }
  | .done => s

inductive Step : State → State → Prop
  | monitor {s : State} : Step s s.monitorStep
  /-- Somebody edits the file, or removes it. -/
  | edit {s : State} (file : Option (List Char)) (stMtime : Option Int) :
      Step s { s with file := file, stMtime := stMtime }
  /-- `~Logger` -/
  | stop {s : State} : Step s { s with running := false }

/-- After the constructor, which has read the file. -/
def Start (s : State) : Prop :=
  ∃ file stMtime, s = { file := file, stMtime := stMtime, config := updateConfig file {} }

/-- An edit after which `stat` finds what the monitor has seen before. -/
def Unnoticed (s s' : State) : Prop :=
  (s'.file ≠ s.file ∨ s'.stMtime ≠ s.stMtime) ∧ s'.stMtime = some s.lastMod

/-- The configuration is that of the file, over some earlier one. -/
def State.Current (s : State) : Prop := ∃ c, s.config = updateConfig s.file c

/-- The monitor has seen this file and is not reading it. -/
def State.Quiet (s : State) : Prop := s.stMtime = some s.lastMod ∧ ∀ k, s.monitor ≠ .updating k

/-- As far as the file that the monitor has seen has been read, the configuration is that of the file. -/
def Followed (s : State) : Prop :=
  s.stMtime = some s.lastMod →
  ∃ c, s.config = updated (match s.monitor with | .updating k => k | _ => 14) s.file c

variable {s s' : State}

theorem start_followed (h : Start s) : Followed s := by
  obtain ⟨file, stMtime, rfl⟩ := h
  exact fun _ => ⟨{}, (updated_all file {}).symm⟩

theorem updated_of_none {k : Nat} (hk : statements[k]? = none) (file : Option (List Char)) (c : Config) :
    updated k file c = updated 14 file c := by
  unfold updated
  rw [List.take_of_length_le (List.getElem?_eq_none_iff.1 hk)]
  rfl

theorem monitorStep_followed (h : Followed s) : Followed s.monitorStep := by
  obtain ⟨file, stMtime, config, lastMod, running, monitor⟩ := s
  cases monitor with
  | head => cases running <;> exact h
  | sleeping | done => exact h
  | body =>
    cases stMtime with
    | none => exact h
    | some m =>
      by_cases hm : m = lastMod
      · simp only [State.monitorStep, hm, ne_eq, not_true_eq_false, if_false]
        rwa [hm] at h
      · simp only [State.monitorStep, hm, ne_eq, not_false_eq_true, if_true]
        -- The reload begins, on whatever configuration is there.
        exact fun _ => ⟨config, rfl⟩
  | updating k =>
    cases hf : statements[k]? with
    | some f =>
      simp only [State.monitorStep, hf]
      intro hseen
      obtain ⟨c, hc⟩ := h hseen
      exact ⟨c, (congrArg (f file) hc).trans (updated_succ hf file c).symm⟩
    | none =>
      simp only [State.monitorStep, hf]
      intro hseen
      obtain ⟨c, hc⟩ := h hseen
      exact ⟨c, hc.trans (updated_of_none hf file c)⟩

theorem step_followed (h : Followed s) (hs : Step s s') (hn : ¬ Unnoticed s s') : Followed s' := by
  cases hs with
  | monitor => exact monitorStep_followed h
  | stop => exact h
  | edit file stMtime =>
    intro hseen
    -- Otherwise the edit would be unnoticed.
    have hsame : file = s.file ∧ stMtime = s.stMtime := by
      by_contra hne
      exact hn ⟨not_and_or.1 hne, hseen⟩
    obtain ⟨rfl, rfl⟩ := hsame
    exact h hseen

/-! ## How long it takes -/

/-- How many statements there are at most until the monitor has read the file that is there. -/
def State.left (s : State) : Nat :=
  match s.monitor with
  | .updating k => if s.stMtime = some s.lastMod then 14 - k + 1 else 14 - k + 1 + 18
  | .sleeping => if s.stMtime = some s.lastMod then 0 else 18
  | .head => if s.stMtime = some s.lastMod then 0 else 17
  | .body => if s.stMtime = some s.lastMod then 0 else 16
  | .done => 0

theorem left_le (s : State) : s.left ≤ 33 := by
  unfold State.left
  cases s.monitor with
  | done => exact Nat.zero_le _
  | head | body | sleeping | updating =>
    dsimp only
    split <;> omega

/-- The monitor runs, on a file that `stat` finds. -/
structure State.Watching (s : State) : Prop where
  running : s.running = true
  found : s.stMtime.isSome
  there : s.monitor ≠ .done

/-- What the monitor does not touch. -/
theorem monitorStep_rest (s : State) : s.monitorStep.file = s.file ∧ s.monitorStep.stMtime = s.stMtime ∧
    s.monitorStep.running = s.running := by
  obtain ⟨file, stMtime, config, lastMod, running, monitor⟩ := s
  unfold State.monitorStep
  cases monitor with
  | head | sleeping | done => exact ⟨rfl, rfl, rfl⟩
  | body =>
    cases stMtime with
    | none => exact ⟨rfl, rfl, rfl⟩
    | some m =>
      dsimp only
      split <;> exact ⟨rfl, rfl, rfl⟩
  | updating k =>
    dsimp only
    split <;> exact ⟨rfl, rfl, rfl⟩

theorem monitorStep_watching (hw : s.Watching) : s.monitorStep.Watching := by
  obtain ⟨-, hst, hrun⟩ := monitorStep_rest s
  refine ⟨hrun ▸ hw.running, hst ▸ hw.found, ?_⟩
  obtain ⟨file, stMtime, config, lastMod, running, monitor⟩ := s
  obtain ⟨hr, -, hd⟩ := hw
  dsimp only at hr hd
  subst hr
  unfold State.monitorStep
  cases monitor with
  | head | sleeping => nofun
  | done => exact absurd rfl hd
  | body =>
    cases stMtime with
    | none => nofun
    | some m =>
      dsimp only
      split <;> nofun
  | updating k =>
    dsimp only
    split <;> nofun

/-- A monitor that has read the file leaves the configuration alone. -/
theorem monitorStep_quiet (hq : s.Quiet) : s.monitorStep.Quiet ∧ s.monitorStep.config = s.config := by
  obtain ⟨file, stMtime, config, lastMod, running, monitor⟩ := s
  obtain ⟨hseen, hno⟩ := hq
  dsimp only at hseen hno
  subst hseen
  cases monitor with
  | head => cases running <;> exact ⟨⟨rfl, nofun⟩, rfl⟩
  | sleeping | done => exact ⟨⟨rfl, nofun⟩, rfl⟩
  | body =>
    unfold State.monitorStep
    dsimp only
    rw [if_neg (not_not.2 rfl)]
    exact ⟨⟨rfl, nofun⟩, rfl⟩
  | updating k => exact absurd rfl (hno k)

/-- Every statement brings it nearer, until it has. -/
theorem monitorStep_left (hw : s.Watching) : s.Quiet ∨ s.monitorStep.left < s.left := by
  obtain ⟨file, stMtime, config, lastMod, running, monitor⟩ := s
  obtain ⟨hr, hfound, hd⟩ := hw
  obtain ⟨m, hm⟩ := Option.isSome_iff_exists.1 hfound
  dsimp only at hr hd hm
  subst hr hm
  by_cases hseen : m = lastMod
  · subst hseen
    cases monitor with
    | head | sleeping | body | done => exact .inl ⟨rfl, nofun⟩
    | updating k =>
      right
      cases hf : statements[k]? with
      | some f =>
        have hk : k < 14 := (List.getElem?_eq_some_iff.1 hf).1
        simp only [State.monitorStep, State.left, hf, if_true]
        omega
      | none =>
        simp only [State.monitorStep, State.left, hf, if_true]
        omega
  · right
    have hne : some m ≠ some lastMod := fun he => hseen (Option.some.inj he)
    cases monitor with
    | done => exact absurd rfl hd
    | head | sleeping => simp [State.monitorStep, State.left, hne]
    | body => simp [State.monitorStep, State.left, hne, hseen]
    | updating k =>
      cases hf : statements[k]? with
      | some f =>
        have hk : k < 14 := (List.getElem?_eq_some_iff.1 hf).1
        simp only [State.monitorStep, State.left, hf, if_neg hne]
        omega
      | none =>
        simp only [State.monitorStep, State.left, hf, if_neg hne]
        omega

/-! ## The monitor by itself -/

theorem iterate_watching (hw : s.Watching) (n : Nat) : (State.monitorStep^[n] s).Watching ∧
    (State.monitorStep^[n] s).file = s.file := by
  induction n with
  | zero => exact ⟨hw, rfl⟩
  | succ n ih =>
    rw [Function.iterate_succ_apply']
    exact ⟨monitorStep_watching ih.1, (monitorStep_rest _).1.trans ih.2⟩

theorem iterate_followed (h : Followed s) (n : Nat) : Followed (State.monitorStep^[n] s) := by
  induction n with
  | zero => exact h
  | succ n ih =>
    rw [Function.iterate_succ_apply']
    exact monitorStep_followed ih

theorem iterate_quiet (hq : s.Quiet) (n : Nat) : (State.monitorStep^[n] s).Quiet ∧
    (State.monitorStep^[n] s).config = s.config := by
  induction n with
  | zero => exact ⟨hq, rfl⟩
  | succ n ih =>
    rw [Function.iterate_succ_apply']
    obtain ⟨hq', hc⟩ := monitorStep_quiet ih.1
    exact ⟨hq', hc.trans ih.2⟩

theorem iterate_left (hw : s.Watching) : ∃ n ≤ s.left, (State.monitorStep^[n] s).Quiet := by
  induction hl : s.left using Nat.strong_induction_on generalizing s with
  | _ l ih =>
    rcases monitorStep_left hw with hq | hlt
    · exact ⟨0, Nat.zero_le _, hq⟩
    · obtain ⟨n, hn, hq⟩ := ih _ (hl ▸ hlt) (monitorStep_watching hw) rfl
      exact ⟨n + 1, by omega, by rwa [Function.iterate_succ_apply]⟩

theorem Followed.current (h : Followed s) (hq : s.Quiet) : s.Current := by
  obtain ⟨c, hc⟩ := h hq.1
  refine ⟨c, hc.trans ?_⟩
  cases hm : s.monitor with
  | updating k => exact absurd hm (hq.2 k)
  | head | body | sleeping | done => rfl

/-- The thread returns only when it was told to. -/
theorem step_done (hd : s.monitor = .done → s.running = false) (hs : Step s s') : s'.monitor = .done →
    s'.running = false := by
  cases hs with
  | stop => exact fun _ => rfl
  | edit => exact hd
  | monitor =>
    rw [(monitorStep_rest s).2.2]
    unfold State.monitorStep
    split
    · intro h
      change (if s.running then Monitor.body else .done) = .done at h
      cases hr : s.running with
      | false => rfl
      | true =>
        rw [hr] at h
        cases h
    · split
      · nofun
      · split <;> nofun
    · split <;> nofun
    · nofun
    · exact hd

/-- With no edit in between, `stat`, the fourteen statements and the return are one reload of the logger. -/
theorem reload_statements {m : Int} (hm : s.monitor = .body) (hst : s.stMtime = some m)
    (hne : m ≠ s.lastMod) :
    State.monitorStep^[16] s =
      { s with config := updateConfig s.file s.config, lastMod := m, monitor := .sleeping } := by
  obtain ⟨file, stMtime, config, lastMod, running, monitor⟩ := s
  dsimp only at hm hst hne
  subst hm hst
  have hstat : State.monitorStep ⟨file, some m, config, lastMod, running, .body⟩ =
    ⟨file, some m, config, m, running, .updating 0⟩ := by
    simp only [State.monitorStep, ne_eq, hne, not_false_eq_true, if_true]
  rw [Function.iterate_succ_apply, hstat]
  rfl

/-- So the logger takes it as its step. -/
theorem reload_step {ι : Type} [DecidableEq ι] {l : Logger.State ι} {m : Int} (hm : s.monitor = .body)
    (hst : s.stMtime = some m) (hne : m ≠ s.lastMod) (hc : l.config = s.config) (hd : l.monitorDone = false) :
    Logger.Step l { l with config := (State.monitorStep^[16] s).config } := by
  rw [reload_statements hm hst hne, ← hc]
  exact .reload s.file hd

/-- In every run, edits at any time, in which none leaves `st_mtime` at what the monitor saw
last: where the monitor has seen the file and is not reading it, the configuration is that of
the file. From any state, if the monitor is running, `stat` finds the file and nobody edits it,
the monitor gets there within 33 statements and leaves the configuration so. An edit
that does leave `st_mtime` where it was is never read. -/
theorem configuration_catches_up (s₀ : State) (run : List State) (h : IsRun Start Step s₀ run)
    (hn : (s₀ :: run).IsChain fun s s' => ¬ Unnoticed s s') : ∀ s ∈ s₀ :: run, (s.Quiet → s.Current) ∧
      (s.running = true → s.stMtime.isSome → ∃ c, ∀ n, 33 ≤ n →
        (State.monitorStep^[n] s).config = updateConfig s.file c) ∧
      ∀ file n, s.Quiet → (State.monitorStep^[n] { s with file := file }).config = s.config := by
  intro s hs
  have hi : Followed s ∧ (s.monitor = .done → s.running = false) := by
    refine (h.and hn).inv (I := fun s => Followed s ∧ (s.monitor = .done → s.running = false))
      (fun s hs => ?_) ?_ s hs
    · refine ⟨start_followed hs, ?_⟩
      obtain ⟨file, stMtime, rfl⟩ := hs
      nofun
    · exact fun s s' hi hs => ⟨step_followed hi.1 hs.1 hs.2, step_done hi.2 hs.1⟩
  refine ⟨hi.1.current, fun hr hst => ?_, fun file n hq => ?_⟩
  · have hw : s.Watching := ⟨hr, hst, fun hd => by rw [hi.2 hd] at hr; cases hr⟩
    obtain ⟨k, hk, hq⟩ := iterate_left hw
    obtain ⟨c, hc⟩ := (iterate_followed hi.1 k).current hq
    rw [(iterate_watching hw k).2] at hc
    refine ⟨c, fun n hle => ?_⟩
    have hsplit : n = n - k + k := by
      have := left_le s
      omega
    rw [hsplit, Function.iterate_add_apply, (iterate_quiet hq _).2, hc]
  · exact (iterate_quiet (s := { s with file := file }) hq n).2

/-- The theorem for a file that is edited before the monitor first looks. -/
theorem configuration_catches_up_edit : ∃ s : State, s.file = some "[LOG_LEVEL]\nerror=1\n".toList ∧
    ∃ c, ∀ n, 33 ≤ n → (State.monitorStep^[n] s).config = updateConfig s.file c := by
  let s₀ : State := { file := none, stMtime := none, config := updateConfig none {} }
  let s₁ : State := { s₀ with file := some "[LOG_LEVEL]\nerror=1\n".toList, stMtime := some 5 }
  have h : IsRun Start Step s₀ [s₁] := ⟨⟨none, none, rfl⟩, .cons_cons (.edit _ _) (.singleton _)⟩
  have hn : (s₀ :: [s₁]).IsChain fun s s' => ¬ Unnoticed s s' := by
    refine .cons_cons (fun hu => ?_) (.singleton _)
    have := hu.2
    simp [s₁, s₀] at this
  exact ⟨s₁, rfl, (configuration_catches_up s₀ [s₁] h hn s₁ (by simp)).2.1 rfl rfl⟩

end NebulaToolkit.ConfigMonitor
