import NebulaToolkit.IniValues
import NebulaToolkit.Logger
import Mathlib.Logic.Function.Iterate
/-!
# Reloading the configuration

What `UpdateConfig` makes of a file that has not changed, and which sections it
takes its values from.
-/

namespace NebulaToolkit

open IniReader

namespace Logger

/-! ## The same file again -/

/-- The number of the section, or the previous size, times a kibibyte. -/
theorem updateConfig_maxFileSize (file : Option (List Char)) (c : Config) :
    (updateConfig file c).logGlobal.maxFileSize =
      (number file globalSection "max_file_size_kb".toList).getD c.logGlobal.maxFileSize * 1024 % 2 ^ 64 := by
  simp only [updateConfig, getSize_eq]

/-- Only the size of a file can be another one the second time. -/
theorem updateConfig_again {file : Option (List Char)} {c : Config}
    (hsize : (updateConfig file (updateConfig file c)).logGlobal.maxFileSize =
      (updateConfig file c).logGlobal.maxFileSize) :
    updateConfig file (updateConfig file c) = updateConfig file c := by
  have hglobal : (updateConfig file (updateConfig file c)).logGlobal = (updateConfig file c).logGlobal := by
    simp only [updateConfig] at hsize
    simp only [updateConfig, getBool_again, getValue_again, hsize]
  have hasync : (updateConfig file (updateConfig file c)).logAsync = (updateConfig file c).logAsync := by
    simp only [updateConfig, getSize_again]
  have hlevel : (updateConfig file (updateConfig file c)).logLevel = (updateConfig file c).logLevel := by
    simp only [updateConfig, getBool_again]
  calc updateConfig file (updateConfig file c)
      = ⟨(updateConfig file (updateConfig file c)).logGlobal,
        (updateConfig file (updateConfig file c)).logAsync,
          (updateConfig file (updateConfig file c)).logLevel⟩ := rfl
    _ = ⟨(updateConfig file c).logGlobal, (updateConfig file c).logAsync,
      (updateConfig file c).logLevel⟩ := by
        rw [hglobal, hasync, hlevel]
    _ = updateConfig file c := rfl

/-- The size is scaled in place: without a number in the file it is scaled once more. -/
theorem maxFileSize_again_iff (file : Option (List Char)) (c : Config) :
    (updateConfig file (updateConfig file c)).logGlobal.maxFileSize =
    (updateConfig file c).logGlobal.maxFileSize ↔
      (number file globalSection "max_file_size_kb".toList).isSome ∨ 2 ^ 54 ∣ c.logGlobal.maxFileSize := by
  rw [updateConfig_maxFileSize, updateConfig_maxFileSize]
  cases number file globalSection "max_file_size_kb".toList with
  | some n => simp
  | none =>
    simp only [Option.getD_none, Option.isSome_none, Bool.false_eq_true, false_or]
    omega

/-- Loading the file once more changes nothing, and neither does any number of times. -/
def ReloadKeeps (file : Option (List Char)) (c : Config) : Prop :=
  updateConfig file (updateConfig file c) = updateConfig file c ∧
    ∀ n, ((updateConfig file)^[n + 1] c).logGlobal.maxFileSize = (updateConfig file c).logGlobal.maxFileSize

/-- An unchanged file changes nothing if and only if it has a number for the size or the
size was a multiple of `2 ^ 54`. -/
theorem reload_keeps_iff (file : Option (List Char)) (c : Config) :
    ReloadKeeps file c ↔ (number file globalSection "max_file_size_kb".toList).isSome ∨
    2 ^ 54 ∣ c.logGlobal.maxFileSize := by
  rw [← maxFileSize_again_iff]
  constructor
  · rintro ⟨hagain, -⟩
    rw [hagain]
  · intro hsize
    have hagain := updateConfig_again hsize
    refine ⟨hagain, fun n => ?_⟩
    rw [Function.iterate_succ_apply, Function.iterate_fixed hagain n]

/-- The defaults and a file that has another key: one mebibyte, one gibibyte, one tebibyte. -/
theorem unset_size_grows :
    let file := some "[LOG_GLOBAL]\nlog_directory = ./logs\n".toList
    (updateConfig file {}).logGlobal.maxFileSize = 2 ^ 30 ∧
      ((updateConfig file)^[2] {}).logGlobal.maxFileSize = 2 ^ 40 ∧ ¬ ReloadKeeps file {} := by
  intro file
  have hnone : number file globalSection "max_file_size_kb".toList = none := by decide
  have honce : (updateConfig file {}).logGlobal.maxFileSize = 2 ^ 30 := by
    rw [updateConfig_maxFileSize, hnone]
    rfl
  have htwice : ((updateConfig file)^[2] {}).logGlobal.maxFileSize = 2 ^ 40 := by
    show (updateConfig file (updateConfig file {})).logGlobal.maxFileSize = _
    rw [updateConfig_maxFileSize, hnone, honce]
    rfl
  refine ⟨honce, htwice, fun h => ?_⟩
  have := h.2 1
  rw [htwice, honce] at this
  revert this
  decide

/-! ## The sections -/

/-- The section of `log_config.ini` that has the values of `LogAsync`. -/
def asyncLayout : List Char := "LOG_ASYNC".toList

/-- The keys of `LogAsync` with their fields. -/
def asyncFields : List (List Char × (Configs.LogAsync → Nat)) :=
  [("ring_buffer_size_kb".toList, (·.ringBufferSizeKb)), ("batch_size_kb".toList, (·.batchSizeKb)),
    ("max_flush_size".toList, (·.maxFlushSize))]

theorem async_ext {a b : Configs.LogAsync} (h : ∀ field ∈ asyncFields, field.2 a = field.2 b) : a = b := by
  cases a
  cases b
  simpa [asyncFields] using h

theorem updateConfig_async (file : Option (List Char)) (c : Config) :
    ∀ field ∈ asyncFields, field.2 (updateConfig file c).logAsync =
    (number file globalSection field.1).getD (field.2 c.logAsync) := by
  intro field hfield
  simp only [asyncFields, List.mem_cons, List.not_mem_nil, or_false] at hfield
  rcases hfield with rfl | rfl | rfl
  · exact congrArg Prod.snd (getSize_eq file asyncSection _ _)
  · exact congrArg Prod.snd (getSize_eq file asyncSection _ _)
  · exact congrArg Prod.snd (getSize_eq file asyncSection _ _)

theorem updateConfig_global_congr {file file' : Option (List Char)} {c c' : Config}
    (h : bindings file globalSection = bindings file' globalSection) (hc : c.logGlobal = c'.logGlobal) :
    (updateConfig file c).logGlobal = (updateConfig file' c').logGlobal := by
  simp only [updateConfig, getSize, getBool, getValue, getProcessedValue_congr h, hc]

theorem updateConfig_level_congr {file file' : Option (List Char)} {c c' : Config}
    (h : bindings file levelSection = bindings file' levelSection) (hc : c.logLevel = c'.logLevel) :
    (updateConfig file c).logLevel = (updateConfig file' c').logLevel := by
  simp only [updateConfig, getBool, getProcessedValue_congr h, hc]

/-- A number that the section has for a key becomes the value of the field. -/
def NumbersTaken (file : Option (List Char)) (c : Config) : Prop :=
  ∀ field ∈ asyncFields, ∀ n, number file asyncLayout field.1 = some n →
  field.2 (updateConfig file c).logAsync = n

/-- What two runs have to do with each other when each setting comes from its own section. -/
structure OwnSections (file file' : Option (List Char)) (c c' : Config) : Prop where
  async : bindings file asyncLayout = bindings file' asyncLayout → c.logAsync = c'.logAsync →
    (updateConfig file c).logAsync = (updateConfig file' c').logAsync
  numbers : NumbersTaken file c ∧ NumbersTaken file' c'
  global : bindings file globalSection = bindings file' globalSection → c.logGlobal = c'.logGlobal →
    (updateConfig file c).logGlobal = (updateConfig file' c').logGlobal
  level : bindings file levelSection = bindings file' levelSection → c.logLevel = c'.logLevel →
    (updateConfig file c).logLevel = (updateConfig file' c').logLevel

/-- The number of the section, where one without a number has the previous value. -/
def given (file : Option (List Char)) (sectionName : List Char) (c : Config)
    (field : List Char × (Configs.LogAsync → Nat)) : Nat :=
  (number file sectionName field.1).getD (field.2 c.logAsync)

/-- `LOG_GLOBAL` has the numbers that `LOG_ASYNC` has. -/
def RepeatsNumbers (file : Option (List Char)) (c : Config) : Prop :=
  ∀ field ∈ asyncFields, (number file asyncLayout field.1).isSome →
  given file globalSection c field = given file asyncLayout c field

theorem numbersTaken_iff (file : Option (List Char)) (c : Config) :
    NumbersTaken file c ↔ RepeatsNumbers file c := by
  refine forall₂_congr fun field hfield => ?_
  rw [updateConfig_async file c field hfield]
  unfold given
  cases number file asyncLayout field.1 <;> simp

/-- Each setting comes from its own section if and only if `LOG_GLOBAL` repeats the numbers of
`LOG_ASYNC`, and equal sections `LOG_ASYNC` that have none come with equal numbers in `LOG_GLOBAL`. -/
theorem own_sections_iff (file file' : Option (List Char)) (c c' : Config) :
    OwnSections file file' c c' ↔ (RepeatsNumbers file c ∧ RepeatsNumbers file' c') ∧
      (bindings file asyncLayout = bindings file' asyncLayout → c.logAsync = c'.logAsync →
        ∀ field ∈ asyncFields, number file asyncLayout field.1 = none →
          given file globalSection c field = given file' globalSection c' field) := by
  constructor
  · rintro ⟨hasync, ⟨hn, hn'⟩, -, -⟩
    refine ⟨⟨(numbersTaken_iff file c).1 hn, (numbersTaken_iff file' c').1 hn'⟩,
      fun hb hc field hfield _ => ?_⟩
    have heq := congrArg field.2 (hasync hb hc)
    rwa [updateConfig_async file c field hfield, updateConfig_async file' c' field hfield] at heq
  · rintro ⟨⟨hrep, hrep'⟩, hagree⟩
    have htaken := (numbersTaken_iff file c).2 hrep
    have htaken' := (numbersTaken_iff file' c').2 hrep'
    refine ⟨fun hb hc => async_ext fun field hfield => ?_, ⟨htaken, htaken'⟩, updateConfig_global_congr,
      updateConfig_level_congr⟩
    -- A number of the common section is in both; the others agree by assumption.
    have hsame : number file asyncLayout field.1 = number file' asyncLayout field.1 := by
      unfold number
      rw [getProcessedValue_congr hb]
    cases hnumber : number file asyncLayout field.1 with
    | some n =>
      rw [htaken field hfield n hnumber, htaken' field hfield n (hsame ▸ hnumber)]
    | none =>
      rw [updateConfig_async file c field hfield, updateConfig_async file' c' field hfield]
      exact hagree hb hc field hfield hnumber

/-- A size in `LOG_ASYNC` is not seen, and one in `LOG_GLOBAL` is. -/
theorem async_section_unread :
    (updateConfig (some "[LOG_ASYNC]\nbatch_size_kb = 4\n".toList) {}).logAsync.batchSizeKb = 4096 ∧
      (updateConfig (some "[LOG_GLOBAL]\nbatch_size_kb = 4\n".toList) {}).logAsync.batchSizeKb = 4 ∧
      ¬ OwnSections (some "[LOG_ASYNC]\nbatch_size_kb = 4\n".toList) none {} {} := by
  have hfield : (updateConfig (some "[LOG_ASYNC]\nbatch_size_kb = 4\n".toList) {}).logAsync.batchSizeKb =
      4096 := by decide
  refine ⟨hfield, by decide, fun h => ?_⟩
  have hfour : number (some "[LOG_ASYNC]\nbatch_size_kb = 4\n".toList)
      asyncLayout "batch_size_kb".toList = some 4 := by decide
  have htaken := h.numbers.1 ("batch_size_kb".toList, (·.batchSizeKb)) (by simp [asyncFields]) 4 hfour
  cases hfield.symm.trans htaken

end Logger

end NebulaToolkit
