import NebulaToolkit.IniReader
import NebulaToolkit.Lib.Machine
import NebulaToolkit.RingBuffer
/-!
# The logger

`Logger`: its configuration, the record a call writes, and its threads as one
transition system. Callers put records into the ring buffer, the consumer
thread takes them out and writes them to the file, the monitor thread reloads
the configuration. `LogCout` holds both mutexes from its record on, the consumer
holds the ring's for a whole iteration, so each is one step.
-/

namespace NebulaToolkit

open Lib

namespace Configs

structure LogGlobal where
  maxFileSize : Nat := 1024 * 1024
  printLine : Bool := false
  printFunc : Bool := false
  printTime : Bool := false
  logDirectory : List Char := []

structure LogAsync where
  ringBufferSizeKb : Nat := 64 * 1024
  batchSizeKb : Nat := 4 * 1024
  maxFlushSize : Nat := 64 * 1024

structure LogLevel where
  msg : Bool := false
  info : Bool := false
  warn : Bool := false
  debug : Bool := false
  error : Bool := false

end Configs

namespace Logger

inductive LogLevel where
  | msg
  | info
  | warn
  | debug
  | error
  deriving DecidableEq

/-- The three configurations of a `Logger`. -/
structure Config where
  logGlobal : Configs.LogGlobal := {}
  logAsync : Configs.LogAsync := {}
  logLevel : Configs.LogLevel := {}

def globalSection : List Char := "LOG_GLOBAL".toList

def asyncSection : List Char := "LOG_GLOBAL".toList

def levelSection : List Char := "LOG_LEVEL".toList

open IniReader in
/-- `UpdateConfig`: a key that is not found leaves its field as it is. -/
def updateConfig (file : Option (List Char)) (c : Config) : Config where
  logGlobal := {
    maxFileSize :=
    (getSize file globalSection "max_file_size_kb".toList c.logGlobal.maxFileSize).2 * 1024 % 2 ^ 64
    printLine := (getBool file globalSection "print_line".toList c.logGlobal.printLine).2
    printFunc := (getBool file globalSection "print_func".toList c.logGlobal.printFunc).2
    printTime := (getBool file globalSection "print_time".toList c.logGlobal.printTime).2
    logDirectory := (getValue file globalSection "log_directory".toList c.logGlobal.logDirectory).2 }
  logAsync := {
    ringBufferSizeKb := (getSize file asyncSection "ring_buffer_size_kb".toList c.logAsync.ringBufferSizeKb).2
    batchSizeKb := (getSize file asyncSection "batch_size_kb".toList c.logAsync.batchSizeKb).2
    maxFlushSize := (getSize file asyncSection "max_flush_size".toList c.logAsync.maxFlushSize).2 }
  logLevel := {
    msg := (getBool file levelSection "msg".toList c.logLevel.msg).2
    info := (getBool file levelSection "info".toList c.logLevel.info).2
    warn := (getBool file levelSection "warn".toList c.logLevel.warn).2
    debug := (getBool file levelSection "debug".toList c.logLevel.debug).2
    error := (getBool file levelSection "error".toList c.logLevel.error).2 }

def shouldLog (c : Configs.LogLevel) : LogLevel → Bool
  | .msg => c.msg
  | .info => c.info
  | .warn => c.warn
  | .debug => c.debug
  | .error => c.error

/-! ## Records -/

/-- The bytes of an ASCII string. -/
def bytes (s : String) : List UInt8 := s.toList.map fun c => UInt8.ofNat c.toNat

def levelToString : LogLevel → List UInt8
  | .msg => bytes "[MSG] "
  | .info => bytes "[INFO] "
  | .warn => bytes "[WARN] "
  | .debug => bytes "[DEBUG] "
  | .error => bytes "[ERROR] "

/-- What a call is about: the texts `LogCout` streams one behind the other, or what
`vsnprintf` makes of the format of `LogPrint`. -/
inductive Message where
  | cout (args : List (List UInt8))
  | print (formatted : List UInt8)

/-- The text streamed into the record. `vsnprintf` keeps 1023 bytes, and `oss << buffer` stops at a zero. -/
def Message.text : Message → List UInt8
  | cout args => args.flatten
  | print formatted => (formatted.take 1023).takeWhile (· ≠ 0)

/-- The arguments of `LogCout` and `LogPrint`. -/
structure Call where
  level : LogLevel
  func : List UInt8
  line : Nat
  message : Message

/-- `oss.str()`; `time` is what `CurrentTime` returned. -/
def Call.record (c : Call) (config : Configs.LogGlobal) (time : List UInt8) : List UInt8 :=
  time ++ bytes " " ++ levelToString c.level
    ++ (if config.printFunc then bytes "[" ++ c.func ++ bytes " " else [])
    ++ (if config.printLine then bytes "L" ++
      (Nat.toDigits 10 c.line).map (fun d => UInt8.ofNat d.toNat) ++ bytes "] " else [])
    ++ c.message.text ++ bytes "\n"

theorem Call.record_ne_nil (c : Call) (config : Configs.LogGlobal) (time : List UInt8) :
    c.record config time ≠ [] :=
  List.append_ne_nil_of_right_ne_nil _ (by decide)

/-! ## The threads -/

/-- Where `CustThreadProc` is; its `read_buffer` holds as many bytes as when it was made. -/
inductive Consumer where
  | starting
  | head (readBuffer : List UInt8)
  | body (readBuffer : List UInt8)
  | done

/-- How far `~Logger` is. -/
inductive Destructor where
  | notBegun
  | monitorStopped
  | custStopped
  | monitorJoined
  | custJoined

structure State (ι : Type) where
  config : Config
  ringBuffer : RingBuffer
  /-- `monitor_config_thread_running_` -/
  monitorRunning : Bool := true
  /-- `MonitorConfigChanges` has returned. -/
  monitorDone : Bool := false
  /-- `cust_thread_running_` -/
  custRunning : Bool := true
  consumer : Consumer := .starting
  destructor : Destructor := .notBegun
  /-- The threads in a call that passed `ShouldLog` and has not written its record. -/
  call : ι → Option Call := fun _ => none
  /-- The accepted records, one behind the other. -/
  accepted : List UInt8 := []
  /-- Those accepted before the destructor began. -/
  before : List UInt8 := []
  /-- All bytes passed to `file.write`. -/
  written : List UInt8 := []

section
variable {ι : Type}

/-- The ring of the constructor has its size from the defaults: the file is read later. -/
def initialRing : RingBuffer := .ofSize ({} : Configs.LogAsync).ringBufferSizeKb (by unfold maxSize; decide)

theorem initialRing_inv : initialRing.Inv := RingBuffer.ofSize_inv _ (by decide)

/-- After the constructor. -/
def Start (s : State ι) : Prop := ∃ file, s = { config := updateConfig file {}, ringBuffer := initialRing }

/-- One iteration of `CustThreadProc` with a ring that is not empty. `beyond` is what lies behind the end of
`read_buffer`, for a write that takes more bytes than it holds. -/
def State.consume (s : State ι) (readBuffer beyond : List UInt8) : State ι :=
  let availableToRead := s.ringBuffer.availableToRead
  let minReadBytes := min availableToRead s.config.logAsync.batchSizeKb
  if minReadBytes > 0 then
    let r := s.ringBuffer.readVector 1 readBuffer minReadBytes
    { s with
      ringBuffer := r.2
      consumer := .head r.1.2
      written := s.written ++ (r.1.2 ++ beyond).take minReadBytes }
  else { s with consumer := .head readBuffer }

variable [DecidableEq ι]

/-- `LogCout` and `LogPrint` behind `ShouldLog`. The result of `Write` says whether the record is accepted. -/
def State.log (s : State ι) (i : ι) (c : Call) (time : List UInt8) : State ι :=
  let record := c.record s.config.logGlobal time
  let s := { s with call := Function.update s.call i none }
  if c.level = .msg then s
  else
    let w := s.ringBuffer.write record
    { s with ringBuffer := w.2, accepted := if w.1 = record.length then s.accepted ++ record else s.accepted }

inductive Step : State ι → State ι → Prop
  /-- The monitor thread has found the file changed. -/
  | reload {s} (file : Option (List Char)) : s.monitorDone = false →
      Step s { s with config := updateConfig file s.config }
  | monitorExit {s} : s.monitorRunning = false → Step s { s with monitorDone := true }
  | shouldLog {s} (i : ι) (c : Call) : s.call i = none → shouldLog s.config.logLevel c.level = true →
      Step s { s with call := Function.update s.call i (some c) }
  /-- No `std::string` is longer than `maxSize`. -/
  | log {s} {i : ι} {c : Call} (time : List UInt8) : s.call i = some c →
      (c.record s.config.logGlobal time).length ≤ maxSize → Step s (s.log i c time)
  /-- The constructor of `read_buffer` throws above `maxSize`. -/
  | start {s} : s.consumer = .starting → s.config.logAsync.batchSizeKb ≤ maxSize →
      Step s { s with consumer := .head (List.replicate s.config.logAsync.batchSizeKb 0) }
  | loadRunning {s} {readBuffer : List UInt8} : s.consumer = .head readBuffer →
      Step s { s with consumer := if s.custRunning then .body readBuffer else .done }
  /-- `wait_for` gave up: the ring is empty. -/
  | timeout {s} {readBuffer : List UInt8} : s.consumer = .body readBuffer → s.ringBuffer.length = 0 →
      Step s { s with consumer := .head readBuffer }
  | consume {s} {readBuffer : List UInt8} (beyond : List UInt8) : s.consumer = .body readBuffer →
      s.ringBuffer.length ≠ 0 →
      beyond.length = min s.ringBuffer.availableToRead s.config.logAsync.batchSizeKb - readBuffer.length →
      Step s (s.consume readBuffer beyond)
  | stopMonitor {s} : s.destructor = .notBegun →
      Step s { s with monitorRunning := false, destructor := .monitorStopped, before := s.accepted }
  | stopCust {s} : s.destructor = .monitorStopped →
      Step s { s with custRunning := false, destructor := .custStopped }
  | joinMonitor {s} : s.destructor = .custStopped → s.monitorDone = true →
      Step s { s with destructor := .monitorJoined }
  | joinCust {s} : s.destructor = .monitorJoined → s.consumer = .done →
      Step s { s with destructor := .custJoined }

end

end Logger

end NebulaToolkit
