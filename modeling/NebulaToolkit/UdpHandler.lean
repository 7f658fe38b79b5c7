import NebulaToolkit.TcpHandler
/-!
# The UDP handler

`net::UdpHandler`: every pass of its loop that does not end it commits, calls
`Get` and schedules a task, whatever `Get` extracted, and also when `recvfrom`
failed.
-/

namespace NebulaToolkit

open Lib UnPacker

structure UdpHandler where
  fd : Int
  shouldClose : Bool := false
  cb : Option ExecCb := none
  unpacker : UnPacker
  packs : List (List UInt8) := []

namespace UdpHandler

def setCallback (h : UdpHandler) (cb : Option ExecCb) : UdpHandler := { h with cb := cb }

/-- `HandleEvent` up to its loop; the flag says whether it enters it. -/
def handleEvent (h : UdpHandler) (event : Event) : Bool × UdpHandler :=
  if event.eventFlags &&& EventFlags.kError ≠ 0 then (false, { h with shouldClose := true })
  else (event.eventFlags &&& EventFlags.kReadable ≠ 0, h)

/-- `CommitWriteSize(len)` with `len` the -1 of a failed `recvfrom`. -/
def commitFailed (u : UnPacker) : UnPacker := { u with toRingBuffer := (u.commitWriteSize (2 ^ 64 - 1)).2 }

structure System where
  handler : UdpHandler
  /-- The reactor thread is in the loop of `HandleEvent`. -/
  reading : Bool := false
  /-- Scheduled tasks still to run. All of them are the same: `cb_(packs_)`. -/
  tasks : Nat := 0

inductive Step : System → System → Prop
  | handleEvent {s : System} (event : Event) : s.reading = false →
      Step s { s with handler := (s.handler.handleEvent event).2, reading := (s.handler.handleEvent event).1 }
  | bufferFull {s : System} : s.reading = true → s.handler.unpacker.getLinearWriteSpace.2 = 0 →
      Step s { s with reading := false }
  | wouldBlock {s : System} : s.reading = true → s.handler.unpacker.getLinearWriteSpace.2 ≠ 0 →
      Step s { s with reading := false }
  /-- A datagram, possibly empty, as much of it as the window takes. -/
  | recv {s : System} {buf : List UInt8} {packs : List (List UInt8)} {u' : UnPacker} : s.reading = true →
      s.handler.unpacker.getLinearWriteSpace.2 ≠ 0 → buf.length ≤ s.handler.unpacker.getLinearWriteSpace.2 →
      (TcpHandler.filled s.handler.unpacker buf).Gets packs u' →
      Step s { s with handler := { s.handler with unpacker := u', packs := packs }, tasks := s.tasks + 1 }
  /-- An error other than "try again": the loop goes on. -/
  | recvFails {s : System} {packs : List (List UInt8)} {u' : UnPacker} : s.reading = true →
      s.handler.unpacker.getLinearWriteSpace.2 ≠ 0 → (commitFailed s.handler.unpacker).Gets packs u' →
      Step s { s with
        handler := { s.handler with shouldClose := true, unpacker := u', packs := packs }
        tasks := s.tasks + 1 }
  /-- Without a callback the call throws, and the packets stay. -/
  | runTask {s : System} : s.tasks ≠ 0 →
      Step s { s with
        handler := { s.handler with packs := (s.handler.cb.getD id) s.handler.packs }
        tasks := s.tasks - 1 }

end UdpHandler

end NebulaToolkit
