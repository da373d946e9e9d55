import WebSocket.Endpoint.Writer

/-!
Handing in writes. A call is checked at once; if it is accepted, a job is queued and the number of
the write is given back.
-/

namespace WebSocket.Endpoint

/-- The state after a call, and the number of the write or the reason for refusing it. -/
abbrev Attempt := Endpoint × Except Refusal Nat

def queueCapacity : Nat := 8

def drawKey (e : Endpoint) : Option Key × Endpoint :=
  if e.config.role.masksOutgoing then
    (some (e.keys e.outbox.keysDrawn),
      { e with outbox := { e.outbox with keysDrawn := e.outbox.keysDrawn + 1 } })
  else (none, e)

def enqueue (e : Endpoint) (kind : JobKind) (header : Option Header) (data : Bytes)
    (mask : Option Key) (offset owed : Nat) (last : Bool) : Attempt :=
  match e.writer.state with
  | .stopped => (e, .error .connectionClosed)
  | _ =>
    if queueCapacity ≤ e.outbox.queue.length then (e, .error .queueFull)
    else
      let serial := e.outbox.nextSerial
      ({ e with
          outbox :=
            { e.outbox with
              slots := e.outbox.slots.set kind true
              nextSerial := serial + 1
              queue :=
                e.outbox.queue ++ [⟨serial, kind, header, data, mask, offset, owed, last⟩] } },
        .ok serial)

def enqueueControl (e : Endpoint) (kind : JobKind) (opcode : Opcode) (payload : Bytes)
    (last : Bool) : Attempt :=
  let (key, e) := e.drawKey
  e.enqueue kind (some (.plain true opcode payload.length.toUInt64 key)) payload key 0 0 last

/-- Why nothing new may be handed in: nothing may follow this end's close frame. -/
def unwritable (e : Endpoint) : Option Refusal :=
  if e.life.closed then some .connectionClosed
  else if e.life.closing then some .closeSent
  else none

def writeFirstChunk (e : Endpoint) (frameLength : UInt64) (chunk : Bytes) (last binary : Bool) :
    Attempt :=
  match e.unwritable with
  | some r => (e, .error r)
  | none =>
    if frameLength.toNat < chunk.length then (e, .error .chunkOverFrame)
    else if e.outbox.slots.isBusy .message then (e, .error .writePending)
    else if 0 < e.outbox.frame.remaining then (e, .error .frameUnfinished)
    else
      let opcode : Opcode :=
        if e.outbox.frame.messageOpen then .continuation else if binary then .binary else .text
      let (key, e) := e.drawKey
      let owed := frameLength.toNat - chunk.length
      match e.enqueue .message (some (.plain last opcode frameLength key)) chunk key 0 owed
          false with
      | (e, .error r) => (e, .error r)
      | (e, .ok serial) =>
        ({ e with outbox := { e.outbox with frame := ⟨owed, chunk.length, key, !last⟩ } },
          .ok serial)

/-- A further part of a frame is taken even after a close call, so that the frame can be
completed. -/
def writeContinuation (e : Endpoint) (chunk : Bytes) : Attempt :=
  if e.life.closed then (e, .error .connectionClosed)
  else if e.outbox.slots.isBusy .continuation then (e, .error .writePending)
  else
    let frame := e.outbox.frame
    if frame.remaining = 0 then (e, .error .noFrame)
    else if frame.remaining < chunk.length then (e, .error .chunkOverRemaining)
    else
      let owed := frame.remaining - chunk.length
      match e.enqueue .continuation none chunk frame.mask frame.offset owed false with
      | (e, .error r) => (e, .error r)
      | (e, .ok serial) =>
        ({ e with
            outbox :=
              { e.outbox with
                frame := { frame with remaining := owed, offset := frame.offset + chunk.length } } },
          .ok serial)

def writeControl (e : Endpoint) (kind : JobKind) (opcode : Opcode) (payload : Bytes) : Attempt :=
  match e.unwritable with
  | some r => (e, .error r)
  | none =>
    if maxControlPayload < payload.length then (e, .error .controlTooLong)
    else if e.outbox.slots.isBusy kind then (e, .error .writePending)
    else e.enqueueControl kind opcode payload false

def armTimer (e : Endpoint) : Endpoint :=
  -- a timer without delay waits for the writer, if that is about to go on
  let timer := Timer.after e.life.clock e.config.closeTimeout.toNat e.writerStep.isSome
  { e with life := { e.life with timer := some timer } }

def writeClose (e : Endpoint) (code : CloseCode) (reason : String) (timed : Bool) : Attempt :=
  if e.life.closed then (e, .error .connectionClosed)
  else
    match ClosePayload.encode code reason with
    | .error r => (e, .error r)
    | .ok payload =>
      if e.outbox.slots.isBusy .close then (e, .error .writePending)
      else if e.life.closing then (e, .error .closeInProgress)
      else if !timed then (e, .error .noTimer)
      else
        -- the timer is armed first, since no job is refused from here on
        let e := e.armTimer
        { e with life := { e.life with closing := true } }.enqueueControl .close .close payload
          false

def write (e : Endpoint) : WriteCall → Attempt
  | .firstChunk frameLength chunk last binary => e.writeFirstChunk frameLength chunk last binary
  | .continuation chunk => e.writeContinuation chunk
  | .message data binary => e.writeFirstChunk data.length.toUInt64 data true binary
  | .ping payload => e.writeControl .ping .ping payload
  | .pong payload => e.writeControl .pong .pong payload
  | .close code reason timed => e.writeClose code reason timed

def writeAll (e : Endpoint) : List WriteCall → Endpoint × List (Except Refusal Nat)
  | [] => (e, [])
  | c :: cs =>
    let (e, r) := e.write c
    let (e, rs) := e.writeAll cs
    (e, r :: rs)

def queuePong (e : Endpoint) (payload : Bytes) : Attempt :=
  match e.unwritable with
  | some r => (e, .error r)
  | none =>
    if e.outbox.slots.isBusy .pong then (e, .error .writePending)
    else e.enqueueControl .pong .pong payload false

/-- Queues a close frame after which the connection is torn down: the answer to the peer's close, or
to a violation. -/
def queueFinalClose (e : Endpoint) (code : CloseCode) (reason : String) : Attempt :=
  if e.life.closed then (e, .error .connectionClosed)
  else
    match ClosePayload.encode code reason with
    | .error r => (e, .error r)
    | .ok payload =>
      if e.outbox.slots.isBusy .close then (e, .error .writePending)
      else e.armTimer.enqueueControl .close .close payload true

end WebSocket.Endpoint
