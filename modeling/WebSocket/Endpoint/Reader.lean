import WebSocket.Endpoint.Submission

/-!
The reader. It reads headers, hands out the payloads of data frames in parts, and deals with control
frames: pings are answered in order, a close ends the connection. A violation is answered with a
close frame.
-/

namespace WebSocket.Endpoint

/-- Ends the current read, and all later ones. -/
def endRead (e : Endpoint) (r : ReadResult) : Endpoint :=
  { e with
    reader :=
      { e.reader with
        finished := true
        reading := none
        reads := e.reader.reads.push r } }

/-- Queues a close frame that ends the connection, or tears it down at once if that is refused. -/
def closeDown (e : Endpoint) (code : CloseCode) (reason : String) : Endpoint :=
  match e.queueFinalClose code reason with
  | (e, .ok _) => e
  | (e, .error _) => e.teardown

def failRead (e : Endpoint) (f : Fault) : Endpoint :=
  ((e.report (.fault f)).teardown).endRead (.failed (.fault f))

/-- Ends the connection after a violation. It is answered, unless this end is closing anyway. -/
def rejectPeer (e : Endpoint) (v : Violation) : Endpoint :=
  let e := e.report v.toError
  let e := if e.life.closing then e.teardown else e.closeDown v.code v.reason
  e.endRead (.failed v.toError)

def setStage (e : Endpoint) (stage : Stage) : Endpoint :=
  { e with reader := { e.reader with stage } }

def setInput (e : Endpoint) (rest : Bytes) : Endpoint :=
  { e with reader := { e.reader with input := { e.reader.input with bytes := rest } } }

def deliver (e : Endpoint) (c : Chunk) : Endpoint :=
  { e with
    reader :=
      { e.reader with
        reading := if e.reader.reading = some .all then some .all else none
        reads := e.reader.reads.push (.chunk c) } }

def accepts (c : Config) : MessageKind → Bool
  | .text => c.acceptText
  | .binary => c.acceptBinary

def openFrame (e : Endpoint) (h : Header) : Endpoint :=
  match e.reader.sequencing.accept h.opcode h.fin with
  | .error v => e.rejectPeer v
  | .ok (none, _) => e.setStage (.control h)
  | .ok (some kind, s) =>
    if accepts e.config kind then
      -- a continuation goes on with the text of its message
      let text := if h.opcode.isData then .new else e.reader.text
      { e with
        reader :=
          { e.reader with
            sequencing := s
            text
            stage := .data ⟨h, kind, h.payloadLength.toNat, 0⟩ } }
    else e.rejectPeer .unsupportedKind

def readHeaderPiece (e : Endpoint) (p : HeaderProgress) (piece : Bytes) : Endpoint :=
  match p.read ⟨e.config.role, e.config.maxFrameSize⟩ piece with
  | .error v => e.rejectPeer v
  | .ok (.more q) => e.setStage (.header q)
  | .ok (.done h) => e.openFrame h

/-- The stream has ended between two frames. That is an error inside a message and after a close of
this end's. -/
def endOfStream (e : Endpoint) : Endpoint :=
  if e.reader.sequencing.isFragmented then
    e.failRead (.unexpectedEof "stream ended inside a fragmented message")
  else if e.life.closing then
    e.failRead (.unexpectedEof "stream ended during the close handshake")
  else e.teardown.endRead .ended

def chunkLength (c : Config) (f : IncomingFrame) : Nat :=
  min f.remaining (max c.readChunkSize.toNat 1)

/-- Hands out a part of a text message, which has to stay well-formed and may not end inside a
character. -/
def deliverText (e : Endpoint) (c : Chunk) : Endpoint :=
  let (sound, text) := e.reader.text.feed c.data
  let e := { e with reader := { e.reader with text } }
  if !sound then e.rejectPeer .malformedText
  else if c.completes && !text.isComplete then e.rejectPeer .unfinishedText
  else e.deliver c

def readData (e : Endpoint) (f : IncomingFrame) (piece : Bytes) : Endpoint :=
  let remaining := f.remaining - piece.length
  let lastChunk := remaining == 0
  let chunk : Chunk :=
    ⟨maskWith f.header.mask f.offset piece, lastChunk, f.header.fin, f.kind.isBinary⟩
  let e := e.setStage
    (if lastChunk then .header .start
      else .data { f with remaining, offset := f.offset + piece.length })
  if f.kind.isBinary then e.deliver chunk else e.deliverText chunk

def notify (e : Endpoint) (c : Control) : Endpoint :=
  let (e, writes) := e.writeAll (e.callbacks.onControl.getD [])
  { e with reader := { e.reader with controls := e.reader.controls.push ⟨c, writes⟩ } }

/-- Deals with a control frame. The close that answers this end's close is not reported. -/
def handleControl (e : Endpoint) : Control → Endpoint
  | .close p =>
    if e.life.closing then e.teardown.endRead .ended
    else ((e.notify (.close p)).closeDown .goingAway "").endRead .ended
  | .ping payload => (e.notify (.ping payload)).setStage (.answer payload)
  | .pong payload => (e.notify (.pong payload)).setStage (.header .start)

def readControl (e : Endpoint) (h : Header) (piece : Bytes) : Endpoint :=
  match Control.parse h.opcode (maskWith h.mask 0 piece) with
  | .error v => e.rejectPeer v
  | .ok none => e.setStage (.header .start)
  | .ok (some c) => e.handleControl c

/-- Answers a ping. An answer that is refused is left out. -/
def answerPing (e : Endpoint) (payload : Bytes) : Endpoint :=
  let (e, r) := e.queuePong payload
  { e with reader := { e.reader with lastPong := r.toOption, stage := .header .start } }

/-- Whether the last automatic pong is still to be written. -/
def pongOutstanding (e : Endpoint) : Bool := e.reader.lastPong.any e.isOutstanding

/-- The reader's next step; none if it has to wait. A teardown is seen before all else. -/
def readerStep (e : Endpoint) : Option Endpoint :=
  match e.reader.reading with
  | none => none
  | some _ =>
    if e.reader.finished || e.life.closed then some (e.endRead .ended)
    else
      match e.reader.stage with
      | .header p =>
        match e.reader.input.take p.need with
        | .waits => none
        | .failed f => some (e.failRead f)
        | .ended =>
          if p = .start then some e.endOfStream
          else some (e.failRead (.unexpectedEof "stream ended inside a frame header"))
        | .got piece rest => some ((e.setInput rest).readHeaderPiece p piece)
      | .data f =>
        match e.reader.input.take (chunkLength e.config f) with
        | .waits => none
        | .failed f => some (e.failRead f)
        | .ended => some (e.failRead (.unexpectedEof "stream ended inside a frame payload"))
        | .got piece rest => some ((e.setInput rest).readData f piece)
      | .control h =>
        match e.reader.input.take h.payloadLength.toNat with
        | .waits => none
        | .failed f => some (e.failRead f)
        | .ended => some (e.failRead (.unexpectedEof "stream ended inside a frame payload"))
        | .got piece rest => some ((e.setInput rest).readControl h piece)
      | .answer payload => if e.pongOutstanding then none else some (e.answerPing payload)

end WebSocket.Endpoint
