import WebSocket.Callbacks
import WebSocket.Config
import WebSocket.Control
import WebSocket.Header.Progress
import WebSocket.Message
import WebSocket.Slots
import WebSocket.Transport
import WebSocket.Utf8.Validator

/-!
One end of a connection. Calls put jobs into a queue; the writer takes them from there and puts them
on the wire; the reader takes frames from the input, hands out messages and answers control frames.
The close timer is the third party. All that has happened is kept, oldest first.
-/

namespace WebSocket

/-- A write that has been accepted. -/
structure Job where
  serial : Nat
  kind : JobKind
  /-- Absent for a further part of a frame. -/
  header : Option Header
  data : Bytes
  mask : Option Key
  /-- Where the data starts in the payload of its frame. -/
  offset : Nat
  /-- How many payload bytes of the frame are left to come after this job. -/
  owed : Nat
  /-- Whether the connection is torn down once this job is written. -/
  last : Bool
  deriving DecidableEq, Repr

namespace Job

def payload (j : Job) : Bytes := maskWith j.mask j.offset j.data

def bytes (j : Job) : Bytes := ((j.header.map Header.encode).getD []) ++ j.payload

end Job

inductive Outcome where
  | written
  | failed (f : Fault)
  | aborted
  deriving DecidableEq, Repr

def Outcome.result : Outcome → Except Error Unit
  | written => .ok ()
  | failed f => .error (.fault f)
  | aborted => .error .aborted

structure Completion where
  job : Job
  outcome : Outcome
  deriving DecidableEq, Repr

/-- The data frame that calls are handing in. -/
structure OutgoingFrame where
  remaining : Nat
  offset : Nat
  mask : Option Key
  messageOpen : Bool
  deriving DecidableEq, Repr

def OutgoingFrame.none : OutgoingFrame := ⟨0, 0, .none, false⟩

/-- The close timer. Armed with no delay, it goes off at once, but after the writer if that was
about to run. -/
structure Timer where
  deadline : Nat
  afterWriter : Bool
  deriving DecidableEq, Repr

namespace Timer

/-- The longest that a timer runs, in milliseconds: thirty years of 365 days. -/
def longest : Nat := 30 * 365 * 24 * 60 * 60 * 1000

/-- The last moment at which a timer is due. Moments are counted in 64 bits, and the two highest
counts are none. -/
def latest : Nat := UInt64.size - 3

def after (clock timeout : Nat) (afterWriter : Bool) : Timer :=
  ⟨min (clock + min timeout longest) latest, afterWriter⟩

end Timer

/-- What all parties see of the connection. -/
structure Life where
  closed : Bool
  closing : Bool
  /-- Whether an error has been reported; there is one report at most. -/
  reported : Bool
  errors : List Error
  hookRuns : Nat
  clock : Nat
  timer : Option Timer

structure Outbox where
  slots : Slots
  frame : OutgoingFrame
  nextSerial : Nat
  keysDrawn : Nat
  queue : List Job

inductive WriterState where
  | idle
  | sending (job : Job) (unsent : Bytes)
  | stopped

structure Writer where
  state : WriterState
  /-- Jobs held back until the frame on the wire is complete. -/
  deferred : List Job
  /-- Whether a data frame is on the wire in part. -/
  frameOpen : Bool
  closeSent : Bool
  completions : Array Completion

structure IncomingFrame where
  header : Header
  kind : MessageKind
  remaining : Nat
  offset : Nat
  deriving DecidableEq, Repr

/-- What the reader reads next, or waits for. -/
inductive Stage where
  | header (p : HeaderProgress)
  | data (f : IncomingFrame)
  | control (h : Header)
  /-- A ping is to be answered as soon as the pong before it is written. -/
  | answer (payload : Bytes)
  deriving DecidableEq, Repr

structure Chunk where
  data : Bytes
  lastChunk : Bool
  lastFrame : Bool
  binary : Bool
  deriving DecidableEq, Repr

def Chunk.completes (c : Chunk) : Bool := c.lastChunk && c.lastFrame

inductive ReadResult where
  | chunk (c : Chunk)
  | ended
  | failed (e : Error)
  deriving DecidableEq, Repr

/-- A control frame that the reader has handled, and what came of the calls that the callback
made. -/
structure ControlReport where
  frame : Control
  writes : List (Except Refusal Nat)

inductive ReadMode where
  | once
  | all
  deriving DecidableEq, Repr

structure Reader where
  input : Input
  stage : Stage
  sequencing : Sequencing
  text : Utf8.Validator
  lastPong : Option Nat
  finished : Bool
  reading : Option ReadMode
  reads : Array ReadResult
  controls : Array ControlReport

/-- Who goes on when both the reader and the writer can. -/
inductive Turn where
  | reader
  | writer
  deriving DecidableEq, Repr

structure Endpoint where
  config : Config
  callbacks : Callbacks
  /-- The mask keys in the order in which they are drawn. -/
  keys : Nat → Key
  held : Bool
  life : Life
  outbox : Outbox
  writer : Writer
  transport : Transport
  reader : Reader
  turn : Turn

namespace Endpoint

def fresh (config : Config) (callbacks : Callbacks) (keys : Nat → Key) (transport : Transport) :
    Endpoint where
  config
  callbacks
  keys
  held := true
  life := ⟨false, false, false, [], 0, 0, none⟩
  outbox := ⟨.free, .none, 0, 0, []⟩
  writer := ⟨.idle, [], false, false, #[]⟩
  transport
  reader := ⟨.empty, .header .start, .initial, .new, none, false, none, #[], #[]⟩
  turn := .writer

def setWriterState (e : Endpoint) (state : WriterState) : Endpoint :=
  { e with writer := { e.writer with state } }

def setFrameOpen (e : Endpoint) (frameOpen : Bool) : Endpoint :=
  { e with writer := { e.writer with frameOpen } }

def setDeferred (e : Endpoint) (deferred : List Job) : Endpoint :=
  { e with writer := { e.writer with deferred } }

def setQueue (e : Endpoint) (queue : List Job) : Endpoint :=
  { e with outbox := { e.outbox with queue } }

/-- Tears the connection down, once. -/
def teardown (e : Endpoint) : Endpoint :=
  if e.life.closed then e
  else
    { e with life := { e.life with closed := true, timer := none, hookRuns := e.life.hookRuns + 1 } }

def report (e : Endpoint) (err : Error) : Endpoint :=
  if e.life.reported then e
  else { e with life := { e.life with reported := true, errors := e.life.errors ++ [err] } }

/-- Whether the writer has yet to deal with the write of the given number. -/
def isOutstanding (e : Endpoint) (serial : Nat) : Bool :=
  e.outbox.queue.any (·.serial == serial) || e.writer.deferred.any (·.serial == serial) ||
    match e.writer.state with
    | .sending job _ => job.serial == serial
    | _ => false

def describe (e : Endpoint) : String :=
  "Connection \x7b role: " ++ e.config.role.title ++ ", closed: " ++ shown e.life.closed ++
    ", finished: " ++ shown e.reader.finished ++ " \x7d"
where
  shown (b : Bool) : String := if b then "true" else "false"

def describeWriter (e : Endpoint) : String :=
  "WriterHandle \x7b role: " ++ e.config.role.title ++ ", closed: " ++
    (if e.life.closed then "true" else "false") ++ " \x7d"

def heardErrors (e : Endpoint) : List Error := if e.callbacks.onError then e.life.errors else []

def heardControls (e : Endpoint) : Array ControlReport :=
  if e.callbacks.onControl.isSome then e.reader.controls else #[]

def heardCloses (e : Endpoint) : Nat := if e.callbacks.closeHook then e.life.hookRuns else 0

end Endpoint

end WebSocket
