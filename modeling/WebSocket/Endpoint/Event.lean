import WebSocket.Endpoint.Schedule

/-!
What can happen to an end: its application calls, something comes in, the stream below changes, or
time goes by. After each event the end runs until it is at rest.
-/

namespace WebSocket

inductive Event where
  | write (c : WriteCall)
  | read (m : ReadMode)
  | feed (b : Bytes)
  | endInput
  | failInput (f : Fault)
  /-- The stream may take so many bytes more, or any number. -/
  | allow (n : Option Nat)
  | failWrites (f : Fault)
  | takeNothing
  | failFlushes (f : Fault)
  | advance (milliseconds : Nat)
  | drop
  deriving DecidableEq, Repr

inductive Reply where
  | done
  | accepted (serial : Nat)
  | refused (r : Refusal)
  /-- There is no one to make the call, or a read is outstanding. -/
  | unavailable
  deriving DecidableEq, Repr

namespace Endpoint

/-- Whether the application can use the connection itself, and not only write to it. -/
def isAtHand (e : Endpoint) : Bool := e.held && e.reader.reading.isNone

def pending (e : Endpoint) : List JobKind := e.outbox.slots.busyKinds

def onInput (e : Endpoint) (f : Input → Input) : Endpoint :=
  { e with reader := { e.reader with input := f e.reader.input } }

def onTransport (e : Endpoint) (f : Transport → Transport) : Endpoint :=
  { e with transport := f e.transport }

/-- An event itself, before the end goes on. -/
def accept (e : Endpoint) : Event → Endpoint × Reply
  | .write c =>
    if e.held then
      match e.write c with
      | (e, .ok serial) => (e, .accepted serial)
      | (e, .error r) => (e, .refused r)
    else (e, .unavailable)
  | .read m =>
    if e.isAtHand then ({ e with reader := { e.reader with reading := some m } }, .done)
    else (e, .unavailable)
  | .feed b => (e.onInput fun i => { i with bytes := i.bytes ++ b }, .done)
  | .endInput => (e.onInput fun i => { i with ended := true }, .done)
  | .failInput f => (e.onInput fun i => { i with fault := some f }, .done)
  | .allow n => (e.onTransport fun t => { t with quota := raise t.quota n }, .done)
  | .failWrites f => (e.onTransport fun t => { t with writeFault := some f }, .done)
  | .takeNothing => (e.onTransport fun t => { t with takesNothing := true }, .done)
  | .failFlushes f => (e.onTransport fun t => { t with flushFault := some f }, .done)
  | .advance n => ({ e with life := { e.life with clock := e.life.clock + n } }, .done)
  | .drop => ({ e with held := false, reader := { e.reader with reading := none } }, .done)
where
  raise : Option Nat → Option Nat → Option Nat
    | some q, some n => some (q + n)
    | _, _ => none

/-- Deals with an event: the reader goes on first. -/
def handle (e : Endpoint) (ev : Event) : Endpoint × Reply :=
  let (e, r) := e.accept ev
  ((e.giveTurn .reader).settle, r)

/-- Starts an end and tells the application, whose writes come before all else. -/
def start (config : Config) (callbacks : Callbacks) (keys : Nat → Key) (transport : Transport) :
    Endpoint × List (Except Refusal Nat) :=
  let (e, writes) := (fresh config callbacks keys transport).writeAll (callbacks.onConnect.getD [])
  (e.settle, writes)

end Endpoint

end WebSocket
