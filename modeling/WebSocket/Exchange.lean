import WebSocket.Endpoint.Event

/-!
Two ends side by side. Each has its own stream, and what one has written is passed on to the other
in parts of any size. They have one clock.
-/

namespace WebSocket

inductive Side where
  | first
  | second
  deriving DecidableEq, Repr

def Side.other : Side → Side
  | first => second
  | second => first

structure Station where
  /-- Absent if no end could be started. -/
  endpoint : Option Endpoint
  /-- How many bytes of what the end has written have been passed on. -/
  passedOn : Nat

namespace Station

def vacant : Station := ⟨none, 0⟩

/-- Starts an end if there is a runtime to run it, and gives the results of the writes that the
application makes on being told. -/
def start (hasRuntime : Bool) (config : Config) (callbacks : Callbacks) (keys : Nat → Key)
    (transport : Transport) : Station × Except Refusal (List (Except Refusal Nat)) :=
  if hasRuntime then
    let (e, writes) := Endpoint.start config callbacks keys transport
    (⟨some e, 0⟩, .ok writes)
  else (vacant, .error .noRuntime)

/-- Deals with an event. Where there is no end, no call can be made. -/
def handle (s : Station) (ev : Event) : Station × Reply :=
  match s.endpoint with
  | some e =>
    let (e, r) := e.handle ev
    ({ s with endpoint := some e }, r)
  | none =>
    match ev with
    | .write _ | .read _ => (s, .unavailable)
    | _ => (s, .done)

def undelivered (s : Station) : Bytes :=
  match s.endpoint with
  | some e => (e.transport.wire.extract s.passedOn e.transport.wire.size).toList
  | none => []

end Station

structure Exchange where
  first : Station
  second : Station

namespace Exchange

def station (x : Exchange) : Side → Station
  | .first => x.first
  | .second => x.second

def setStation (x : Exchange) (side : Side) (s : Station) : Exchange :=
  match side with
  | .first => { x with first := s }
  | .second => { x with second := s }

@[simp] theorem station_setStation (x : Exchange) (side side' : Side) (s : Station) :
    (x.setStation side s).station side' = if side' = side then s else x.station side' := by
  cases side <;> cases side' <;> rfl

def handleAlone (x : Exchange) (side : Side) (ev : Event) : Exchange × Reply :=
  let (s, r) := (x.station side).handle ev
  (x.setStation side s, r)

/-- Deals with an event at one side. Time goes by on both. -/
def handle (x : Exchange) (side : Side) (ev : Event) : Exchange × Reply :=
  let (x, r) := x.handleAlone side ev
  match ev with
  | .advance _ => ((x.handleAlone side.other ev).1, r)
  | _ => (x, r)

/-- Passes on what one side has written to the other: so many bytes at most, or all. The result
has the count of the bytes. -/
def deliver (x : Exchange) (side : Side) (limit : Option Nat) : Exchange × Nat :=
  let s := x.station side
  let all := s.undelivered
  let b := (limit.map all.take).getD all
  let x := x.setStation side { s with passedOn := s.passedOn + b.length }
  ((x.handleAlone side.other (.feed b)).1, b.length)

end Exchange

end WebSocket
