import WebSocket.Error

/-!
One write of each kind may be outstanding at a time. A slot table says which kinds are taken.
-/

namespace WebSocket

/-- The kinds of writes: the first part of a data frame, a further part of it, and the three
control frames. -/
inductive JobKind where
  | message
  | continuation
  | ping
  | pong
  | close
  deriving DecidableEq, Repr

namespace JobKind

def all : List JobKind := [message, continuation, ping, pong, close]

def name : JobKind → String
  | message => "message"
  | continuation => "continuation"
  | ping => "ping"
  | pong => "pong"
  | close => "close"

def ofName? (s : String) : Option JobKind := all.find? (·.name = s)

def title : JobKind → String
  | message => "MessageFirstChunk"
  | continuation => "ContinuationChunk"
  | ping => "Ping"
  | pong => "Pong"
  | close => "Close"

end JobKind

structure Slots where
  message : Bool
  continuation : Bool
  ping : Bool
  pong : Bool
  close : Bool
  deriving DecidableEq, Repr

namespace Slots

def free : Slots := ⟨false, false, false, false, false⟩

def isBusy (s : Slots) : JobKind → Bool
  | .message => s.message
  | .continuation => s.continuation
  | .ping => s.ping
  | .pong => s.pong
  | .close => s.close

def set (s : Slots) (kind : JobKind) (busy : Bool) : Slots :=
  match kind with
  | .message => { s with message := busy }
  | .continuation => { s with continuation := busy }
  | .ping => { s with ping := busy }
  | .pong => { s with pong := busy }
  | .close => { s with close := busy }

def acquire? (s : Slots) (kind : JobKind) : Except Refusal Slots :=
  if s.isBusy kind then .error .writePending else .ok (s.set kind true)

def release (s : Slots) (kind : JobKind) : Slots := s.set kind false

def busyKinds (s : Slots) : List JobKind := JobKind.all.filter s.isBusy

@[simp] theorem isBusy_set (s : Slots) (k k' : JobKind) (b : Bool) :
    (s.set k b).isBusy k' = if k' = k then b else s.isBusy k' := by
  cases k <;> cases k' <;> rfl

end Slots

end WebSocket
