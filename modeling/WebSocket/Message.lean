import WebSocket.Error
import WebSocket.Opcode

/-!
Messages and their frames. A message is one text or binary frame and then continuation frames, of
which the last frame alone is final. Control frames may stand anywhere between and change nothing.
-/

namespace WebSocket

inductive MessageKind where
  | text
  | binary
  deriving DecidableEq, Repr

namespace MessageKind

def isBinary : MessageKind → Bool
  | text => false
  | binary => true

def opcode : MessageKind → Opcode
  | text => .text
  | binary => .binary

def name : MessageKind → String
  | text => "text"
  | binary => "binary"

end MessageKind

/-- Where a sequence of frames stands: the kind of the message begun and not yet ended, if any. -/
structure Sequencing where
  unfinished : Option MessageKind
  deriving DecidableEq, Repr

namespace Sequencing

def initial : Sequencing := ⟨none⟩

def isFragmented (s : Sequencing) : Bool := s.unfinished.isSome

def opcode (s : Sequencing) : Option Opcode := s.unfinished.map MessageKind.opcode

def start (s : Sequencing) (kind : MessageKind) (fin : Bool) :
    Except Violation (Option MessageKind × Sequencing) :=
  if s.isFragmented then .error .dataInsideMessage
  else .ok (some kind, if fin then s else ⟨some kind⟩)

/-- Takes the next frame: the kind of the message that it belongs to, none for a control frame, and
where the sequence stands after it. -/
def accept (s : Sequencing) (opcode : Opcode) (fin : Bool) :
    Except Violation (Option MessageKind × Sequencing) :=
  match opcode with
  | .close | .ping | .pong => if fin then .ok (none, s) else .error .fragmentedControl
  | .text => s.start .text fin
  | .binary => s.start .binary fin
  | .continuation =>
    match s.unfinished with
    | none => .error .strayContinuation
    | some kind => .ok (some kind, if fin then ⟨none⟩ else s)

end Sequencing

end WebSocket
