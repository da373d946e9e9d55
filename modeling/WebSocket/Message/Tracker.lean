import WebSocket.Message

/-!
The order of frames followed by steps that write to where the sequence stands. A step that meets a
violation ends there, and what it has written by then stays written. Frames may go on coming after
it.
-/

namespace WebSocket

abbrev Tracking := ExceptT Violation (StateM Sequencing)

def Opcode.kind? : Opcode → Option MessageKind
  | text => some .text
  | binary => some .binary
  | continuation | close | ping | pong => none

namespace Sequencing

def trackStart (kind : MessageKind) (fin : Bool) : Tracking (Option MessageKind) := do
  if (← get).isFragmented then
    throw .dataInsideMessage
  unless fin do
    set (⟨some kind⟩ : Sequencing)
  return some kind

def track (opcode : Opcode) (fin : Bool) : Tracking (Option MessageKind) := do
  match opcode with
  | .close | .ping | .pong =>
    unless fin do
      throw .fragmentedControl
    return none
  | .text => trackStart .text fin
  | .binary => trackStart .binary fin
  | .continuation =>
    match (← get).unfinished with
    | none => throw .strayContinuation
    | some kind =>
      if fin then
        set (⟨none⟩ : Sequencing)
      return some kind

/-- The answer to a frame, and where the sequence stands after it. -/
def onFrame (s : Sequencing) (opcode : Opcode) (fin : Bool) :
    Except Violation (Option MessageKind) × Sequencing :=
  (track opcode fin).run.run s

/-- The answers to frames that come one after the other, and where the sequence stands after the
last. -/
def onFrames (s : Sequencing) :
    List (Opcode × Bool) → List (Except Violation (Option MessageKind)) × Sequencing
  | [] => ([], s)
  | (opcode, fin) :: rest =>
    let (answer, s) := s.onFrame opcode fin
    let (answers, s) := s.onFrames rest
    (answer :: answers, s)

def accepted (s : Sequencing) : List (Opcode × Bool) → List (Opcode × Bool)
  | [] => []
  | (opcode, fin) :: rest =>
    match s.onFrame opcode fin with
    | (.ok _, s) => (opcode, fin) :: s.accepted rest
    | (.error _, s) => s.accepted rest

end Sequencing

end WebSocket
