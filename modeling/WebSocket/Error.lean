import WebSocket.CloseCode
import WebSocket.Fault

/-!
What can go wrong on a connection. A `Violation` is a breach of the protocol by the peer, with the
close status that answers it. A `Refusal` is a reason not to take a call. Both are causes; `Error`
is what an application is told.
-/

namespace WebSocket

inductive JsonFault where
  | notJson
  | endsEarly
  | wrongShape
  deriving DecidableEq, Repr

def JsonFault.category : JsonFault → String
  | notJson => "syntax"
  | endsEarly => "eof"
  | wrongShape => "data"

inductive Error where
  | fault (f : Fault)
  | json (f : JsonFault)
  | violation (code : CloseCode) (reason : String)
  | invalidArgument (text : String)
  | notPermitted (text : String)
  | aborted
  | timer (text : String)
  | closed
  deriving DecidableEq, Repr

namespace Error

def message : Error → String
  | fault f => "I/O error: " ++ f.message
  | json f => "JSON error: " ++ f.category
  | violation code reason => "Protocol error (" ++ code.text ++ "): " ++ reason
  | invalidArgument text => "Invalid argument: " ++ text
  | notPermitted text => "Operation not permitted: " ++ text
  | aborted => "Operation aborted"
  | timer text => "Timer error: " ++ text
  | closed => "Connection closed"

/-- The status to close a connection with after this error. -/
def closeCode : Error → CloseCode
  | violation code _ => code
  | closed => .normal
  | _ => .internalError

def isViolation : Error → Bool
  | violation .. => true
  | _ => false

end Error

inductive Violation where
  | reservedBits
  | reservedOpcode
  | maskedByServer
  | unmaskedByClient
  | lengthTopBit
  | fragmentedControl
  | controlTooLong
  | frameTooBig
  | dataInsideMessage
  | strayContinuation
  | oneByteClose
  | closeStatus
  | closeReasonNotUtf8
  | unsupportedKind
  | malformedText
  | unfinishedText
  deriving DecidableEq, Repr

namespace Violation

def code : Violation → CloseCode
  | frameTooBig => .messageTooBig
  | unsupportedKind => .unsupported
  | closeReasonNotUtf8 | malformedText | unfinishedText => .invalidPayload
  | _ => .protocolError

def reason : Violation → String
  | reservedBits => "reserved bits set"
  | reservedOpcode => "reserved opcode"
  | maskedByServer => "masked frame from server"
  | unmaskedByClient => "unmasked frame from client"
  | lengthTopBit => "payload length has most significant bit set"
  | fragmentedControl => "fragmented control frame"
  | controlTooLong => "control frame payload too long"
  | frameTooBig => "frame exceeds maximum size"
  | dataInsideMessage => "data frame inside fragmented message"
  | strayContinuation => "continuation frame without message"
  | oneByteClose => "close payload of one byte"
  | closeStatus => "invalid close status"
  | closeReasonNotUtf8 => "close reason not utf-8"
  | unsupportedKind => "unsupported message type"
  | malformedText => "invalid utf-8 in text message"
  | unfinishedText => "text message ends inside a utf-8 sequence"

def toError (v : Violation) : Error := .violation v.code v.reason

end Violation

/-- The reasons for which a call is refused. A refused call has no effect. -/
inductive Refusal where
  | connectionClosed
  | closeSent
  | closeInProgress
  | writePending
  | frameUnfinished
  | noFrame
  | chunkOverFrame
  | chunkOverRemaining
  | controlTooLong
  | closeStatus
  | closeReasonTooLong
  | noTimer
  | queueFull
  | noRuntime
  deriving DecidableEq, Repr

def Refusal.toError : Refusal → Error
  | connectionClosed => .closed
  | closeSent => .notPermitted "close frame already sent"
  | closeInProgress => .notPermitted "close already in progress"
  | writePending => .notPermitted "a write of this kind is pending"
  | frameUnfinished => .notPermitted "previous frame not completely written"
  | noFrame => .notPermitted "no frame in progress"
  | chunkOverFrame => .invalidArgument "chunk longer than frame"
  | chunkOverRemaining => .invalidArgument "chunk exceeds remaining frame length"
  | controlTooLong => .invalidArgument "control payload exceeds 125 bytes"
  | closeStatus => .invalidArgument "close status cannot be sent"
  | closeReasonTooLong => .invalidArgument "close reason too long"
  | noTimer => .timer "no tokio runtime to run the close timer"
  | queueFull => .notPermitted "write queue full"
  | noRuntime => .invalidArgument "connection must be started within a tokio runtime"

end WebSocket
