import WebSocket.Error
import WebSocket.Header

/-!
Control frames and the payload of a close frame: nothing, or a status code in two bytes and then a
reason in UTF-8. Codes that may be received and codes that may be sent differ by one.
-/

namespace WebSocket

structure ClosePayload where
  /-- Absent when the close frame is empty. -/
  code : Option CloseCode
  reason : String
  deriving DecidableEq, Repr

namespace ClosePayload

/-- The longest reason in bytes: what a control frame has left beside the code. -/
def maxReason : Nat := maxControlPayload - 2

def parse : Bytes → Except Violation ClosePayload
  | [] => .ok ⟨none, ""⟩
  | [_] => .error .oneByteClose
  | a :: b :: reason =>
    let code : CloseCode := ⟨(beNat [a, b]).toUInt16⟩
    if code.isValid then
      match String.fromUTF8? reason.toByteArray with
      | some text => .ok ⟨some code, text⟩
      | none => .error .closeReasonNotUtf8
    else .error .closeStatus

def encode (code : CloseCode) (reason : String) : Except Refusal Bytes :=
  if code.isSendable then
    if reason.utf8ByteSize ≤ maxReason then
      .ok (beBytes 2 code.value.toNat ++ reason.toUTF8.toList)
    else .error .closeReasonTooLong
  else .error .closeStatus

end ClosePayload

inductive Control where
  | ping (payload : Bytes)
  | pong (payload : Bytes)
  | close (payload : ClosePayload)
  deriving DecidableEq, Repr

namespace Control

/-- Reads the unmasked payload of a frame of the given type; other frames give none. -/
def parse (opcode : Opcode) (payload : Bytes) : Except Violation (Option Control) :=
  match opcode with
  | .ping => .ok (some (.ping payload))
  | .pong => .ok (some (.pong payload))
  | .close => (ClosePayload.parse payload).map fun p => some (.close p)
  | .continuation | .text | .binary => .ok none

def opcode : Control → Opcode
  | ping _ => .ping
  | pong _ => .pong
  | close _ => .close

end Control

end WebSocket
