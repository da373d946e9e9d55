import WebSocket.Bytes
import WebSocket.CloseCode

/-!
The write calls of an application, and the callbacks that it registers. A callback here is known by
the write calls that it makes.
-/

namespace WebSocket

inductive WriteCall where
  | firstChunk (frameLength : UInt64) (chunk : Bytes) (last binary : Bool)
  | continuation (chunk : Bytes)
  | message (data : Bytes) (binary : Bool)
  | ping (payload : Bytes)
  | pong (payload : Bytes)
  /-- Starts the close handshake; `timed` says whether there is a clock to bound it. -/
  | close (code : CloseCode) (reason : String) (timed : Bool)
  deriving DecidableEq, Repr

structure Callbacks where
  onConnect : Option (List WriteCall)
  onControl : Option (List WriteCall)
  onError : Bool
  closeHook : Bool
  deriving DecidableEq, Repr

namespace Callbacks

def none : Callbacks := ⟨.none, .none, false, false⟩

private def shown (b : Bool) : String := if b then "true" else "false"

/-- Which callbacks there are, as running objects show it. -/
def describe (c : Callbacks) : String :=
  "Callbacks \x7b on_connect: " ++ shown c.onConnect.isSome ++ ", on_control: " ++
    shown c.onControl.isSome ++ ", on_error: " ++ shown c.onError ++ ", close_hook: " ++
    shown c.closeHook ++ " \x7d"

end Callbacks

end WebSocket
