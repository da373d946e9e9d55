import WebSocket.Role

/-!
The configuration of one end of a connection.
-/

namespace WebSocket

structure Config where
  role : Role
  closeTimeout : UInt64
  maxFrameSize : UInt64
  /-- The largest part of a message handed over at once; none is smaller than one byte. -/
  readChunkSize : UInt64
  acceptText : Bool
  acceptBinary : Bool
  deriving DecidableEq, Repr

namespace Config

def defaultCloseTimeout : UInt64 := 5000
def defaultMaxFrameSize : UInt64 := 1073741824
def defaultReadChunkSize : UInt64 := 65536

def ofRole (role : Role) : Config :=
  ⟨role, defaultCloseTimeout, defaultMaxFrameSize, defaultReadChunkSize, true, true⟩

def server : Config := ofRole .server
def client : Config := ofRole .client

/-- Sets the chunk size as an application does: zero is raised to one. -/
def withReadChunkSize (c : Config) (n : UInt64) : Config :=
  { c with readChunkSize := if n = 0 then 1 else n }

end Config

end WebSocket
