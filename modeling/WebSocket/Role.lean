/-!
The two ends of a connection. Frames from client to server are masked, all others are not.
-/

namespace WebSocket

inductive Role where
  | server
  | client
  deriving DecidableEq, Repr

namespace Role

def masksOutgoing : Role → Bool
  | server => false
  | client => true

def expectsMasked : Role → Bool
  | server => true
  | client => false

def opposite : Role → Role
  | server => client
  | client => server

def name : Role → String
  | server => "server"
  | client => "client"

/-- The role as it is shown in descriptions of running objects. -/
def title : Role → String
  | server => "Server"
  | client => "Client"

end Role

end WebSocket
