/-!
Close status codes: which may stand in a received close frame, and which may be sent.
-/

namespace WebSocket

structure CloseCode where
  value : UInt16
  deriving DecidableEq, Repr

namespace CloseCode

def normal : CloseCode := ⟨1000⟩
def goingAway : CloseCode := ⟨1001⟩
def protocolError : CloseCode := ⟨1002⟩
def unsupported : CloseCode := ⟨1003⟩
def invalidPayload : CloseCode := ⟨1007⟩
def messageTooBig : CloseCode := ⟨1009⟩
def internalError : CloseCode := ⟨1011⟩
def tlsHandshake : CloseCode := ⟨1015⟩

/-- Codes that a close frame may carry: the assigned ones and the two ranges left to applications. -/
def isValid (c : CloseCode) : Bool :=
  let n := c.value.toNat
  (1000 ≤ n && n ≤ 1003) || (1007 ≤ n && n ≤ 1015) || (3000 ≤ n && n ≤ 4999)

/-- A failed handshake is reported, never sent. -/
def isSendable (c : CloseCode) : Bool := c.isValid && c != tlsHandshake

def text (c : CloseCode) : String := toString c.value.toNat

end CloseCode

end WebSocket
