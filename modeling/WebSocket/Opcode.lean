/-!
The six frame types and their four-bit codes. The codes 3 to 7 and 11 to 15 are reserved.
-/

namespace WebSocket

inductive Opcode where
  | continuation
  | text
  | binary
  | close
  | ping
  | pong
  deriving DecidableEq, Repr

namespace Opcode

def code : Opcode → UInt8
  | continuation => 0
  | text => 1
  | binary => 2
  | close => 8
  | ping => 9
  | pong => 10

/-- The frame type with the given code; reserved codes have none. -/
def ofCode? (value : UInt8) : Option Opcode :=
  if value = 0 then some continuation
  else if value = 1 then some text
  else if value = 2 then some binary
  else if value = 8 then some close
  else if value = 9 then some ping
  else if value = 10 then some pong
  else none

/-- Control frames stand between the frames of a message and belong to none. -/
def isControl : Opcode → Bool
  | close | ping | pong => true
  | continuation | text | binary => false

def isData : Opcode → Bool
  | text | binary => true
  | continuation | close | ping | pong => false

def name : Opcode → String
  | continuation => "continuation"
  | text => "text"
  | binary => "binary"
  | close => "close"
  | ping => "ping"
  | pong => "pong"

@[simp] theorem ofCode?_code (op : Opcode) : ofCode? op.code = some op := by
  cases op <;> rfl

theorem code_of_ofCode? {value : UInt8} {op : Opcode} (h : ofCode? value = some op) :
    op.code = value := by
  unfold ofCode? at h
  repeat' split at h
  all_goals simp_all <;> subst h <;> rfl

end Opcode

end WebSocket
