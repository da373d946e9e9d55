import WebSocket.Error
import WebSocket.Header
import WebSocket.Role

/-!
Reading a header piece by piece, as its bytes come in. At every point it is known how many bytes
come next. What the peer must not send is refused as soon as it can be seen; the limits on control
frames and on the payload length are tried when the header is complete.
-/

namespace WebSocket

/-- How much of a header has been read. -/
inductive HeaderProgress where
  | start
  | opened (fin : Bool) (opcode : Opcode)
  | extended (fin : Bool) (opcode : Opcode) (masked : Bool) (wide : Bool)
  | keyed (fin : Bool) (opcode : Opcode) (payloadLength : UInt64)
  deriving DecidableEq, Repr

inductive HeaderStep where
  | more (p : HeaderProgress)
  | done (h : Header)
  deriving DecidableEq, Repr

/-- What an end accepts: frames from the other role, up to a size. -/
structure HeaderRules where
  role : Role
  maxFrameSize : UInt64
  deriving DecidableEq, Repr

def HeaderRules.check (r : HeaderRules) (h : Header) : Except Violation Header :=
  if h.opcode.isControl then
    if !h.fin then .error .fragmentedControl
    else if h.payloadLength.toNat > maxControlPayload then .error .controlTooLong
    else .ok h
  else if h.payloadLength > r.maxFrameSize then .error .frameTooBig
  else .ok h

namespace HeaderProgress

/-- A length has 63 bits; the top bit of the eight bytes stays clear. -/
def lengthLimit : Nat := 0x8000000000000000

def need : HeaderProgress → Nat
  | start => 1
  | opened .. => 1
  | extended _ _ _ wide => if wide then 8 else 2
  | keyed .. => 4

/-- How many pieces can follow at most. -/
def rank : HeaderProgress → Nat
  | start => 3
  | opened .. => 2
  | extended .. => 1
  | keyed .. => 0

def afterLength (r : HeaderRules) (fin : Bool) (opcode : Opcode) (masked : Bool)
    (payloadLength : UInt64) : Except Violation HeaderStep :=
  if masked then .ok (.more (.keyed fin opcode payloadLength))
  else (r.check (.plain fin opcode payloadLength none)).map .done

/-- Takes the next piece, which has as many bytes as `need` says. -/
def read (r : HeaderRules) (p : HeaderProgress) (piece : Bytes) : Except Violation HeaderStep :=
  match p with
  | start =>
    let byte := piece.headD 0
    if byte &&& Header.rsvBits != 0 then .error .reservedBits
    else
      match Opcode.ofCode? (byte &&& Header.opcodeBits) with
      | none => .error .reservedOpcode
      | some opcode => .ok (.more (.opened (byte &&& Header.finBit != 0) opcode))
  | opened fin opcode =>
    let byte := piece.headD 0
    let masked := byte &&& Header.maskBit != 0
    let field := byte &&& Header.lengthBits
    if masked != r.role.expectsMasked then
      .error (if masked then .maskedByServer else .unmaskedByClient)
    else if field = Header.length16 then .ok (.more (.extended fin opcode masked false))
    else if field = Header.length64 then .ok (.more (.extended fin opcode masked true))
    else afterLength r fin opcode masked field.toUInt64
  | extended fin opcode masked _ =>
    let n := beNat piece
    if lengthLimit ≤ n then .error .lengthTopBit else afterLength r fin opcode masked n.toUInt64
  | keyed fin opcode payloadLength =>
    (r.check (.plain fin opcode payloadLength (some (Key.ofBytes piece)))).map .done

theorem afterLength_rank {r : HeaderRules} {fin : Bool} {opcode : Opcode} {masked : Bool}
    {n : UInt64} {p : HeaderProgress} (h : afterLength r fin opcode masked n = .ok (.more p)) :
    p.rank = 0 := by
  unfold afterLength at h
  split at h
  · cases h; rfl
  · cases hc : r.check (.plain fin opcode n none) <;> rw [hc] at h <;> cases h

theorem read_rank {r : HeaderRules} {p q : HeaderProgress} {piece : Bytes}
    (h : read r p piece = .ok (.more q)) : q.rank < p.rank := by
  cases p with
  | start =>
    simp only [read] at h
    split at h
    · simp at h
    · split at h
      · simp at h
      · cases h; simp [rank]
  | opened fin opcode =>
    simp only [read] at h
    split at h
    · simp at h
    · split at h
      · cases h; simp [rank]
      · split at h
        · cases h; simp [rank]
        · rw [afterLength_rank h]; simp [rank]
  | extended fin opcode masked wide =>
    simp only [read] at h
    split at h
    · simp at h
    · rw [afterLength_rank h]; simp [rank]
  | keyed fin opcode n =>
    simp only [read] at h
    generalize r.check (.plain fin opcode n (some (Key.ofBytes piece))) = c at h
    cases c <;> cases h

end HeaderProgress

end WebSocket
