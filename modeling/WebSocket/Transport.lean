import WebSocket.Bytes
import WebSocket.Fault

/-!
The two directions of the stream below a connection: what has come in and not been read, and what
has been taken for sending. A stream may stall, take bytes in small parts, or fail.
-/

namespace WebSocket

/-- The bytes that have come in, and what follows them: a fault, the end, or more bytes later. A
fault is met before the end, and neither before the bytes. -/
structure Input where
  bytes : Bytes
  fault : Option Fault
  ended : Bool

inductive Taken where
  | got (b : Bytes) (rest : Bytes)
  | ended
  | failed (f : Fault)
  | waits

namespace Input

def empty : Input := ⟨[], none, false⟩

/-- Reads exactly `n` bytes. The end of the stream is clean before the first of them only. -/
def take (i : Input) (n : Nat) : Taken :=
  let front := i.bytes.take n
  if front.length = n then .got front (i.bytes.drop n)
  else
    match i.fault with
    | some f => .failed f
    | none =>
      if i.ended then
        if i.bytes.isEmpty then .ended else .failed (.unexpectedEof "stream ended inside a frame")
      else .waits

theorem length_of_take {i : Input} {n : Nat} {b rest : Bytes} (h : i.take n = .got b rest) :
    b.length = n ∧ i.bytes = b ++ rest := by
  simp only [take] at h
  split at h
  · next hn =>
    cases h
    exact ⟨hn, (List.take_append_drop n i.bytes).symm⟩
  · split at h
    · simp at h
    · split at h
      · split at h <;> cases h
      · simp at h

end Input

structure Transport where
  /-- How many more bytes are taken before a write waits; none means no limit. -/
  quota : Option Nat
  maxWrite : Option Nat
  writeFault : Option Fault
  takesNothing : Bool
  flushFault : Option Fault
  wire : Array UInt8
  shutDown : Bool

inductive WriteResult where
  | took (rest : Bytes) (t : Transport)
  | failed (f : Fault)
  | waits

namespace Transport

def fresh (quota maxWrite : Option Nat) : Transport :=
  ⟨quota, maxWrite, none, false, none, #[], false⟩

/-- The part of the bytes that one write takes, when it takes any. -/
def part (t : Transport) (b : Bytes) : Bytes :=
  match t.quota, t.maxWrite with
  | none, none => b
  | some q, none => b.take q
  | none, some m => b.take m
  | some q, some m => b.take (min q m)

/-- One write. Taking nothing of some bytes is a fault. -/
def write (t : Transport) (b : Bytes) : WriteResult :=
  match t.writeFault with
  | some f => .failed f
  | none =>
    if t.takesNothing then .failed .writeZero
    else if t.quota = some 0 then .waits
    else
      match t.part b with
      | [] => .failed .writeZero
      | front =>
        .took (b.drop front.length)
          { t with wire := t.wire ++ front.toArray, quota := t.quota.map (· - front.length) }

theorem length_of_write {t t' : Transport} {b rest : Bytes} (hb : b ≠ [])
    (h : t.write b = .took rest t') : rest.length < b.length := by
  unfold write at h
  split at h
  · simp at h
  · split at h
    · simp at h
    · split at h
      · simp at h
      · split at h
        · simp at h
        · next hne =>
          cases h
          have : 0 < b.length := List.length_pos_iff.2 hb
          have : 0 < (t.part b).length := List.length_pos_iff.2 (by simpa using hne)
          simp only [List.length_drop]
          omega

end Transport

end WebSocket
