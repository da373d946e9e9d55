import WebSocket.Utf8.Validator

/-!
The same check with the bytes of the unfinished character in a buffer of four, as they lie in memory.
An access outside of the buffer gives nothing. After a refusal the buffer stays as it is, and further
pieces may be fed.
-/

namespace WebSocket.Utf8

/-- Puts bytes into a buffer from an index on, if they end inside it. -/
def overwrite? (buffer : Bytes) (start : Nat) (b : Bytes) : Option Bytes :=
  if start + b.length ≤ buffer.length then
    some (buffer.take start ++ b ++ buffer.drop (start + b.length))
  else none

def front? (buffer : Bytes) (stop : Nat) : Option Bytes :=
  if stop ≤ buffer.length then some (buffer.take stop) else none

/-- A validator that keeps its pending bytes at the front of a buffer. -/
structure BufferedValidator where
  buffer : Bytes
  used : Nat
  deriving DecidableEq, Repr

namespace BufferedValidator

def new : BufferedValidator := ⟨[0, 0, 0, 0], 0⟩

/-- Forgets the pending bytes, which stay in the buffer. -/
def reset (v : BufferedValidator) : BufferedValidator := { v with used := 0 }

def isComplete (v : BufferedValidator) : Bool := v.used == 0

def feedFresh? (v : BufferedValidator) (piece : Bytes) : Option (Bool × BufferedValidator) :=
  match read piece with
  | .whole => some (true, v)
  | .cut tail => do
    let buffer ← overwrite? v.buffer 0 tail
    some (true, ⟨buffer, tail.length⟩)
  | .malformed => some (false, v)

def feed? (v : BufferedValidator) (piece : Bytes) : Option (Bool × BufferedValidator) :=
  if v.used = 0 then v.feedFresh? piece
  else do
    let first ← v.buffer[0]?
    let missing := characterLength first - v.used
    let added := piece.take missing
    let buffer ← overwrite? v.buffer v.used added
    let used := v.used + added.length
    let begun ← front? buffer used
    match read begun with
    | .whole => feedFresh? ⟨buffer, 0⟩ (piece.drop added.length)
    | .cut _ => some (true, ⟨buffer, used⟩)
    | .malformed => some (false, ⟨buffer, used⟩)

inductive Call where
  | feed (piece : Bytes)
  | reset
  deriving DecidableEq, Repr

def perform? (v : BufferedValidator) : Call → Option BufferedValidator
  | .feed piece => do
    let (_, v) ← v.feed? piece
    some v
  | .reset => some v.reset

def performAll? (v : BufferedValidator) : List Call → Option BufferedValidator
  | [] => some v
  | c :: cs => do
    let v ← v.perform? c
    v.performAll? cs

/-- Feeds pieces one after another, also after a refusal. For each it is told whether it was taken
and whether no character was unfinished after it. -/
def feedAll? (v : BufferedValidator) : List Bytes → Option (List (Bool × Bool))
  | [] => some []
  | piece :: pieces => do
    let (taken, v) ← v.feed? piece
    let later ← v.feedAll? pieces
    some ((taken, v.isComplete) :: later)

end BufferedValidator

end WebSocket.Utf8
