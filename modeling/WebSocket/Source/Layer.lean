import WebSocket.Source

/-!
Exact reads through any reader that may hold bytes which it has read ahead. A buffer of the size
that is asked for is filled in place, by as many reads as that takes.
-/

namespace WebSocket

structure ReadLayer (σ : Type) where
  /-- The bytes that have been read ahead. -/
  held : σ → Bytes
  segments : σ → List Segment
  read : σ → Nat → Except Fault Bytes × σ

/-- What a read of at most `n` bytes makes of what there is: the result and the bytes still held. -/
inductive HandsOut (n : Nat) : Except Fault Bytes → Except Fault Bytes → Bytes → Prop where
  | ended : HandsOut n (.ok []) (.ok []) []
  | fault (f : Fault) : HandsOut n (.error f) (.error f) []
  | bytes (front rest : Bytes) (hne : front ≠ []) (hle : front.length ≤ n) :
      HandsOut n (.ok (front ++ rest)) (.ok front) rest

structure Filling (σ : Type) where
  full : Except Fault Bool
  buffer : Bytes
  reader : σ

def Filling.result {σ : Type} (r : Filling σ) : Except Fault (Option Bytes) × σ :=
  (r.full.map fun full => if full then some r.buffer else none, r.reader)

def overwrite (buffer : Bytes) (place : Nat) (b : Bytes) : Bytes :=
  buffer.take place ++ b ++ buffer.drop (place + b.length)

namespace ReadLayer

variable {σ : Type}

/-- The bytes of at most one read of the stream are held, and they are handed out before the stream
is read again. -/
structure HoldsOneRead (l : ReadLayer σ) : Prop where
  handsOut (s : σ) (n : Nat) : 0 < n → l.held s ≠ [] →
    l.segments (l.read s n).2 = l.segments s ∧
      HandsOut n (.ok (l.held s)) (l.read s n).1 (l.held (l.read s n).2)
  readsOn (s : σ) (n : Nat) : 0 < n → l.held s = [] → ∃ m, 0 < m ∧
    l.segments (l.read s n).2 = (readSegments m (l.segments s)).2 ∧
      HandsOut n (readSegments m (l.segments s)).1 (l.read s n).1 (l.held (l.read s n).2)

def fill (l : ReadLayer σ) (s : σ) (buffer : Bytes) (filled : Nat) : Filling σ :=
  if filled < buffer.length then
    match l.read s (buffer.length - filled) with
    | (.error f, s) => ⟨.error f, buffer, s⟩
    | (.ok [], s) =>
      ⟨if filled = 0 then .ok false else .error (.unexpectedEof "stream ended inside a frame"),
        buffer, s⟩
    | (.ok (b :: bs), s) =>
      l.fill s (overwrite buffer filled (b :: bs)) (filled + (bs.length + 1))
  else ⟨.ok true, buffer, s⟩
termination_by buffer.length - filled
decreasing_by
  simp only [overwrite, List.length_append, List.length_take, List.length_drop, List.length_cons]
  omega

/-- Reads exactly `n` bytes into a new buffer. An array of `n` bytes is read in the same way. -/
def readExactly (l : ReadLayer σ) (s : σ) (n : Nat) : Except Fault (Option Bytes) × σ :=
  (l.fill s (List.replicate n 0) 0).result

end ReadLayer

def readEach {σ α : Type} (read : σ → Nat → α × σ) (s : σ) : List Nat → List α × σ
  | [] => ([], s)
  | n :: ns =>
    let (a, s) := read s n
    let (as, s) := readEach read s ns
    (a :: as, s)

def Source.layer : ReadLayer Source where
  held := Source.buffer
  segments := Source.segments
  read := Source.readSome

end WebSocket
