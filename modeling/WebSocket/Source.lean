import WebSocket.Bytes
import WebSocket.Error
import WebSocket.Header.Progress

/-!
Exact reads from a stream that comes in segments, through a buffer. One read of the stream never
joins two segments; what it brings beyond the request is kept for later.
-/

namespace WebSocket

/-- What a stream yields next: bytes, or a fault that fails one read. -/
inductive Segment where
  | data (b : Bytes)
  | fault (f : Fault)
  deriving DecidableEq, Repr

/-- One read of at most `n` bytes from a stream. No bytes means the end. -/
def readSegments (n : Nat) : List Segment → Except Fault Bytes × List Segment
  | [] => (.ok [], [])
  | .fault f :: rest => (.error f, rest)
  | .data [] :: rest => readSegments n rest
  | .data b :: rest => (.ok (b.take n), .data (b.drop n) :: rest)

structure Source where
  capacity : Nat
  buffer : Bytes
  segments : List Segment
  deriving DecidableEq, Repr

namespace Source

def defaultCapacity : Nat := 65536

def ofSegments (capacity : Nat) (segments : List Segment) : Source := ⟨capacity, [], segments⟩

/-- One read of at most `n` bytes. An empty buffer is filled first, unless the request is as large
as the buffer: then the stream is read directly. -/
def readSome (s : Source) (n : Nat) : Except Fault Bytes × Source :=
  match s.buffer with
  | [] =>
    if s.capacity ≤ n then
      let (r, segments) := readSegments n s.segments
      (r, { s with segments })
    else
      match readSegments s.capacity s.segments with
      | (.error f, segments) => (.error f, { s with segments })
      | (.ok b, segments) => (.ok (b.take n), { s with buffer := b.drop n, segments })
  | b => (.ok (b.take n), { s with buffer := b.drop n })

def readRest (s : Source) (n : Nat) (got : Bytes) : Except Fault (Option Bytes) × Source :=
  if n = 0 then (.ok (some got), s)
  else
    match s.readSome n with
    | (.error f, s) => (.error f, s)
    | (.ok [], s) =>
      if got = [] then (.ok none, s)
      else (.error (.unexpectedEof "stream ended inside a frame"), s)
    | (.ok (b :: bs), s) => readRest s (n - (bs.length + 1)) (got ++ b :: bs)
termination_by n

/-- Reads exactly `n` bytes. The end of the stream before the first of them gives none, after it a
fault; the bytes of a failed read are lost. -/
def readExactly (s : Source) (n : Nat) : Except Fault (Option Bytes) × Source := s.readRest n []

def readHeaderFrom (rules : HeaderRules) (p : HeaderProgress) (s : Source) :
    Except Error (Option Header) × Source :=
  match s.readExactly p.need with
  | (.error f, s) => (.error (.fault f), s)
  | (.ok none, s) =>
    if p = .start then (.ok none, s)
    else (.error (.fault (.unexpectedEof "stream ended inside a frame header")), s)
  | (.ok (some piece), s) =>
    match _h : p.read rules piece with
    | .error v => (.error v.toError, s)
    | .ok (.done h) => (.ok (some h), s)
    | .ok (.more q) => readHeaderFrom rules q s
termination_by p.rank
decreasing_by exact HeaderProgress.read_rank _h

def readHeader (rules : HeaderRules) (s : Source) : Except Error (Option Header) × Source :=
  readHeaderFrom rules .start s

end Source

end WebSocket
