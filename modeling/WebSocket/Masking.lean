import WebSocket.Bytes

/-!
Payload masking: byte `i` of a payload is combined with byte `i mod 4` of the key by exclusive or.
`maskBytewise` says just that; `mask` works on whole words where it can. Both give the same bytes,
and masking twice with one key gives the payload back.
-/

namespace WebSocket

structure Key where
  b0 : UInt8
  b1 : UInt8
  b2 : UInt8
  b3 : UInt8
  deriving DecidableEq, Repr

namespace Key

def zero : Key := ⟨0, 0, 0, 0⟩

def bytes (k : Key) : Bytes := [k.b0, k.b1, k.b2, k.b3]

def ofBytes (b : Bytes) : Key := ⟨b.getD 0 0, b.getD 1 0, b.getD 2 0, b.getD 3 0⟩

def byteAt (k : Key) (i : Nat) : UInt8 :=
  match i % 4 with
  | 0 => k.b0
  | 1 => k.b1
  | 2 => k.b2
  | _ => k.b3

/-- The key as a part of the payload sees it that starts at position `offset`. -/
def rotate (k : Key) (offset : Nat) : Key :=
  ⟨k.byteAt offset, k.byteAt (offset + 1), k.byteAt (offset + 2), k.byteAt (offset + 3)⟩

@[simp] theorem ofBytes_bytes (k : Key) : ofBytes k.bytes = k := rfl

end Key

def maskBytewise (k : Key) (data : Bytes) : Bytes := data.mapIdx fun i b => b ^^^ k.byteAt i

/-- The bytes of a machine word, as they lie in memory, taken as one number. -/
def wordOfBytes : Bytes → Nat
  | [] => 0
  | b :: rest => b.toNat + 256 * wordOfBytes rest

def bytesOfWord : Nat → Nat → Bytes
  | 0, _ => []
  | width + 1, n => n.toUInt8 :: bytesOfWord width (n / 256)

def Key.expand (k : Key) (width : Nat) : Nat := wordOfBytes ((List.range width).map k.byteAt)

def xorWords (width word : Nat) : Nat → Bytes → Bytes
  | 0, _ => []
  | count + 1, data =>
    bytesOfWord width (wordOfBytes (data.take width) ^^^ word) ++
      xorWords width word count (data.drop width)

/-- Where the words lie in a buffer: `head` bytes before them, then `words` whole words. -/
structure WordSplit where
  head : Nat
  words : Nat
  deriving DecidableEq, Repr

/-- Masks the bytes before the words one by one, the words whole, and the bytes after them one by
one again. The key is turned once by the length of the head: a word is a multiple of four bytes
long, so the bytes after the words see the same turn. -/
def maskSplit (width : Nat) (s : WordSplit) (k : Key) (data : Bytes) : Bytes :=
  let turned := k.rotate s.head
  let rest := data.drop s.head
  maskBytewise k (data.take s.head) ++ xorWords width (turned.expand width) s.words rest ++
    maskBytewise turned (rest.drop (s.words * width))

def wordSize : Nat := 8

/-- Buffers shorter than two words are not worth splitting. -/
def mask (k : Key) (data : Bytes) : Bytes :=
  if data.length < 2 * wordSize then maskBytewise k data
  else maskSplit wordSize ⟨0, data.length / wordSize⟩ k data

def maskAt (k : Key) (offset : Nat) (data : Bytes) : Bytes := mask (k.rotate offset) data

def maskWith (k : Option Key) (offset : Nat) (data : Bytes) : Bytes :=
  match k with
  | some k => maskAt k offset data
  | none => data

end WebSocket
