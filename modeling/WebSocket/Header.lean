import WebSocket.Bytes
import WebSocket.Masking
import WebSocket.Opcode

/-!
Frame headers. A header is two bytes, then the payload length in zero, two or eight further bytes,
then the mask key if there is one. `encode` writes the shortest form; `decode?` reads all forms.
-/

namespace WebSocket

structure Header where
  fin : Bool
  rsv : UInt8
  opcode : Opcode
  mask : Option Key
  payloadLength : UInt64
  deriving DecidableEq, Repr

def splitAt? (n : Nat) (b : Bytes) : Option (Bytes × Bytes) :=
  let front := b.take n
  if front.length = n then some (front, b.drop n) else none

theorem length_of_splitAt? {n : Nat} {b front rest : Bytes} (h : splitAt? n b = some (front, rest)) :
    front.length = n ∧ b = front ++ rest := by
  simp only [splitAt?] at h
  split at h
  · next hn =>
    cases h
    exact ⟨hn, (List.take_append_drop n b).symm⟩
  · cases h

def maxControlPayload : Nat := 125

namespace Header

def finBit : UInt8 := 0x80
def rsvBits : UInt8 := 0x70
def opcodeBits : UInt8 := 0x0f
def maskBit : UInt8 := 0x80
def lengthBits : UInt8 := 0x7f

/-- Stands in the length field when two bytes of length follow. -/
def length16 : UInt8 := 126

def length64 : UInt8 := 127

/-- The longest header: two bytes, eight of length and four of key. -/
def maxSize : Nat := 14

def plain (fin : Bool) (opcode : Opcode) (payloadLength : UInt64) (mask : Option Key) : Header :=
  ⟨fin, 0, opcode, mask, payloadLength⟩

/-- How many bytes of length follow the two bytes in the shortest form. -/
def lengthWidth (n : UInt64) : Nat :=
  if n ≤ 125 then 0 else if n ≤ 0xffff then 2 else 8

def lengthField (n : UInt64) : UInt8 :=
  if n ≤ 125 then n.toUInt8 else if n ≤ 0xffff then length16 else length64

def encodedLength (h : Header) : Nat :=
  2 + lengthWidth h.payloadLength + (if h.mask.isSome then 4 else 0)

def firstByte (h : Header) : UInt8 :=
  h.opcode.code ||| ((h.rsv &&& 7) <<< 4) ||| (if h.fin then finBit else 0)

def secondByte (h : Header) : UInt8 :=
  (if h.mask.isSome then maskBit else 0) ||| lengthField h.payloadLength

def encode (h : Header) : Bytes :=
  h.firstByte :: h.secondByte ::
    (beBytes (lengthWidth h.payloadLength) h.payloadLength.toNat ++
      (h.mask.map Key.bytes).getD [])

def widthOfField (field : UInt8) : Nat :=
  if field = length16 then 2 else if field = length64 then 8 else 0

/-- The length that a length field and the bytes after it stand for. -/
def lengthOf (field : UInt8) (extension : Bytes) : UInt64 :=
  if widthOfField field = 0 then field.toUInt64 else (beNat extension).toUInt64

/-- The header at the front and its length in bytes, if it is there whole. -/
def decode? : Bytes → Option (Header × Nat)
  | first :: second :: rest => do
    let opcode ← Opcode.ofCode? (first &&& opcodeBits)
    let field := second &&& lengthBits
    let masked := second &&& maskBit != 0
    let width := widthOfField field
    let (extension, rest) ← splitAt? width rest
    let (key, _) ← splitAt? (if masked then 4 else 0) rest
    some (⟨first &&& finBit != 0, (first &&& rsvBits) >>> 4, opcode,
      if masked then some (Key.ofBytes key) else none, lengthOf field extension⟩,
      2 + width + (if masked then 4 else 0))
  | _ => none

@[simp] theorem length_encode (h : Header) : h.encode.length = h.encodedLength := by
  cases hm : h.mask <;> simp [encode, encodedLength, hm, Key.bytes] <;> omega

theorem used_of_decode? {b : Bytes} {h : Header} {used : Nat} (hd : decode? b = some (h, used)) :
    2 ≤ used ∧ used ≤ b.length := by
  unfold decode? at hd
  split at hd
  · next first second rest =>
    simp only [Option.bind_eq_bind, Option.bind_eq_some_iff] at hd
    obtain ⟨op, _, ⟨ext, r1⟩, h1, ⟨key, r2⟩, h2, h3⟩ := hd
    obtain ⟨l1, e1⟩ := length_of_splitAt? h1
    obtain ⟨l2, e2⟩ := length_of_splitAt? h2
    subst e1
    subst e2
    cases h3
    simp only [List.length_cons, List.length_append, l1, l2]
    omega
  · cases hd

end Header

end WebSocket
