import WebSocket.Proofs.Masking

/-! Masking a buffer where it lies. The machine words of a buffer, of four or of eight bytes, begin
wherever the buffer happens to lie, and the pieces of a payload may each lie elsewhere. The bytes
that come out are always those of masking byte by byte. -/

namespace WebSocket

theorem Key.getD_bytes (k : Key) (i : Nat) : k.bytes.getD (i % 4) 0 = k.byteAt i := by
  have h : i % 4 = 0 ∨ i % 4 = 1 ∨ i % 4 = 2 ∨ i % 4 = 3 := by omega
  unfold byteAt
  rcases h with h | h | h | h <;> rw [h] <;> rfl

theorem getElem?_maskFrom (k : Key) (offset : Nat) (data : Bytes) (i : Nat) :
    (maskFrom k offset data)[i]? =
      data[i]?.map (· ^^^ k.bytes.getD ((offset + i) % 4) 0) := by
  rw [maskFrom, List.getElem?_mapIdx, Key.getD_bytes]

@[simp] theorem length_maskBytewise (k : Key) (data : Bytes) :
    (maskBytewise k data).length = data.length := List.length_mapIdx

inductive MachineWord where
  | four
  | eight
  deriving DecidableEq, Repr

def MachineWord.bytes : MachineWord → Nat
  | four => 4
  | eight => 8

/-- A word holds the key a whole number of times. -/
theorem MachineWord.bytes_mod (w : MachineWord) : w.bytes % 4 = 0 := by
  cases w <;> rfl

/-- Bytes in memory, and where the machine words lie among them. -/
@[ext] structure Buffer (w : MachineWord) where
  data : Bytes
  split : WordSplit
  inside : split.head + split.words * w.bytes ≤ data.length

namespace Buffer

variable {w : MachineWord}

def masked (k : Key) (b : Buffer w) : Bytes :=
  if b.data.length < 2 * w.bytes then maskBytewise k b.data
  else maskSplit w.bytes b.split k b.data

theorem masked_eq (k : Key) (b : Buffer w) : b.masked k = maskBytewise k b.data := by
  unfold masked
  split
  · rfl
  · exact maskSplit_eq w.bytes_mod b.split k b.data b.inside

def maskInPlace (k : Key) (b : Buffer w) : Buffer w :=
  ⟨b.masked k, b.split, by rw [masked_eq, length_maskBytewise]; exact b.inside⟩

/-- Masks a part of a payload that starts at an offset, which is counted in 64 bits. -/
def maskInPlaceAt (k : Key) (offset : UInt64) (b : Buffer w) : Buffer w :=
  b.maskInPlace (k.rotate offset.toNat)

@[simp] theorem data_maskInPlace (k : Key) (b : Buffer w) :
    (b.maskInPlace k).data = maskFrom k 0 b.data := by
  rw [← maskBytewise_eq]
  exact b.masked_eq k

@[simp] theorem data_maskInPlaceAt (k : Key) (offset : UInt64) (b : Buffer w) :
    (b.maskInPlaceAt k offset).data = maskFrom k offset.toNat b.data := by
  rw [← maskBytewise_rotate]
  exact b.masked_eq _

/-- Masks the pieces of a payload, each at its own offset. -/
def maskPieces (k : Key) : UInt64 → List (Buffer w) → List (Buffer w)
  | _, [] => []
  | offset, b :: bs => b.maskInPlaceAt k offset :: maskPieces k (offset + b.data.length.toUInt64) bs

def contents (bs : List (Buffer w)) : Bytes := bs.flatMap (·.data)

/-- An offset that runs over starts again at zero, and the key goes on in turn. -/
theorem offset_mod (offset : UInt64) (n : Nat) :
    (offset + n.toUInt64).toNat % 4 = (offset.toNat + n) % 4 := by
  simp only [UInt64.toNat_add, Nat.toUInt64, UInt64.toNat_ofNat']
  omega

theorem contents_maskPieces (k : Key) (offset : UInt64) (bs : List (Buffer w)) :
    contents (maskPieces k offset bs) = maskFrom k offset.toNat (contents bs) := by
  induction bs generalizing offset with
  | nil => rfl
  | cons b bs ih =>
    calc contents (maskPieces k offset (b :: bs))
      _ = (b.maskInPlaceAt k offset).data ++
          contents (maskPieces k (offset + b.data.length.toUInt64) bs) := rfl
      _ = maskFrom k offset.toNat b.data ++
          maskFrom k (offset.toNat + b.data.length) (contents bs) := by
        rw [ih, data_maskInPlaceAt, maskFrom_congr k (offset_mod offset _)]
      _ = maskFrom k offset.toNat (contents (b :: bs)) := (maskFrom_append ..).symm

/-- Masking does not depend on where the bytes lie. -/
structure MaskedAnywhere (k : Key) (b : Buffer w) : Prop where
  bytewise : (b.maskInPlace k).data = maskBytewise k b.data
  byte : ∀ i : Nat,
    (b.maskInPlace k).data[i]? = b.data[i]?.map (· ^^^ k.bytes.getD (i % 4) 0)
  byteAt : ∀ (offset : UInt64) (i : Nat), (b.maskInPlaceAt k offset).data[i]? =
    b.data[i]?.map (· ^^^ k.bytes.getD ((offset.toNat + i) % 4) 0)
  pieces : ∀ (offset : UInt64) (bs : List (Buffer w)), contents bs = b.data →
    contents (maskPieces k offset bs) = (b.maskInPlaceAt k offset).data
  twice : ∀ offset : UInt64, (b.maskInPlaceAt k offset).maskInPlaceAt k offset = b
  unplaced : mask k b.data = (b.maskInPlace k).data ∧
    ∀ offset : UInt64, maskAt k offset.toNat b.data = (b.maskInPlaceAt k offset).data

/-- For every size of a machine word, every buffer and every place of the words in it. -/
theorem maskedAnywhere (k : Key) (b : Buffer w) : b.MaskedAnywhere k where
  bytewise := b.masked_eq k
  byte i := by
    rw [data_maskInPlace, getElem?_maskFrom, Nat.zero_add]
  byteAt offset i := by
    rw [data_maskInPlaceAt, getElem?_maskFrom]
  pieces offset bs hbs := by
    rw [contents_maskPieces, hbs, data_maskInPlaceAt]
  twice offset := by
    apply Buffer.ext
    · rw [data_maskInPlaceAt, data_maskInPlaceAt, maskFrom_maskFrom]
    · rfl
  unplaced := by
    refine ⟨?_, fun offset => ?_⟩
    · rw [mask_eq, maskBytewise_eq, data_maskInPlace]
    · rw [maskAt_eq, data_maskInPlaceAt]

/-- Nine bytes in memory, and the same bytes cut in two. The offsets run over between the pieces. -/
theorem maskedAnywhere_overflow :
    let b : Buffer .four := ⟨[0, 1, 2, 3, 4, 5, 6, 7, 8], ⟨3, 1⟩, by decide⟩
    let front : Buffer .four := ⟨[0], ⟨1, 0⟩, by decide⟩
    let back : Buffer .four := ⟨[1, 2, 3, 4, 5, 6, 7, 8], ⟨1, 1⟩, by decide⟩
    contents [front, back] = b.data ∧
      contents (maskPieces ⟨1, 2, 3, 4⟩ 0xffffffffffffffff [front, back]) =
        (b.maskInPlaceAt ⟨1, 2, 3, 4⟩ 0xffffffffffffffff).data ∧
      (b.maskInPlaceAt ⟨1, 2, 3, 4⟩ 0xffffffffffffffff).data = [4, 0, 0, 0, 0, 4, 4, 4, 12] :=
  ⟨rfl, (maskedAnywhere _ _).pieces _ _ rfl, by decide⟩

end Buffer

end WebSocket
