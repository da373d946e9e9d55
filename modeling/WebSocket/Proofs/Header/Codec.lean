import Mathlib.Algebra.Group.Nat.Defs
import Mathlib.Data.List.Induction
import WebSocket.Header

/-! A header that has been written is read back from the front of any bytes, and the form written
is the shortest of all. -/

namespace WebSocket

theorem splitAt?_append {n : Nat} {a : Bytes} (h : a.length = n) (b : Bytes) :
    splitAt? n (a ++ b) = some (a, b) := by
  simp [splitAt?, ← h]

theorem splitAt?_append_right {n : Nat} {b front rest : Bytes}
    (h : splitAt? n b = some (front, rest)) (c : Bytes) :
    splitAt? n (b ++ c) = some (front, rest ++ c) := by
  obtain ⟨hl, rfl⟩ := length_of_splitAt? h
  rw [List.append_assoc]
  exact splitAt?_append hl (rest ++ c)

theorem beNat_lt (b : Bytes) : beNat b < 256 ^ b.length := by
  induction b using List.reverseRecOn with
  | nil => decide
  | append_singleton b x ih =>
    have := x.toNat_lt
    rw [beNat_concat, List.length_append, List.length_singleton, Nat.pow_succ]
    omega

namespace Header

theorem first_byte_bits (fin : Bool) (op : Opcode) {rsv : UInt8} (h : rsv < 8) :
    (op.code ||| ((rsv &&& 7) <<< 4) ||| (if fin then finBit else 0)) &&& opcodeBits = op.code ∧
    (op.code ||| ((rsv &&& 7) <<< 4) ||| (if fin then finBit else 0)) &&& rsvBits = rsv <<< 4 ∧
    (op.code ||| ((rsv &&& 7) <<< 4) ||| (if fin then finBit else 0)) &&& finBit =
      (if fin then finBit else 0) ∧ (rsv <<< 4) >>> 4 = rsv := by
  obtain rfl | rfl | rfl | rfl | rfl | rfl | rfl | rfl :
      rsv = 0 ∨ rsv = 1 ∨ rsv = 2 ∨ rsv = 3 ∨ rsv = 4 ∨ rsv = 5 ∨ rsv = 6 ∨ rsv = 7 := by
    simp only [UInt8.lt_iff_toNat_lt, ← UInt8.toNat_inj] at *
    simp only [UInt8.reduceToNat] at *
    omega
  all_goals cases op <;> cases fin <;> decide

theorem second_byte_bits : ∀ field : Fin 128, ∀ masked : Bool,
    ((if masked then maskBit else 0) ||| UInt8.ofNat field) &&& lengthBits = UInt8.ofNat field ∧
    ((((if masked then maskBit else 0) ||| UInt8.ofNat field) &&& maskBit != 0) = masked) := by
  decide +kernel

theorem le_iff_toNat (n m : UInt64) : n ≤ m ↔ n.toNat ≤ m.toNat := UInt64.le_iff_toNat_le

theorem lengthField_lt (n : UInt64) : (lengthField n).toNat < 128 := by
  unfold lengthField
  split
  · next h =>
    have h : n.toNat ≤ 125 := h
    simp only [UInt64.toNat_toUInt8]
    omega
  · split <;> decide

theorem secondByte_bits (h : Header) :
    h.secondByte &&& lengthBits = lengthField h.payloadLength ∧
      (h.secondByte &&& maskBit != 0) = h.mask.isSome := by
  have := second_byte_bits ⟨_, lengthField_lt h.payloadLength⟩ h.mask.isSome
  simpa only [secondByte, UInt8.ofNat_toNat] using this

theorem widthOfField_lengthField (n : UInt64) : widthOfField (lengthField n) = lengthWidth n := by
  unfold lengthField lengthWidth
  split
  · next h =>
    have h : n.toNat ≤ 125 := h
    have h16 : n.toUInt8 ≠ length16 := by
      intro he
      have := congrArg UInt8.toNat he
      simp only [UInt64.toNat_toUInt8, length16, UInt8.reduceToNat] at this
      omega
    have h64 : n.toUInt8 ≠ length64 := by
      intro he
      have := congrArg UInt8.toNat he
      simp only [UInt64.toNat_toUInt8, length64, UInt8.reduceToNat] at this
      omega
    rw [widthOfField, if_neg h16, if_neg h64]
  · split <;> rfl

theorem lengthOf_lengthField (n : UInt64) :
    lengthOf (lengthField n) (beBytes (lengthWidth n) n.toNat) = n := by
  unfold lengthOf
  rw [widthOfField_lengthField]
  unfold lengthField lengthWidth
  split
  · next h =>
    have h : n.toNat ≤ 125 := h
    rw [if_pos rfl]
    apply UInt64.toNat_inj.mp
    simp only [UInt8.toNat_toUInt64, UInt64.toNat_toUInt8]
    omega
  · have hn := n.toNat_lt
    split
    · next h =>
      have h : n.toNat ≤ 0xffff := h
      rw [if_neg (by decide), beNat_beBytes (show n.toNat < Nat.pow 256 2 by
        show n.toNat < 65536; omega)]
      exact UInt64.ofNat_toNat
    · rw [if_neg (by decide), beNat_beBytes (show n.toNat < Nat.pow 256 8 from hn)]
      exact UInt64.ofNat_toNat

/-- A header written in front of any bytes is read back, and takes the bytes written. -/
theorem decode?_encode_append (h : Header) (hr : h.rsv < 8) (rest : Bytes) :
    decode? (h.encode ++ rest) = some (h, h.encodedLength) := by
  obtain ⟨h1, h2, h3, h4⟩ := first_byte_bits h.fin h.opcode hr
  obtain ⟨h5, h6⟩ := secondByte_bits h
  have hop : Opcode.ofCode? (h.firstByte &&& opcodeBits) = some h.opcode := by
    rw [firstByte, h1, Opcode.ofCode?_code]
  have hfin : (h.firstByte &&& finBit != 0) = h.fin := by
    rw [firstByte, h3]
    cases h.fin <;> decide
  have hrsv : (h.firstByte &&& rsvBits) >>> 4 = h.rsv := by rw [firstByte, h2, h4]
  have hext : splitAt? (lengthWidth h.payloadLength)
      (beBytes (lengthWidth h.payloadLength) h.payloadLength.toNat ++
        ((h.mask.map Key.bytes).getD [] ++ rest)) =
      some (beBytes (lengthWidth h.payloadLength) h.payloadLength.toNat,
        (h.mask.map Key.bytes).getD [] ++ rest) := splitAt?_append (by simp) _
  have hkey : splitAt? (if h.mask.isSome then 4 else 0) ((h.mask.map Key.bytes).getD [] ++ rest) =
      some ((h.mask.map Key.bytes).getD [], rest) := by
    refine splitAt?_append ?_ rest
    cases h.mask <;> rfl
  simp only [encode, List.cons_append, List.append_assoc, decode?, h5, h6, widthOfField_lengthField,
    hop, hext, hkey, Option.bind_eq_bind, Option.bind_some, hfin, hrsv, lengthOf_lengthField,
    encodedLength, Option.some.injEq, Prod.mk.injEq, and_true]
  obtain ⟨fin, rsv, op, mask, n⟩ := h
  cases mask <;> rfl

/-- What two bytes, the bytes of length after them and a key stand for. -/
def ofParts (x y : UInt8) (op : Opcode) (ext key : Bytes) : Header :=
  ⟨x &&& finBit != 0, (x &&& rsvBits) >>> 4, op,
    if y &&& maskBit != 0 then some (Key.ofBytes key) else none, lengthOf (y &&& lengthBits) ext⟩

def keyWidth (y : UInt8) : Nat := if y &&& maskBit != 0 then 4 else 0

theorem decode?_parts {x y : UInt8} {op : Opcode} {ext key : Bytes}
    (hop : Opcode.ofCode? (x &&& opcodeBits) = some op)
    (hext : ext.length = widthOfField (y &&& lengthBits)) (hkey : key.length = keyWidth y)
    (back : Bytes) :
    decode? (x :: y :: (ext ++ (key ++ back))) =
      some (ofParts x y op ext key, (x :: y :: (ext ++ key)).length) := by
  have hlen : (x :: y :: (ext ++ key)).length =
      2 + widthOfField (y &&& lengthBits) + keyWidth y := by
    simp only [List.length_cons, List.length_append, hext, hkey]
    omega
  simp only [decode?, hop, Option.bind_eq_bind, Option.bind_some, splitAt?_append hext]
  rw [← keyWidth, splitAt?_append hkey, hlen]
  rfl

theorem parts_of_decode? {b : Bytes} {h : Header} {n : Nat} (hd : decode? b = some (h, n)) :
    ∃ x y op ext key back, b = x :: y :: (ext ++ (key ++ back)) ∧
      Opcode.ofCode? (x &&& opcodeBits) = some op ∧
      ext.length = widthOfField (y &&& lengthBits) ∧ key.length = keyWidth y ∧
      h = ofParts x y op ext key ∧ n = (x :: y :: (ext ++ key)).length := by
  have hwhole := hd
  unfold decode? at hd
  split at hd
  · next x y rest =>
    simp only [Option.bind_eq_bind, Option.bind_eq_some_iff] at hd
    obtain ⟨op, hop, ⟨ext, r⟩, hext, ⟨key, back⟩, hkey, hd⟩ := hd
    obtain ⟨hl, rfl⟩ := length_of_splitAt? hext
    obtain ⟨hk, rfl⟩ := length_of_splitAt? hkey
    refine ⟨x, y, op, ext, key, back, rfl, hop, hl, hk, ?_⟩
    rw [decode?_parts hop hl hk] at hwhole
    obtain ⟨hh, hn⟩ := Prod.mk.inj (Option.some.inj hwhole)
    exact ⟨hh.symm, hn.symm⟩
  · cases hd

theorem decode?_append {b : Bytes} {h : Header} {used : Nat}
    (hd : decode? b = some (h, used)) (c : Bytes) : decode? (b ++ c) = some (h, used) := by
  obtain ⟨x, y, op, ext, key, back, rfl, hop, hext, hkey, rfl, rfl⟩ := parts_of_decode? hd
  have hmore := decode?_parts hop hext hkey (back ++ c)
  rwa [← List.append_assoc, ← List.append_assoc, List.append_assoc ext] at hmore

theorem isSome_mask_ofParts (x y : UInt8) (op : Opcode) (ext key : Bytes) :
    (ofParts x y op ext key).mask.isSome = (y &&& maskBit != 0) := by
  unfold ofParts
  dsimp only
  split <;> simp_all

theorem lengthWidth_le (n : UInt64) : lengthWidth n ≤ 8 := by
  unfold lengthWidth
  split
  · omega
  · split <;> omega

theorem lengthWidth_lengthOf {field : UInt8} {ext : Bytes} (hf : field ≤ 127)
    (hl : ext.length = widthOfField field) :
    lengthWidth (lengthOf field ext) ≤ widthOfField field := by
  by_cases h16 : field = length16
  · subst h16
    have hlt : beNat ext < 65536 := by simpa [hl, widthOfField] using beNat_lt ext
    have hle : lengthOf length16 ext ≤ 0xffff := by
      rw [lengthOf, if_neg (by decide), le_iff_toNat]
      simp only [Nat.toUInt64, UInt64.toNat_ofNat', UInt64.reduceToNat]
      omega
    unfold lengthWidth
    split
    · omega
    · decide
  · by_cases h64 : field = length64
    · subst h64
      exact lengthWidth_le _
    · have hw : widthOfField field = 0 := by rw [widthOfField, if_neg h16, if_neg h64]
      have hle : lengthOf field ext ≤ 125 := by
        rw [lengthOf, if_pos hw, le_iff_toNat, UInt8.toNat_toUInt64]
        simp only [length16, length64, ← UInt8.toNat_inj, UInt8.le_iff_toNat_le] at h16 h64 hf
        simp only [UInt8.reduceToNat, UInt64.reduceToNat] at *
        omega
      have hzero : lengthWidth (lengthOf field ext) = 0 := if_pos hle
      exact Nat.le_of_eq (hzero.trans hw.symm)

/-- No form of a header is shorter than the one written. -/
theorem encodedLength_le {b : Bytes} {h : Header} {used : Nat} (hd : decode? b = some (h, used)) :
    h.encodedLength ≤ used := by
  obtain ⟨x, y, op, ext, key, -, -, -, hext, hkey, rfl, rfl⟩ := parts_of_decode? hd
  have hf : y &&& lengthBits ≤ 127 := by
    rw [UInt8.le_iff_toNat_le, UInt8.toNat_and]
    exact Nat.and_le_right
  have hlength : lengthWidth (ofParts x y op ext key).payloadLength ≤ ext.length :=
    hext ▸ lengthWidth_lengthOf hf hext
  rw [keyWidth, ← isSome_mask_ofParts x y op ext key] at hkey
  simp only [encodedLength, List.length_cons, List.length_append, ← hkey]
  omega

end Header

end WebSocket
