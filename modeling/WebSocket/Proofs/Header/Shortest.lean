import WebSocket.Proofs.Header.Codec

/-! The forms of a header. What is read depends on the bytes it takes up and on no others, and on
nothing less than all of them. A header may have several forms. The one that is written is the
shortest, and the only one of its length. -/

namespace WebSocket

theorem beBytes_beNat (b : Bytes) : beBytes b.length (beNat b) = b := by
  induction b using List.reverseRecOn with
  | nil => rfl
  | append_singleton b x ih =>
    have hx := x.toNat_lt
    have hhigh : (beNat b * 256 + x.toNat) / 256 = beNat b := by omega
    have hlow : (beNat b * 256 + x.toNat).toUInt8 = x := by
      apply UInt8.toNat_inj.mp
      simp only [Nat.toUInt8, UInt8.toNat_ofNat']
      omega
    rw [beNat_concat, List.length_append, List.length_singleton, beBytes, hhigh, hlow, ih]

theorem Key.bytes_ofBytes {b : Bytes} (h : b.length = 4) : (ofBytes b).bytes = b := by
  match b, h with
  | [_, _, _, _], _ => rfl

namespace Header

theorem first_byte_parts : ∀ x : Fin 256,
    (UInt8.ofNat x &&& opcodeBits) ||| ((((UInt8.ofNat x &&& rsvBits) >>> 4) &&& 7) <<< 4) |||
      (if UInt8.ofNat x &&& finBit != 0 then finBit else 0) = UInt8.ofNat x := by
  decide +kernel

theorem second_byte_parts : ∀ y : Fin 256,
    (if UInt8.ofNat y &&& maskBit != 0 then maskBit else 0) ||| (UInt8.ofNat y &&& lengthBits) =
      UInt8.ofNat y := by
  decide +kernel

variable {x y : UInt8} {op : Opcode} {ext key : Bytes}

theorem firstByte_ofParts (hop : Opcode.ofCode? (x &&& opcodeBits) = some op) (y : UInt8)
    (ext key : Bytes) : (ofParts x y op ext key).firstByte = x := by
  have hparts := first_byte_parts ⟨x.toNat, x.toNat_lt⟩
  rw [UInt8.ofNat_toNat, ← Opcode.code_of_ofCode? hop] at hparts
  exact hparts

theorem secondByte_ofParts
    (hfield : lengthField (lengthOf (y &&& lengthBits) ext) = y &&& lengthBits) :
    (ofParts x y op ext key).secondByte = y := by
  have hparts := second_byte_parts ⟨y.toNat, y.toNat_lt⟩
  rw [UInt8.ofNat_toNat] at hparts
  rw [secondByte, isSome_mask_ofParts]
  exact (congrArg _ hfield).trans hparts

theorem toNat_lengthOf {field : UInt8} (hw : widthOfField field ≠ 0)
    (hl : ext.length = widthOfField field) : (lengthOf field ext).toNat = beNat ext := by
  have hwidth : ext.length ≤ 8 := by
    rw [hl, widthOfField]
    split
    · omega
    · split <;> omega
  have hlt : beNat ext < 256 ^ 8 :=
    Nat.lt_of_lt_of_le (beNat_lt ext) (Nat.pow_le_pow_right (by decide) hwidth)
  rw [lengthOf, if_neg hw, Nat.toUInt64, UInt64.toNat_ofNat']
  exact Nat.mod_eq_of_lt hlt

theorem lengthField_of_width (n : UInt64) : lengthField n =
    if lengthWidth n = 0 then n.toUInt8 else if lengthWidth n = 2 then length16 else length64 := by
  unfold lengthField lengthWidth
  split
  · rfl
  · split <;> rfl

theorem lengthField_lengthOf {field : UInt8}
    (hw : lengthWidth (lengthOf field ext) = widthOfField field) :
    lengthField (lengthOf field ext) = field := by
  rw [lengthField_of_width, hw]
  by_cases h16 : field = length16
  · rw [h16]
    rfl
  · by_cases h64 : field = length64
    · rw [h64]
      rfl
    · have h0 : widthOfField field = 0 := by rw [widthOfField, if_neg h16, if_neg h64]
      rw [h0, if_pos rfl, lengthOf, if_pos h0]
      apply UInt8.toNat_inj.mp
      rw [UInt64.toNat_toUInt8, UInt8.toNat_toUInt64]
      exact Nat.mod_eq_of_lt field.toNat_lt

theorem beBytes_lengthOf {field : UInt8} (hl : ext.length = widthOfField field)
    (hw : lengthWidth (lengthOf field ext) = widthOfField field) :
    beBytes (lengthWidth (lengthOf field ext)) (lengthOf field ext).toNat = ext := by
  by_cases h0 : widthOfField field = 0
  · rw [hw, h0]
    rw [h0] at hl
    exact (List.length_eq_zero_iff.mp hl).symm
  · rw [toNat_lengthOf h0 hl, hw, ← hl, beBytes_beNat]

theorem keyBytes_ofParts (hkey : key.length = keyWidth y) :
    ((ofParts x y op ext key).mask.map Key.bytes).getD [] = key := by
  unfold keyWidth at hkey
  unfold ofParts
  split at hkey
  · next hm =>
    rw [if_pos hm]
    exact Key.bytes_ofBytes hkey
  · next hm =>
    rw [if_neg hm]
    exact (List.length_eq_zero_iff.mp hkey).symm

/-- A form in which the length takes no byte too many is the one written. -/
theorem encode_ofParts (hop : Opcode.ofCode? (x &&& opcodeBits) = some op)
    (hext : ext.length = widthOfField (y &&& lengthBits)) (hkey : key.length = keyWidth y)
    (hw : lengthWidth (lengthOf (y &&& lengthBits) ext) = widthOfField (y &&& lengthBits)) :
    (ofParts x y op ext key).encode = x :: y :: (ext ++ key) := by
  rw [encode, firstByte_ofParts hop, secondByte_ofParts (lengthField_lengthOf hw),
    keyBytes_ofParts hkey]
  exact congrArg (fun e => x :: y :: (e ++ key)) (beBytes_lengthOf hext hw)

theorem take_parts (x y : UInt8) (ext key back : Bytes) :
    (x :: y :: (ext ++ (key ++ back))).take (x :: y :: (ext ++ key)).length =
      x :: y :: (ext ++ key) := by
  have hsplit : x :: y :: (ext ++ (key ++ back)) = x :: y :: (ext ++ key) ++ back := by simp
  rw [hsplit, List.take_left]

variable {b : Bytes} {h : Header} {n : Nat}

theorem encode_eq_take (hd : decode? b = some (h, n)) (hn : h.encodedLength = n) :
    h.encode = b.take n := by
  obtain ⟨x, y, op, ext, key, back, rfl, hop, hext, hkey, rfl, rfl⟩ := parts_of_decode? hd
  have hw : lengthWidth (ofParts x y op ext key).payloadLength =
      widthOfField (y &&& lengthBits) := by
    have hk := hkey
    rw [keyWidth, ← isSome_mask_ofParts x y op ext key] at hk
    simp only [encodedLength, List.length_cons, List.length_append, hext, hk] at hn
    omega
  rw [encode_ofParts hop hext hkey hw, take_parts]

theorem decode?_take (hd : decode? b = some (h, n)) : decode? (b.take n) = some (h, n) := by
  obtain ⟨x, y, op, ext, key, back, rfl, hop, hext, hkey, rfl, rfl⟩ := parts_of_decode? hd
  rw [take_parts]
  simpa using decode?_parts hop hext hkey []

theorem decode?_congr (hd : decode? b = some (h, n)) {c : Bytes} (hc : c.take n = b.take n) :
    decode? c = some (h, n) := by
  have := decode?_append (decode?_take hd) (c.drop n)
  rwa [← hc, List.take_append_drop] at this

theorem decode?_eq_none_of_prefix (hd : decode? b = some (h, n)) {front : Bytes}
    (hf : front <+: b) (hlt : front.length < n) : decode? front = none := by
  cases hp : decode? front with
  | none => rfl
  | some r =>
    obtain ⟨g, used⟩ := r
    obtain ⟨rest, rfl⟩ := hf
    have hall := decode?_append hp rest
    rw [hd, Option.some.injEq, Prod.mk.injEq] at hall
    have := (used_of_decode? hp).2
    omega

theorem encodedLength_le_maxSize (h : Header) : h.encodedLength ≤ maxSize := by
  have := lengthWidth_le h.payloadLength
  unfold encodedLength maxSize
  split <;> omega

theorem used_le_maxSize (hd : decode? b = some (h, n)) : n ≤ maxSize := by
  obtain ⟨x, y, op, ext, key, -, -, -, hext, hkey, -, rfl⟩ := parts_of_decode? hd
  have hwidth : widthOfField (y &&& lengthBits) ≤ 8 := by
    unfold widthOfField
    split
    · omega
    · split <;> omega
  have hkeyWidth : keyWidth y ≤ 4 := by
    unfold keyWidth
    split <;> omega
  simp only [List.length_cons, List.length_append, maxSize]
  omega

/-- A header that is written is read back from its bytes, and not from fewer. -/
structure ReadsBack (h : Header) : Prop where
  whole : ∀ rest, decode? (h.encode ++ rest) = some (h, h.encodedLength)
  length : h.encode.length = h.encodedLength
  small : h.encodedLength ≤ maxSize
  part : ∀ front, front <+: h.encode → front ≠ h.encode → decode? front = none

/-- What is known of a header that is read from the front of some bytes. -/
structure ReadFrom (b : Bytes) (h : Header) (n : Nat) : Prop where
  there : n ≤ b.length
  small : n ≤ maxSize
  front : ∀ c : Bytes, c.take n = b.take n → decode? c = some (h, n)
  shortest : h.encodedLength ≤ n
  only : h.encodedLength = n → h.encode = b.take n

/-- Every header that has three reserved bits is read back, whatever follows it; and of all forms
in which a header can be read, the one that is written is the shortest. -/
theorem readsBack_and_readFrom :
    (∀ h : Header, h.rsv ≤ 7 → h.ReadsBack) ∧
      ∀ (b : Bytes) (h : Header) (n : Nat), decode? b = some (h, n) → ReadFrom b h n := by
  refine ⟨fun h hr => ?_, fun b h n hd => ?_⟩
  · have hwhole := decode?_encode_append h (UInt8.lt_iff_toNat_lt.mpr (Nat.lt_succ_of_le hr))
    refine ⟨hwhole, length_encode h, encodedLength_le_maxSize h, fun front hf hne => ?_⟩
    have hself : decode? h.encode = some (h, h.encodedLength) := by simpa using hwhole []
    refine decode?_eq_none_of_prefix hself hf ?_
    rw [← length_encode]
    exact Nat.lt_of_le_of_ne hf.length_le fun hl => hne (hf.eq_of_length hl)
  · exact ⟨(used_of_decode? hd).2, used_le_maxSize hd, fun c => decode?_congr hd,
      encodedLength_le hd, encode_eq_take hd⟩

/-- A masked header with reserved bits is read back. It can also be read from a form of fourteen
bytes, in which its length stands in eight of them. -/
theorem readsBack_and_readFrom_long_form :
    let h : Header := ⟨false, 5, .binary, some ⟨1, 2, 3, 4⟩, 126⟩
    let b : Bytes := [0x52, 0xff, 0, 0, 0, 0, 0, 0, 0, 126, 1, 2, 3, 4, 0x61]
    h.rsv ≤ 7 ∧ h.ReadsBack ∧ h.encodedLength = 8 ∧ decode? b = some (h, 14) ∧ ReadFrom b h 14 := by
  have hd : decode? [0x52, 0xff, 0, 0, 0, 0, 0, 0, 0, 126, 1, 2, 3, 4, 0x61] =
      some (⟨false, 5, .binary, some ⟨1, 2, 3, 4⟩, 126⟩, 14) := by decide
  exact ⟨by decide, readsBack_and_readFrom.1 _ (by decide), by decide, hd,
    readsBack_and_readFrom.2 _ _ _ hd⟩

end Header

end WebSocket
