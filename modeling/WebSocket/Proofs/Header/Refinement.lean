import WebSocket.Proofs.Legible

/-! A header read piece by piece against the same header decoded at once. What one read brings is
told from the bytes of the stream alone: they hold a whole header that is taken or refused, or the
front of one, or a byte that no header here may have, or nothing. -/

namespace WebSocket

namespace Header

/-- Bytes that further ones complete to a header of any form, and nothing behind it. -/
def Cut (b : Bytes) : Prop :=
  b ≠ [] ∧ ∃ tail h, tail ≠ [] ∧ decode? (b ++ tail) = some (h, (b ++ tail).length)

theorem not_cut_of_decode? {b : Bytes} {h : Header} {n : Nat} (hd : decode? b = some (h, n)) :
    ¬ Cut b := by
  rintro ⟨-, tail, h', htail, hd'⟩
  rw [decode?_append hd] at hd'
  have hn := (used_of_decode? hd).2
  have hall := (Prod.mk.inj (Option.some.inj hd')).2
  have hpos := List.length_pos_iff.mpr htail
  rw [List.length_append] at hall
  omega

theorem cut_of_parts {x y : UInt8} {op : Opcode} (hop : Opcode.ofCode? (x &&& opcodeBits) = some op)
    {rest : Bytes} (hshort : rest.length < widthOfField (y &&& lengthBits) + keyWidth y) :
    Cut (x :: y :: rest) := by
  let width := widthOfField (y &&& lengthBits)
  let tail := List.replicate (width + keyWidth y - rest.length) (0 : UInt8)
  have hall : (rest ++ tail).length = width + keyWidth y := by
    simp only [List.length_append, tail, List.length_replicate, width]
    omega
  have hext : ((rest ++ tail).take width).length = width := List.length_take_of_le (by omega)
  have hkey : ((rest ++ tail).drop width).length = keyWidth y := by
    rw [List.length_drop]
    omega
  refine ⟨List.cons_ne_nil _ _, tail, ofParts x y op ((rest ++ tail).take width)
    ((rest ++ tail).drop width), ?_, ?_⟩
  · apply List.ne_nil_of_length_pos
    simp only [tail, List.length_replicate, width]
    omega
  · have hd := decode?_parts hop hext hkey []
    rwa [List.append_nil, List.take_append_drop] at hd

end Header

open Header HeaderProgress

namespace HeaderRules

variable {r : HeaderRules} {h : Header} {b c : Bytes}

/-- What is asked of a header, but for the size of a frame that is not a control frame. -/
structure Allows (r : HeaderRules) (h : Header) : Prop extends h.Formed r.role.expectsMasked where
  short : h.payloadLength.toNat < lengthLimit

def InSize (r : HeaderRules) (h : Header) : Prop :=
  h.opcode.isControl = false → h.payloadLength ≤ r.maxFrameSize

def Opens (x : UInt8) : Prop := x &&& rsvBits = 0 ∧ (Opcode.ofCode? (x &&& opcodeBits)).isSome

/-- None of the bytes that are there is against the rules: neither the first nor the mask bit, nor
eight bytes of length, if they are all there. -/
def Clean (r : HeaderRules) : Bytes → Prop
  | [] => True
  | [x] => Opens x
  | x :: y :: rest => Opens x ∧ (y &&& maskBit != 0) = r.role.expectsMasked ∧
      (y &&& lengthBits = length64 → 8 ≤ rest.length → beNat (rest.take 8) < lengthLimit)

theorem Clean.front (hc : r.Clean (b ++ c)) : r.Clean b := by
  match b with
  | [] => trivial
  | [x] =>
    cases c with
    | nil => exact hc
    | cons y c => exact hc.1
  | x :: y :: rest =>
    obtain ⟨hopens, hmask, hlong⟩ : r.Clean (x :: y :: (rest ++ c)) := hc
    refine ⟨hopens, hmask, fun hfield hlen => ?_⟩
    have hshort := hlong hfield (by rw [List.length_append]; omega)
    rwa [List.take_append_of_le_length hlen] at hshort

theorem rsv_bits (n : Fin 256) :
    (UInt8.ofNat n &&& rsvBits) >>> 4 = 0 ↔ UInt8.ofNat n &&& rsvBits = 0 := by
  revert n
  decide +kernel

theorem rsv_eq_zero {x : UInt8} : (x &&& rsvBits) >>> 4 = 0 ↔ x &&& rsvBits = 0 := by
  simpa using rsv_bits ⟨x.toNat, x.toNat_lt⟩

theorem toNat_lengthOf {field : UInt8} {ext : Bytes} (hw : widthOfField field ≠ 0)
    (hl : ext.length = widthOfField field) : (lengthOf field ext).toNat = beNat ext := by
  have hlt : beNat ext < UInt64.size := by
    have hle : ext.length ≤ 8 := by
      rw [hl, widthOfField]
      split
      · omega
      · split <;> omega
    exact Nat.lt_of_lt_of_le (beNat_lt ext) (Nat.pow_le_pow_right (by omega) hle)
  rw [lengthOf, if_neg hw]
  exact UInt64.toNat_ofNat_of_lt hlt

theorem clean_of_allows {n : Nat} (hd : decode? b = some (h, n)) (ha : r.Allows h) : r.Clean b := by
  obtain ⟨x, y, op, ext, key, back, rfl, hop, hext, -, rfl, -⟩ := parts_of_decode? hd
  have hopens : Opens x := ⟨rsv_eq_zero.mp ha.rsv, Option.isSome_of_eq_some hop⟩
  have hmask := (isSome_mask_ofParts x y op ext key).symm.trans ha.mask
  refine ⟨hopens, hmask, fun hfield _ => ?_⟩
  have hshort : (lengthOf (y &&& lengthBits) ext).toNat < lengthLimit := ha.short
  have hwide : widthOfField (y &&& lengthBits) = 8 := by rw [hfield]; rfl
  rw [toNat_lengthOf (by omega) hext] at hshort
  rwa [List.take_append_of_le_length (by omega), List.take_of_length_le (by omega)]

structure Begins (r : HeaderRules) (x y : UInt8) (op : Opcode) : Prop where
  rsv : x &&& rsvBits = 0
  opcode : Opcode.ofCode? (x &&& opcodeBits) = some op
  mask : (y &&& maskBit != 0) = r.role.expectsMasked

/-- The bytes of a header that have been taken, and where they lead. -/
inductive Taken (r : HeaderRules) : Bytes → HeaderProgress → Prop where
  | start : Taken r [] .start
  | opened {x : UInt8} {op : Opcode} (hrsv : x &&& rsvBits = 0)
      (hop : Opcode.ofCode? (x &&& opcodeBits) = some op) :
      Taken r [x] (.opened (x &&& finBit != 0) op)
  | extended {x y : UInt8} {op : Opcode} (hb : r.Begins x y op) (wide : Bool)
      (hfield : y &&& lengthBits = if wide then length64 else length16) :
      Taken r [x, y] (.extended (x &&& finBit != 0) op (y &&& maskBit != 0) wide)
  | keyed {x y : UInt8} {op : Opcode} {ext : Bytes} (hb : r.Begins x y op)
      (hkey : keyWidth y = 4) (hext : ext.length = widthOfField (y &&& lengthBits))
      (hshort : (lengthOf (y &&& lengthBits) ext).toNat < lengthLimit) :
      Taken r (x :: y :: ext)
        (.keyed (x &&& finBit != 0) op (lengthOf (y &&& lengthBits) ext))

/-- What the bytes up to the end of a piece come to. -/
inductive Comes (r : HeaderRules) (b : Bytes) : Except Violation HeaderStep → Prop where
  | more {p : HeaderProgress} (ht : r.Taken b p) : Comes r b (.ok (.more p))
  | done {h : Header} (hd : decode? b = some (h, b.length)) (ha : r.Allows h) (hf : r.InSize h) :
      Comes r b (.ok (.done h))
  | tooBig {h : Header} (hd : decode? b = some (h, b.length)) (ha : r.Allows h)
      (hf : ¬ r.InSize h) : Comes r b (.error .frameTooBig)
  | refused {h : Header} {v : Violation} (hd : decode? b = some (h, b.length))
      (ha : ¬ r.Allows h) (hv : v.code = .protocolError) : Comes r b (.error v)
  | unclean {v : Violation} (hc : ¬ r.Clean b) (hv : v.code = .protocolError) :
      Comes r b (.error v)

theorem comes_check (hd : decode? b = some (h, b.length)) (hrsv : h.rsv = 0)
    (hmask : h.mask.isSome = r.role.expectsMasked) (hshort : h.payloadLength.toNat < lengthLimit) :
    r.Comes b ((r.check h).map .done) := by
  unfold check
  split
  · next hctl =>
    have hsize : r.InSize h := fun hno => absurd (hctl.symm.trans hno) (by decide)
    split
    · next hfin =>
      refine .refused hd (fun ha => ?_) rfl
      simp [(ha.control hctl).1] at hfin
    · next hfin =>
      split
      · next hlen => exact .refused hd (fun ha => absurd (ha.control hctl).2 (by omega)) rfl
      · next hlen =>
        have hcontrol : h.fin = true ∧ h.payloadLength.toNat ≤ maxControlPayload :=
          ⟨by simpa using hfin, by omega⟩
        exact .done hd ⟨⟨hrsv, hmask, fun _ => hcontrol⟩, hshort⟩ hsize
  · next hctl =>
    have hallows : r.Allows h := ⟨⟨hrsv, hmask, fun hyes => absurd hyes hctl⟩, hshort⟩
    split
    · next hbig =>
      refine .tooBig hd hallows fun hf => ?_
      exact absurd hbig (UInt64.not_lt.mpr (hf (by simpa using hctl)))
    · next hbig => exact .done hd hallows fun _ => UInt64.not_lt.mp hbig

section

variable {x y : UInt8} {op : Opcode} {ext : Bytes}

theorem plain_eq_ofParts (hrsv : x &&& rsvBits = 0) (key : Bytes) :
    Header.plain (x &&& finBit != 0) op (lengthOf (y &&& lengthBits) ext)
        (if y &&& maskBit != 0 then some (Key.ofBytes key) else none) =
      ofParts x y op ext key := by
  rw [ofParts, rsv_eq_zero.mpr hrsv, Header.plain]

theorem comes_key (hb : r.Begins x y op) (hext : ext.length = widthOfField (y &&& lengthBits))
    (hshort : (lengthOf (y &&& lengthBits) ext).toNat < lengthLimit) (key : Bytes)
    (hkey : key.length = keyWidth y) :
    r.Comes (x :: y :: (ext ++ key)) ((r.check (ofParts x y op ext key)).map .done) := by
  have hd := decode?_parts hb.opcode hext hkey []
  rw [List.append_nil] at hd
  exact comes_check hd (rsv_eq_zero.mpr hb.rsv)
    ((isSome_mask_ofParts x y op ext key).trans hb.mask) hshort

theorem comes_afterLength (hb : r.Begins x y op)
    (hext : ext.length = widthOfField (y &&& lengthBits))
    (hshort : (lengthOf (y &&& lengthBits) ext).toNat < lengthLimit) :
    r.Comes (x :: y :: ext) (afterLength r (x &&& finBit != 0) op (y &&& maskBit != 0)
      (lengthOf (y &&& lengthBits) ext)) := by
  unfold afterLength
  split
  · next hm => exact .more (.keyed hb (if_pos hm) hext hshort)
  · next hm =>
    have hcomes := comes_key hb hext hshort [] (by rw [keyWidth, if_neg hm]; rfl)
    rwa [List.append_nil, ← plain_eq_ofParts hb.rsv, if_neg hm] at hcomes

end

theorem start_read (r : HeaderRules) (x : UInt8) :
    HeaderProgress.start.read r [x] =
      if x &&& rsvBits != 0 then .error .reservedBits
      else match Opcode.ofCode? (x &&& opcodeBits) with
        | none => .error .reservedOpcode
        | some op => .ok (.more (.opened (x &&& finBit != 0) op)) :=
  rfl

theorem opened_read (r : HeaderRules) (fin : Bool) (op : Opcode) (y : UInt8) :
    (HeaderProgress.opened fin op).read r [y] =
      if (y &&& maskBit != 0) != r.role.expectsMasked then
        .error (if y &&& maskBit != 0 then .maskedByServer else .unmaskedByClient)
      else if y &&& lengthBits = length16 then
        .ok (.more (.extended fin op (y &&& maskBit != 0) false))
      else if y &&& lengthBits = length64 then
        .ok (.more (.extended fin op (y &&& maskBit != 0) true))
      else afterLength r fin op (y &&& maskBit != 0) (y &&& lengthBits).toUInt64 :=
  rfl

theorem Taken.eq_start {p : HeaderProgress} (ht : r.Taken b p) (hb : b = []) : p = .start := by
  cases ht with
  | start => rfl
  | _ => cases hb

section

variable {x y : UInt8} {op : Opcode} {piece : Bytes}

theorem comes_first (r : HeaderRules) (x : UInt8) :
    r.Comes [x] (HeaderProgress.start.read r [x]) := by
  rw [start_read]
  by_cases hrsv : x &&& rsvBits = 0
  · rw [if_neg (by simpa using hrsv)]
    cases hop : Opcode.ofCode? (x &&& opcodeBits) with
    | none => exact .unclean (fun hc => by simpa [hop] using hc.2) rfl
    | some op => exact .more (.opened hrsv hop)
  · rw [if_pos (by simpa using hrsv)]
    exact .unclean (fun hc => hrsv hc.1) rfl

theorem comes_second (hrsv : x &&& rsvBits = 0) (hop : Opcode.ofCode? (x &&& opcodeBits) = some op)
    (y : UInt8) : r.Comes [x, y] ((HeaderProgress.opened (x &&& finBit != 0) op).read r [y]) := by
  rw [opened_read]
  by_cases hmask : (y &&& maskBit != 0) = r.role.expectsMasked
  · rw [if_neg (by simpa using hmask)]
    have hb : r.Begins x y op := ⟨hrsv, hop, hmask⟩
    split
    · next h16 => exact .more (.extended hb false h16)
    · next h16 =>
      split
      · next h64 => exact .more (.extended hb true h64)
      · next h64 =>
        have hw : widthOfField (y &&& lengthBits) = 0 := by
          rw [widthOfField, if_neg h16, if_neg h64]
        have hlen : lengthOf (y &&& lengthBits) [] = (y &&& lengthBits).toUInt64 := if_pos hw
        rw [← hlen]
        refine comes_afterLength hb hw.symm ?_
        rw [hlen, UInt8.toNat_toUInt64]
        exact Nat.lt_trans (UInt8.toNat_lt _) (by decide)
  · rw [if_pos (by simpa using hmask)]
    exact .unclean (fun hc => hmask hc.2.1) (by split <;> rfl)

theorem comes_length (hb : r.Begins x y op) {wide : Bool}
    (hfield : y &&& lengthBits = if wide then length64 else length16)
    (hl : piece.length = if wide then 8 else 2) :
    r.Comes (x :: y :: piece)
      ((HeaderProgress.extended (x &&& finBit != 0) op (y &&& maskBit != 0) wide).read r piece) := by
  have hwidth : widthOfField (y &&& lengthBits) = if wide then 8 else 2 := by
    rw [hfield]; cases wide <;> rfl
  have hext : piece.length = widthOfField (y &&& lengthBits) := hl.trans hwidth.symm
  have hpos : widthOfField (y &&& lengthBits) ≠ 0 := by rw [hwidth]; cases wide <;> decide
  have hnat := toNat_lengthOf hpos hext
  have hlen : lengthOf (y &&& lengthBits) piece = (beNat piece).toUInt64 := if_neg hpos
  simp only [HeaderProgress.read]
  split
  · next hlong =>
    refine .unclean (fun hc => ?_) rfl
    cases wide with
    | true =>
      have hlen8 : piece.length = 8 := hl
      have hlt := hc.2.2 hfield (by omega)
      rw [List.take_of_length_le (by omega)] at hlt
      omega
    | false =>
      -- two bytes do not reach the limit
      have hlen2 : piece.length = 2 := hl
      have hlt := beNat_lt piece
      rw [hlen2] at hlt
      rw [lengthLimit] at hlong
      omega
  · next hlong =>
    rw [← hlen]
    exact comes_afterLength hb hext (by omega)

end

/-- What taking the next piece leads to. -/
theorem Taken.comes {p : HeaderProgress} {piece : Bytes} (ht : r.Taken b p)
    (hl : piece.length = p.need) : r.Comes (b ++ piece) (p.read r piece) := by
  cases ht with
  | start =>
    obtain ⟨x, rfl⟩ := List.length_eq_one_iff.mp hl
    exact comes_first r x
  | opened hrsv hop =>
    obtain ⟨y, rfl⟩ := List.length_eq_one_iff.mp hl
    exact comes_second hrsv hop y
  | extended hb wide hfield => exact comes_length hb hfield hl
  | @keyed x y op ext hb hkey hext hshort =>
    have hcomes := comes_key hb hext hshort piece (hl.trans hkey.symm)
    have hm : (y &&& maskBit != 0) = true := by
      by_contra hm
      rw [keyWidth, if_neg hm] at hkey
      cases hkey
    rwa [← plain_eq_ofParts hb.rsv, if_pos hm] at hcomes

/-- Bytes that end inside a piece are clean, and the front of a header unless there are none. -/
theorem Taken.short {p : HeaderProgress} {t : Bytes} (ht : r.Taken b p) (hl : t.length < p.need) :
    r.Clean (b ++ t) ∧ (b ++ t ≠ [] → Cut (b ++ t)) := by
  cases ht with
  | start =>
    obtain rfl : t = [] := List.eq_nil_of_length_eq_zero (by simpa [need] using hl)
    exact ⟨trivial, fun hne => absurd rfl hne⟩
  | @opened x op hrsv hop =>
    obtain rfl : t = [] := List.eq_nil_of_length_eq_zero (by simpa [need] using hl)
    have hd : decode? (x :: 0 :: ([] ++ ([] ++ []))) = some (ofParts x 0 op [] [], 2) :=
      decode?_parts hop rfl rfl []
    exact ⟨⟨hrsv, Option.isSome_of_eq_some hop⟩, fun _ => ⟨List.cons_ne_nil _ _, [0], _, by simp, hd⟩⟩
  | @extended x y op hb wide hfield =>
    have hlt : t.length < widthOfField (y &&& lengthBits) := by
      rw [hfield]
      cases wide <;> exact hl
    simp only [List.cons_append, List.nil_append]
    refine ⟨⟨⟨hb.rsv, Option.isSome_of_eq_some hb.opcode⟩, hb.mask, fun h64 hlen => ?_⟩,
      fun _ => cut_of_parts hb.opcode (by omega)⟩
    rw [h64] at hlt
    exact absurd hlt (Nat.not_lt.mpr hlen)
  | @keyed x y op ext hb hkey hext hshort =>
    have hlt : t.length < 4 := hl
    simp only [List.cons_append]
    refine ⟨⟨⟨hb.rsv, Option.isSome_of_eq_some hb.opcode⟩, hb.mask, fun h64 _ => ?_⟩,
      fun _ => cut_of_parts hb.opcode (by rw [List.length_append]; omega)⟩
    have hwide : widthOfField (y &&& lengthBits) = 8 := by rw [h64]; rfl
    rw [toNat_lengthOf (by omega) hext] at hshort
    rwa [List.take_append_of_le_length (by omega), List.take_of_length_le (by omega)]

end HeaderRules

open HeaderRules

/-! What one read brings. -/

namespace HeaderRules

variable {r : HeaderRules} {b : Bytes}

/-- What reading a header from the bytes `b`, the last of a stream, brings and leaves. -/
inductive Brings (r : HeaderRules) (b : Bytes) : Except Error (Option Header) → Bytes → Prop where
  | ended (h : b = []) : Brings r b (.ok none) []
  | whole {h : Header} {n : Nat} (hd : decode? b = some (h, n)) (ha : r.Allows h)
      (hf : r.InSize h) : Brings r b (.ok (some h)) (b.drop n)
  | tooBig {h : Header} {n : Nat} (left : Bytes) (hd : decode? b = some (h, n)) (ha : r.Allows h)
      (hf : ¬ r.InSize h) : Brings r b (.error Violation.frameTooBig.toError) left
  | refused {v : Violation} (left : Bytes) (hne : b ≠ []) (hc : Cut b → ¬ r.Clean b)
      (ha : ∀ h n, decode? b = some (h, n) → ¬ r.Allows h) (hv : v.code = .protocolError) :
      Brings r b (.error v.toError) left
  | cut (text : String) (hc : Cut b) (hclean : r.Clean b) :
      Brings r b (.error (.fault (.unexpectedEof text))) []

theorem Comes.brings_of_error {v : Violation} (hcomes : r.Comes b (.error v))
    (c left : Bytes) (hne : b ≠ []) : r.Brings (b ++ c) (.error v.toError) left := by
  have hne' : b ++ c ≠ [] := List.append_ne_nil_of_left_ne_nil hne c
  cases hcomes with
  | tooBig hd ha hf => exact .tooBig left (decode?_append hd c) ha hf
  | refused hd ha hv =>
    have hd' := decode?_append hd c
    refine .refused left hne' (fun hc => absurd hc (not_cut_of_decode? hd')) (fun h n hh => ?_) hv
    rw [hd'] at hh
    exact (Prod.mk.inj (Option.some.inj hh)).1 ▸ ha
  | unclean hc hv =>
    exact .refused left hne' (fun _ hclean => hc hclean.front)
      (fun h n hh ha => hc (clean_of_allows hh ha).front) hv

/-- A read of a header against decoding the bytes `b` of the stream at once. -/
structure Refines (r : HeaderRules) (b : Bytes) (result : Except Error (Option Header))
    (left : Bytes) : Prop where
  header : ∀ h, result = .ok (some h) ↔ ∃ n, decode? b = some (h, n) ∧ r.Allows h ∧ r.InSize h
  consumed : ∀ h n, result = .ok (some h) → decode? b = some (h, n) → left = b.drop n
  ended : result = .ok none ↔ b = []
  tooBig : (∃ text, result = .error (.violation .messageTooBig text)) ↔
    ∃ h n, decode? b = some (h, n) ∧ r.Allows h ∧ ¬ r.InSize h
  cut : (∃ text, result = .error (.fault (.unexpectedEof text))) ↔ Cut b ∧ r.Clean b
  refused : (∃ text, result = .error (.violation .protocolError text)) ↔
    b ≠ [] ∧ (∀ h n, decode? b = some (h, n) → ¬ r.Allows h) ∧ ¬ (Cut b ∧ r.Clean b)

theorem Brings.refines {result : Except Error (Option Header)} {left : Bytes}
    (hb : r.Brings b result left) : r.Refines b result left := by
  have hcodes : CloseCode.protocolError ≠ .messageTooBig := by decide
  cases hb with
  | ended h =>
    subst h
    constructor <;> simp [decode?, Cut]
  | @whole h n hd ha hf =>
    have hne : b ≠ [] := by rintro rfl; cases hd
    have hcut : ¬ Cut b := not_cut_of_decode? hd
    constructor <;> simp [hd, ha, hf, hcut, hne]
  | @tooBig h n left hd ha hf =>
    have hne : b ≠ [] := by rintro rfl; cases hd
    have hcut : ¬ Cut b := not_cut_of_decode? hd
    constructor <;> simp [hd, ha, hf, hcut, hne, Violation.toError, Violation.code, hcodes.symm]
  | @refused v left hne hc ha hv =>
    have herr : v.toError = .violation .protocolError v.reason := by rw [Violation.toError, hv]
    rw [herr]
    constructor
    case header =>
      intro h
      constructor
      · intro hgot
        cases hgot
      · rintro ⟨n, hd, hall, -⟩
        exact absurd hall (ha h n hd)
    case consumed =>
      intro h n hgot
      cases hgot
    case ended => simp [hne]
    case tooBig =>
      constructor
      · rintro ⟨text, htext⟩
        cases htext
      · rintro ⟨h, n, hd, hall, -⟩
        exact absurd hall (ha h n hd)
    case cut =>
      constructor
      · rintro ⟨text, htext⟩
        cases htext
      · rintro ⟨hcut, hclean⟩
        exact absurd hclean (hc hcut)
    case refused => simpa [hne] using And.intro ha hc
  | cut text hc hclean =>
    have hnone : ∀ h n, decode? b ≠ some (h, n) := fun h n hd => not_cut_of_decode? hd hc
    constructor <;> simp [hc, hclean, hc.1, hnone]

/-- An end takes the headers from the front of the bytes one after another, and these are left. -/
inductive Decodes (r : HeaderRules) : Bytes → List Header → Bytes → Prop where
  | nil (b : Bytes) : Decodes r b [] b
  | cons {b : Bytes} {h : Header} {n : Nat} {hs : List Header} {left : Bytes}
      (hd : decode? b = some (h, n)) (ha : r.Allows h) (hf : r.InSize h)
      (htail : Decodes r (b.drop n) hs left) : Decodes r b (h :: hs) left

end HeaderRules

namespace Source

variable {r : HeaderRules}

/-- From wherever the bytes so far lead, the read brings what all of them stand for. -/
theorem readHeaderFrom_brings {p : HeaderProgress} {b t : Bytes} (ht : r.Taken b p) {s : Source}
    (hs : s.coming = t.map .ok) :
    ∃ left, (readHeaderFrom r p s).2.coming = left.map .ok ∧
      r.Brings (b ++ t) (readHeaderFrom r p s).1 left := by
  -- every piece lowers the rank, and what has been taken up to it is known from `Taken`
  induction hn : p.rank using Nat.strong_induction_on generalizing p b t s with
  | _ n ih =>
    by_cases hshort : t.length < p.need
    · obtain ⟨hclean, hcut⟩ := ht.short hshort
      have hread := readExactly_eq s p.need
      rw [hs, Coming.takeExactly_short t hshort] at hread
      obtain ⟨hgot, hrest⟩ := Prod.mk.inj hread
      refine ⟨[], ?_⟩
      rw [readHeaderFrom]
      generalize s.readExactly p.need = a at hgot hrest
      obtain ⟨got, s'⟩ := a
      split at hgot
      · next hnil =>
        subst hnil
        cases hgot
        rw [List.append_nil] at hclean hcut ⊢
        dsimp only
        split
        · next hp =>
          subst hp
          cases ht
          exact ⟨hrest, .ended rfl⟩
        · next hp =>
          exact ⟨hrest, .cut _ (hcut fun hb => hp (ht.eq_start hb)) hclean⟩
      · next hne =>
        cases hgot
        exact ⟨hrest, .cut _ (hcut (List.append_ne_nil_of_right_ne_nil b hne)) hclean⟩
    · have hpiece : (t.take p.need).length = p.need := List.length_take_of_le (by omega)
      have hsplit := List.take_append_drop p.need t
      rw [← hsplit, List.map_append] at hs
      obtain ⟨s', hs', hread⟩ := readHeaderFrom_of_piece (r := r) hpiece hs
      have hcomes := ht.comes hpiece
      have hne : b ++ t.take p.need ≠ [] := by
        have := p.one_le_need
        exact List.append_ne_nil_of_right_ne_nil b (List.ne_nil_of_length_pos (by omega))
      rw [hread, show b ++ t = b ++ t.take p.need ++ t.drop p.need by
        rw [List.append_assoc, hsplit]]
      cases hread' : p.read r (t.take p.need) with
      | error v =>
        rw [hread'] at hcomes
        exact ⟨_, hs', hcomes.brings_of_error _ _ hne⟩
      | ok step =>
        rw [hread'] at hcomes
        cases hcomes with
        | more hq => exact ih _ (hn ▸ HeaderProgress.read_rank hread') hq hs' rfl
        | @done h hd ha hf =>
          refine ⟨_, hs', ?_⟩
          have hwhole := Brings.whole (decode?_append hd (t.drop p.need)) ha hf
          rwa [List.drop_left] at hwhole

theorem readHeader_brings (r : HeaderRules) {s : Source} {b : Bytes} (hs : s.coming = b.map .ok) :
    ∃ left, (readHeader r s).2.coming = left.map .ok ∧ r.Brings b (readHeader r s).1 left :=
  readHeaderFrom_brings .start hs

inductive ReadsHeaders (r : HeaderRules) : Source → List Header → Source → Prop where
  | nil (s : Source) : ReadsHeaders r s [] s
  | cons {s s' s'' : Source} {h : Header} {hs : List Header}
      (hread : readHeader r s = (.ok (some h), s')) (htail : ReadsHeaders r s' hs s'') :
      ReadsHeaders r s (h :: hs) s''

theorem ReadsHeaders.decodes {s s' : Source} {hs : List Header} (h : ReadsHeaders r s hs s')
    {b : Bytes} (hb : s.coming = b.map .ok) :
    ∃ rest, r.Decodes b hs rest ∧ s'.coming = rest.map .ok := by
  induction h generalizing b with
  | nil s => exact ⟨b, .nil b, hb⟩
  | cons hread _ ih =>
    obtain ⟨left, hleft, hbrings⟩ := readHeader_brings r hb
    rw [hread] at hleft hbrings
    cases hbrings with
    | whole hd ha hf =>
      obtain ⟨rest, hrest, hs'⟩ := ih hleft
      exact ⟨rest, .cons hd ha hf hrest, hs'⟩

theorem readsHeaders_of_decodes {b rest : Bytes} {hs : List Header} (h : r.Decodes b hs rest)
    {s : Source} (hb : s.coming = b.map .ok) :
    ∃ s', ReadsHeaders r s hs s' ∧ s'.coming = rest.map .ok := by
  induction h generalizing s with
  | nil b => exact ⟨s, .nil s, hb⟩
  | @cons b h n hs rest hd ha hf _ ih =>
    obtain ⟨left, hleft, hbrings⟩ := readHeader_brings r hb
    have hrefines := hbrings.refines
    have hgot := (hrefines.header h).mpr ⟨n, hd, ha, hf⟩
    rw [hrefines.consumed h n hgot hd] at hleft
    obtain ⟨s', hreads, hs'⟩ := ih hleft
    exact ⟨s', .cons (Prod.ext hgot rfl) hreads, hs'⟩

theorem coming_ofSegments (capacity : Nat) (pieces : List Bytes) :
    (ofSegments capacity (pieces.map .data)).coming = pieces.flatten.map .ok := by
  induction pieces with
  | nil => rfl
  | cons b pieces ih =>
    have ih : (pieces.map Segment.data).flatMap Segment.items = pieces.flatten.map .ok := ih
    rw [List.flatten_cons, List.map_append, ← ih]
    rfl

/-- Reading headers from a stream of bytes, however it is cut and buffered, is decoding them one
after another: the calls that bring headers bring those that are decoded, and leave the same bytes.
What the next call brings is told by decoding what is left. -/
theorem readHeader_refines_decode (r : HeaderRules) (capacity : Nat) (pieces : List Bytes)
    (hs : List Header) :
    (∀ s, ReadsHeaders r (ofSegments capacity (pieces.map .data)) hs s →
      ∃ rest, r.Decodes pieces.flatten hs rest ∧ s.coming = rest.map .ok ∧
        ∃ left, (readHeader r s).2.coming = left.map .ok ∧
          r.Refines rest (readHeader r s).1 left) ∧
    (∀ rest, r.Decodes pieces.flatten hs rest →
      ∃ s, ReadsHeaders r (ofSegments capacity (pieces.map .data)) hs s ∧
        s.coming = rest.map .ok) := by
  have hb := coming_ofSegments capacity pieces
  constructor
  · intro s hreads
    obtain ⟨rest, hdecodes, hrest⟩ := hreads.decodes hb
    obtain ⟨left, hleft, hbrings⟩ := readHeader_brings r hrest
    exact ⟨rest, hdecodes, hrest, left, hleft, hbrings.refines⟩
  · exact fun rest hdecodes => readsHeaders_of_decodes hdecodes hb

end Source

end WebSocket
