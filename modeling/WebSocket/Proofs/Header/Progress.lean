import Mathlib.Data.List.Induction
import WebSocket.Header.Progress
import WebSocket.Proofs.Header.Codec

/-! Reading a written header piece by piece. If the peer may send the header, no piece of it is
refused, and after the last piece the header is there. -/

namespace WebSocket

structure HeaderRules.Admits (r : HeaderRules) (h : Header) : Prop where
  rsv : h.rsv = 0
  mask : h.mask.isSome = r.role.expectsMasked
  short : h.payloadLength.toNat < HeaderProgress.lengthLimit
  check : r.check h = .ok h

namespace HeaderProgress

/-- What has been read of a header, and where that leads. -/
inductive Along (h : Header) : Bytes → HeaderProgress → Prop where
  | start : Along h [] .start
  | opened : Along h [h.firstByte] (.opened h.fin h.opcode)
  | extended (wide : Bool) (hw : Header.lengthWidth h.payloadLength = if wide then 8 else 2) :
      Along h [h.firstByte, h.secondByte] (.extended h.fin h.opcode h.mask.isSome wide)
  | keyed (hm : h.mask.isSome) :
      Along h (h.firstByte :: h.secondByte ::
        beBytes (Header.lengthWidth h.payloadLength) h.payloadLength.toNat)
        (.keyed h.fin h.opcode h.payloadLength)

theorem Along.length {h : Header} {b : Bytes} {p : HeaderProgress} (ha : Along h b p) :
    b.length + p.need ≤ h.encode.length := by
  rw [Header.length_encode, Header.encodedLength]
  cases ha with
  | start => simp only [List.length_nil, need]; omega
  | opened => simp only [List.length_singleton, need]; omega
  | extended wide hw => simp only [List.length_cons, List.length_nil, need, hw]; omega
  | keyed hm => simp only [List.length_cons, length_beBytes, need, hm, if_true]; omega

theorem one_le_need (p : HeaderProgress) : 1 ≤ p.need := by
  cases p with
  | extended fin opcode masked wide => cases wide <;> simp [need]
  | _ => simp [need]

section

variable {r : HeaderRules} {h : Header}

theorem first_eq {rest t : Bytes} {b : UInt8} {piece : Bytes} (hl : piece.length = 1)
    (he : piece ++ t = b :: rest) : piece = [b] := by
  obtain ⟨x, rfl⟩ := List.length_eq_one_iff.mp hl
  simp only [List.singleton_append, List.cons.injEq] at he
  rw [he.1]

theorem plain_eq (hr : h.rsv = 0) : Header.plain h.fin h.opcode h.payloadLength h.mask = h := by
  obtain ⟨fin, rsv, opcode, mask, n⟩ := h
  subst hr
  rfl

theorem afterLength_of_admits (hadm : r.Admits h) :
    afterLength r h.fin h.opcode h.mask.isSome h.payloadLength =
      if h.mask.isSome then .ok (.more (.keyed h.fin h.opcode h.payloadLength))
      else .ok (.done h) := by
  unfold afterLength
  split
  · rfl
  · next hm =>
    have hnone : h.mask = none := by simpa using hm
    have := plain_eq hadm.rsv
    rw [hnone] at this
    rw [this, hadm.check]
    rfl

theorem along_afterLength (hadm : r.Admits h) :
    let b := h.firstByte :: h.secondByte ::
      beBytes (Header.lengthWidth h.payloadLength) h.payloadLength.toNat
    (∃ q, afterLength r h.fin h.opcode h.mask.isSome h.payloadLength = .ok (.more q) ∧
        Along h b q) ∨
      (afterLength r h.fin h.opcode h.mask.isSome h.payloadLength = .ok (.done h) ∧
        b = h.encode) := by
  rw [afterLength_of_admits hadm]
  cases hm : h.mask with
  | none =>
    right
    refine ⟨by simp, ?_⟩
    simp [Header.encode, hm]
  | some k =>
    left
    refine ⟨_, by simp, .keyed (by simp [hm])⟩

theorem read_start (r : HeaderRules) (hrsv : h.rsv = 0) :
    start.read r [h.firstByte] = .ok (.more (.opened h.fin h.opcode)) := by
  have hlow : h.rsv < 8 := by rw [hrsv]; decide
  obtain ⟨h1, h2, h3, -⟩ := Header.first_byte_bits h.fin h.opcode hlow
  have hfin : (h.firstByte &&& Header.finBit != 0) = h.fin := by
    rw [Header.firstByte, h3]
    cases h.fin <;> decide
  have hrsv : (h.firstByte &&& Header.rsvBits != 0) = false := by
    rw [Header.firstByte, h2, hrsv]; decide
  have hop : Opcode.ofCode? (h.firstByte &&& Header.opcodeBits) = some h.opcode := by
    rw [Header.firstByte, h1, Opcode.ofCode?_code]
  simp only [read, List.headD_cons, hrsv, Bool.false_eq_true, if_false, hop, hfin]

theorem read_opened (hmask : h.mask.isSome = r.role.expectsMasked) :
    (opened h.fin h.opcode).read r [h.secondByte] =
      if Header.lengthField h.payloadLength = Header.length16 then
        .ok (.more (.extended h.fin h.opcode h.mask.isSome false))
      else if Header.lengthField h.payloadLength = Header.length64 then
        .ok (.more (.extended h.fin h.opcode h.mask.isSome true))
      else afterLength r h.fin h.opcode h.mask.isSome
        (Header.lengthField h.payloadLength).toUInt64 := by
  obtain ⟨h5, h6⟩ := Header.secondByte_bits h
  have hmask : (h.mask.isSome != r.role.expectsMasked) = false := by
    rw [hmask]; simp
  simp only [read, List.headD_cons, h5, h6, hmask, Bool.false_eq_true, if_false]

theorem beNat_length {wide : Bool}
    (hw : Header.lengthWidth h.payloadLength = if wide then 8 else 2) :
    beNat (beBytes (Header.lengthWidth h.payloadLength) h.payloadLength.toNat) =
      h.payloadLength.toNat := by
  apply beNat_beBytes
  have h64 := h.payloadLength.toNat_lt
  rw [hw]
  cases wide with
  | true => exact h64
  | false =>
    have : h.payloadLength.toNat ≤ 0xffff := by
      by_contra hbig
      have : ¬ h.payloadLength ≤ 0xffff := hbig
      have h125 : ¬ h.payloadLength ≤ 125 := by
        intro hle
        have hle : h.payloadLength.toNat ≤ 125 := hle
        omega
      rw [Header.lengthWidth, if_neg h125, if_neg this] at hw
      simp at hw
    show h.payloadLength.toNat < 65536
    omega

theorem read_extended {wide : Bool}
    (hw : Header.lengthWidth h.payloadLength = if wide then 8 else 2) :
    (extended h.fin h.opcode h.mask.isSome wide).read r
        (beBytes (Header.lengthWidth h.payloadLength) h.payloadLength.toNat) =
      if lengthLimit ≤ h.payloadLength.toNat then .error .lengthTopBit
      else afterLength r h.fin h.opcode h.mask.isSome h.payloadLength := by
  have hto : h.payloadLength.toNat.toUInt64 = h.payloadLength := UInt64.ofNat_toNat
  simp only [read, beNat_length hw, hto]

/-- A piece of a header that may be sent leads on, or completes it. -/
theorem read_along (hadm : r.Admits h) {b piece rest t : Bytes} {p : HeaderProgress}
    (ha : Along h b p) (hl : piece.length = p.need)
    (he : b ++ piece ++ t = h.encode ++ rest) :
    (∃ q, p.read r piece = .ok (.more q) ∧ Along h (b ++ piece) q) ∨
      (p.read r piece = .ok (.done h) ∧ b ++ piece = h.encode) := by
  have hend := along_afterLength hadm
  cases ha with
  | start =>
    left
    obtain rfl := first_eq hl (by simpa [Header.encode] using he)
    exact ⟨_, read_start r hadm.rsv, .opened⟩
  | opened =>
    obtain rfl := first_eq hl (by simpa [Header.encode] using he)
    have hwidth := Header.widthOfField_lengthField h.payloadLength
    have hlen := Header.lengthOf_lengthField h.payloadLength
    rw [read_opened hadm.mask]
    split
    · next h16 =>
      left
      rw [h16] at hwidth
      exact ⟨_, rfl, .extended false hwidth.symm⟩
    · split
      · next h64 =>
        left
        rw [h64] at hwidth
        exact ⟨_, rfl, .extended true hwidth.symm⟩
      · next h16 h64 =>
        -- the length stands in the second byte itself, and no piece of its own follows
        have h0 : Header.widthOfField (Header.lengthField h.payloadLength) = 0 := by
          rw [Header.widthOfField, if_neg h16, if_neg h64]
        rw [Header.lengthOf, if_pos h0] at hlen
        rw [h0] at hwidth
        rw [hlen]
        simpa only [← hwidth, beBytes, List.singleton_append] using hend
  | extended wide hw =>
    have hpiece : piece = beBytes (Header.lengthWidth h.payloadLength) h.payloadLength.toNat := by
      have hlen : piece.length =
          (beBytes (Header.lengthWidth h.payloadLength) h.payloadLength.toNat).length := by
        rw [hl, length_beBytes, hw]; rfl
      simp only [Header.encode, List.cons_append, List.nil_append, List.append_assoc,
        List.cons.injEq, true_and] at he
      exact (List.append_inj he hlen).1
    rw [hpiece, read_extended hw, if_neg (Nat.not_le.mpr hadm.short)]
    exact hend
  | keyed hm =>
    right
    obtain ⟨k, hk⟩ := Option.isSome_iff_exists.mp hm
    have hpiece : piece = k.bytes := by
      simp only [Header.encode, List.cons_append, List.append_assoc, List.cons.injEq, true_and,
        List.append_cancel_left_eq, hk, Option.map_some, Option.getD_some] at he
      exact (List.append_inj he hl).1
    have hplain := plain_eq hadm.rsv
    rw [hk] at hplain
    refine ⟨?_, ?_⟩
    · rw [read, hpiece, Key.ofBytes_bytes, hplain, hadm.check]
      rfl
    · rw [hpiece]
      simp [Header.encode, hk]

end

/-- The bytes by which a stage of reading has been reached. -/
inductive Reached (r : HeaderRules) : Bytes → HeaderProgress → Prop where
  | start : Reached r [] .start
  | more {b piece : Bytes} {p q : HeaderProgress} : Reached r b p → piece.length = p.need →
      p.read r piece = .ok (.more q) → Reached r (b ++ piece) q

theorem Reached.eq_start_iff {r : HeaderRules} {b : Bytes} {p : HeaderProgress}
    (h : Reached r b p) : p = .start ↔ b = [] := by
  cases h with
  | start => simp
  | @more b piece p q _ hl hread =>
    have hneed := one_le_need p
    have hrank := read_rank hread
    constructor
    · rintro rfl
      -- no progress is behind the start
      cases p <;> simp [rank] at hrank
    · intro hnil
      rw [(List.append_eq_nil_iff.mp hnil).2, List.length_nil] at hl
      omega

/-- If the bytes so far begin a header that may be sent, they have led along it. -/
theorem Reached.along {r : HeaderRules} {h : Header} (hadm : r.Admits h) {b rest t : Bytes}
    {p : HeaderProgress} (hr : Reached r b p) (he : b ++ t = h.encode ++ rest) : Along h b p := by
  induction hr generalizing t with
  | start => exact .start
  | @more b piece p q _ hl hread ih =>
    have ha := ih (t := piece ++ t) (by rw [← he, List.append_assoc])
    rcases read_along hadm ha hl he with ⟨q', hq, ha'⟩ | ⟨hd, -⟩
    · rw [hread] at hq
      cases hq
      exact ha'
    · rw [hread] at hd
      simp at hd

end HeaderProgress

end WebSocket
