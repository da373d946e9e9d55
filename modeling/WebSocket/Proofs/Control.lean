import Mathlib.Data.List.Basic
import WebSocket.Control

/-! A close payload that may be sent is short enough for a control frame and is read back as it was
written. -/

namespace WebSocket

theorem toList_loop (b : ByteArray) (i : Nat) (r : List UInt8) :
    ByteArray.toList.loop b i r = r.reverse ++ b.data.toList.drop i := by
  fun_induction ByteArray.toList.loop b i r with
  | case1 i r hlt ih =>
    have hi : i < b.data.toList.length := by simpa using hlt
    have hget : b.get! i = b.data.toList[i] := by
      rw [ByteArray.get!, Array.getElem_toList]
      exact getElem!_pos b.data i hlt
    rw [ih, hget, List.drop_eq_getElem_cons hi, List.reverse_cons, List.append_assoc]
    rfl
  | case2 i r hge =>
    have hi : b.data.toList.length ≤ i := by simpa using hge
    rw [List.drop_eq_nil_of_le hi, List.append_nil]

theorem toList_eq (b : ByteArray) : b.toList = b.data.toList := by
  rw [ByteArray.toList, toList_loop]
  rfl

theorem toByteArray_toList (b : ByteArray) : b.toList.toByteArray = b := by
  ext1
  rw [toList_eq, List.data_toByteArray, Array.toArray_toList]

theorem fromUTF8?_toUTF8 (s : String) : String.fromUTF8? s.toUTF8 = some s := by
  rw [String.toUTF8_eq_toByteArray, String.fromUTF8?, dif_pos s.isValidUTF8]
  rfl

theorem length_toUTF8 (s : String) : s.toUTF8.toList.length = s.utf8ByteSize := by
  rw [toList_eq, Array.length_toList]
  rfl

namespace ClosePayload

theorem encode_eq_ok {code : CloseCode} {reason : String} {b : Bytes} :
    encode code reason = .ok b ↔ code.isSendable = true ∧ reason.utf8ByteSize ≤ maxReason ∧
      b = beBytes 2 code.value.toNat ++ reason.toUTF8.toList := by
  unfold encode
  constructor
  · intro h
    split at h
    · next hs =>
      split at h
      · next hl =>
        cases h
        exact ⟨hs, hl, rfl⟩
      · simp at h
    · simp at h
  · rintro ⟨hs, hl, rfl⟩
    rw [if_pos hs, if_pos hl]

theorem length_encode {code : CloseCode} {reason : String} {b : Bytes}
    (h : encode code reason = .ok b) : b.length ≤ maxControlPayload := by
  obtain ⟨-, hl, rfl⟩ := encode_eq_ok.mp h
  rw [List.length_append, length_beBytes, length_toUTF8]
  unfold maxReason maxControlPayload at hl
  unfold maxControlPayload
  omega

theorem parse_status (code : CloseCode) (text : Bytes) :
    parse (beBytes 2 code.value.toNat ++ text) =
      if code.isValid then
        match String.fromUTF8? text.toByteArray with
        | some reason => .ok ⟨some code, reason⟩
        | none => .error .closeReasonNotUtf8
      else .error .closeStatus := by
  have hnat : beNat (beBytes 2 code.value.toNat) = code.value.toNat :=
    beNat_beBytes code.value.toNat_lt
  have hlen := length_beBytes 2 code.value.toNat
  generalize beBytes 2 code.value.toNat = front at hnat hlen
  obtain ⟨x, y, rfl⟩ := List.length_eq_two.mp hlen
  have hcode : (⟨(beNat [x, y]).toUInt16⟩ : CloseCode) = code := by
    rw [hnat]
    simp
  subst hcode
  rfl

theorem parse_written {code : CloseCode} (hvalid : code.isValid = true) (reason : String) :
    parse (beBytes 2 code.value.toNat ++ reason.toUTF8.toList) = .ok ⟨some code, reason⟩ := by
  rw [parse_status, if_pos hvalid, toByteArray_toList, fromUTF8?_toUTF8]

theorem parse_encode {code : CloseCode} {reason : String} {b : Bytes}
    (h : encode code reason = .ok b) : parse b = .ok ⟨some code, reason⟩ := by
  obtain ⟨hs, -, rfl⟩ := encode_eq_ok.mp h
  rw [CloseCode.isSendable, Bool.and_eq_true] at hs
  exact parse_written hs.1 reason

end ClosePayload

end WebSocket
