import WebSocket.Proofs.Header.Shortest
import WebSocket.Proofs.Utf8

/-! Close payloads, written and read. What is written is read back. What is read is empty or begins
with a status that may be received, and unless it is too long or its status may not be sent, writing
gives it back. -/

namespace WebSocket

/-! Text and its bytes. -/

theorem eq_of_fromUTF8? {b : Bytes} {s : String} (h : String.fromUTF8? b.toByteArray = some s) :
    b = s.toUTF8.toList := by
  rw [String.fromUTF8?] at h
  split at h
  · cases h
    rw [toList_eq]
    exact (List.data_toByteArray ▸ rfl)
  · cases h

theorem fromUTF8?_eq_none {b : Bytes} :
    String.fromUTF8? b.toByteArray = none ↔ ¬ Utf8.WellFormed b := by
  rw [String.fromUTF8?, Utf8.WellFormed]
  split <;> simp_all

theorem wellFormed_toUTF8 (s : String) : Utf8.WellFormed s.toUTF8.toList := by
  rw [Utf8.WellFormed, toByteArray_toList]
  exact s.isValidUTF8

namespace ClosePayload

/-- There are two bytes in front that are a status which may be received. -/
def HasStatus (b : Bytes) : Prop :=
  2 ≤ b.length ∧ ∃ code : CloseCode, code.isValid = true ∧ beNat (b.take 2) = code.value.toNat

theorem hasStatus_append {code : CloseCode} {text : Bytes} :
    HasStatus (beBytes 2 code.value.toNat ++ text) ↔ code.isValid = true := by
  have hlen := length_beBytes 2 code.value.toNat
  have hnat : beNat ((beBytes 2 code.value.toNat ++ text).take 2) = code.value.toNat := by
    rw [List.take_left' hlen]
    exact beNat_beBytes code.value.toNat_lt
  rw [HasStatus, hnat, List.length_append, hlen]
  constructor
  · rintro ⟨-, other, hvalid, heq⟩
    obtain rfl : code = other := by
      cases code
      cases other
      exact congrArg CloseCode.mk (UInt16.toNat_inj.mp heq)
    exact hvalid
  · exact fun hvalid => ⟨Nat.le_add_right _ _, code, hvalid, rfl⟩

theorem exists_status {b : Bytes} (h : 2 ≤ b.length) :
    ∃ code : CloseCode, b = beBytes 2 code.value.toNat ++ b.drop 2 := by
  have hfront : (b.take 2).length = 2 := List.length_take_of_le h
  have hlt : beNat (b.take 2) < UInt16.size := by
    have := beNat_lt (b.take 2)
    rwa [hfront] at this
  refine ⟨⟨.ofNatLT _ hlt⟩, ?_⟩
  have hback := beBytes_beNat (b.take 2)
  rw [hfront] at hback
  rw [UInt16.toNat_ofNatLT, hback, List.take_append_drop]

variable {b : Bytes} {code : CloseCode} {reason : String}

theorem HasStatus.ne_nil (h : HasStatus b) : b ≠ [] :=
  List.ne_nil_of_length_pos (Nat.lt_of_lt_of_le Nat.two_pos h.1)

inductive Judged (b : Bytes) : Except Violation ClosePayload → Prop where
  | empty (h : b = []) : Judged b (.ok ⟨none, ""⟩)
  | text (code : CloseCode) (reason : String) (hvalid : code.isValid = true)
      (h : b = beBytes 2 code.value.toNat ++ reason.toUTF8.toList) (hstatus : HasStatus b)
      (htext : Utf8.WellFormed (b.drop 2)) : Judged b (.ok ⟨some code, reason⟩)
  | noText (hstatus : HasStatus b) (htext : ¬ Utf8.WellFormed (b.drop 2)) :
      Judged b (.error .closeReasonNotUtf8)
  | noStatus (v : Violation) (hcode : v.code = .protocolError) (hne : b ≠ [])
      (hstatus : ¬ HasStatus b) : Judged b (.error v)

theorem judged_parse (b : Bytes) : Judged b (parse b) := by
  match b with
  | [] => exact .empty rfl
  | [x] => exact .noStatus _ rfl (by simp) (by simp [HasStatus])
  | x :: y :: text =>
    -- any two bytes are a status, and so the payload is one that might have been written
    obtain ⟨code, hsplit⟩ := exists_status (b := x :: y :: text) (by simp)
    rw [List.drop_succ_cons, List.drop_succ_cons, List.drop_zero] at hsplit
    have hdrop : (beBytes 2 code.value.toNat ++ text).drop 2 = text :=
      List.drop_left' (length_beBytes 2 code.value.toNat)
    rw [hsplit, parse_status]
    split
    · next hvalid =>
      split
      · next reason hreason =>
        obtain rfl := eq_of_fromUTF8? hreason
        exact .text code reason hvalid rfl (hasStatus_append.mpr hvalid)
          (hdrop.symm ▸ wellFormed_toUTF8 reason)
      · next hnone =>
        exact .noText (hasStatus_append.mpr hvalid) (hdrop.symm ▸ fromUTF8?_eq_none.mp hnone)
    · next hvalid =>
      exact .noStatus _ rfl (hsplit ▸ List.cons_ne_nil x _) (hvalid ∘ hasStatus_append.mp)

theorem parse_eq_some : parse b = .ok ⟨some code, reason⟩ ↔
    code.isValid = true ∧ b = beBytes 2 code.value.toNat ++ reason.toUTF8.toList := by
  constructor
  · intro h
    have hj := judged_parse b
    rw [h] at hj
    cases hj with
    | text _ _ hvalid hb => exact ⟨hvalid, hb⟩
  · rintro ⟨hvalid, rfl⟩
    exact parse_written hvalid reason

/-- What is read may be written, but for the limits on what is sent. -/
theorem encode_of_parse (h : parse b = .ok ⟨some code, reason⟩) (hlen : b.length ≤ 125)
    (hcode : code ≠ .tlsHandshake) : encode code reason = .ok b := by
  obtain ⟨hvalid, rfl⟩ := parse_eq_some.mp h
  rw [List.length_append, length_beBytes, length_toUTF8] at hlen
  refine encode_eq_ok.mpr ⟨?_, ?_, rfl⟩
  · rw [CloseCode.isSendable, hvalid, Bool.true_and]
    exact bne_iff_ne.mpr hcode
  · rw [maxReason, maxControlPayload]
    omega

/-- What is known of a code and a reason that are to be sent. The reason counts in bytes. -/
structure Written (code : CloseCode) (reason : String) : Prop where
  accepted : (∃ b, encode code reason = .ok b) ↔
    code.isSendable = true ∧ reason.toUTF8.toList.length ≤ 123
  short : ∀ b, encode code reason = .ok b → b.length ≤ 125
  readBack : ∀ b, encode code reason = .ok b → parse b = .ok ⟨some code, reason⟩

theorem written (code : CloseCode) (reason : String) : Written code reason where
  accepted := by
    simp only [encode_eq_ok, exists_and_left, exists_eq, and_true, length_toUTF8]
    rfl
  short _ := length_encode
  readBack _ := parse_encode

/-- When a payload is accepted, and with which code it is refused otherwise. -/
structure Verdict (b : Bytes) (r : Except Violation ClosePayload) : Prop where
  accepted : (∃ p, r = .ok p) ↔ b = [] ∨ HasStatus b ∧ Utf8.WellFormed (b.drop 2)
  notUtf8 : (∃ v, r = .error v ∧ v.code = .invalidPayload) ↔
    HasStatus b ∧ ¬ Utf8.WellFormed (b.drop 2)
  noStatus : (∃ v, r = .error v ∧ v.code = .protocolError) ↔ b ≠ [] ∧ ¬ HasStatus b
  empty : ∀ reason, r = .ok ⟨none, reason⟩ ↔ b = [] ∧ reason = ""

theorem Judged.verdict {r : Except Violation ClosePayload} (h : Judged b r) : Verdict b r := by
  have hcodes : CloseCode.invalidPayload ≠ .protocolError := by decide
  cases h with
  | empty hb =>
    have hnil : ¬ HasStatus [] := fun h => h.ne_nil rfl
    constructor <;> simp [hb, hnil, eq_comm]
  | text code reason hvalid hb hstatus htext =>
    constructor <;> simp [hstatus, htext, hstatus.ne_nil]
  | noText hstatus htext =>
    constructor <;> simp [hstatus, htext, hstatus.ne_nil, Violation.code, hcodes]
  | noStatus v hcode hne hstatus =>
    constructor <;> simp [hcode, hne, hstatus, hcodes.symm]

/-- What is known of a payload that has come in and of the result of reading it. -/
structure Received (b : Bytes) (r : Except Violation ClosePayload) : Prop extends Verdict b r where
  content : ∀ code reason, r = .ok ⟨some code, reason⟩ ↔
    code.isValid = true ∧ b = beBytes 2 code.value.toNat ++ reason.toUTF8.toList
  writtenBack : ∀ code reason, r = .ok ⟨some code, reason⟩ → b.length ≤ 125 →
    code ≠ .tlsHandshake → encode code reason = .ok b

theorem received (b : Bytes) : Received b (parse b) where
  toVerdict := (judged_parse b).verdict
  content _ _ := parse_eq_some
  writtenBack _ _ := encode_of_parse

/-- For every code and reason, and for all bytes. -/
theorem exact_both_ways :
    (∀ code reason, Written code reason) ∧ ∀ b : Bytes, Received b (parse b) :=
  ⟨written, received⟩

/-- The status 1015 may be received, but not sent. -/
example : parse [0x03, 0xf7] = .ok ⟨some .tlsHandshake, ""⟩ ∧
    encode .tlsHandshake "" = .error .closeStatus := by decide +kernel

end ClosePayload

end WebSocket
