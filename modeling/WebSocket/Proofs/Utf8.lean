import WebSocket.Proofs.Control
import WebSocket.Utf8.Validator

/-! Text that is read byte by byte or in pieces. Nothing is refused in well-formed text, wherever it
is cut, and after the last byte of it no character is unfinished. -/

namespace WebSocket.Utf8

def WellFormed (b : Bytes) : Prop := b.toByteArray.IsValidUTF8

theorem length_following {b : UInt8} {r : ByteRange} {ranges : List ByteRange}
    (h : following b = some (r :: ranges)) : 1 + (r :: ranges).length = characterLength b := by
  unfold following at h
  unfold characterLength
  repeat' split at h
  all_goals simp at h
  all_goals grind

namespace Cursor

/-- A cursor that can be reached from the start of a text. -/
inductive Standing : Cursor → Prop where
  | between : Standing rest
  | within (first : UInt8) (more : Bytes) (r : ByteRange) (ranges : List ByteRange)
      (hlen : (first :: more).length + (r :: ranges).length = characterLength first)
      (hseen : rest.run (first :: more) = some ⟨first :: more, r :: ranges⟩) :
      Standing ⟨first :: more, r :: ranges⟩

variable {c d : Cursor} {b : Bytes}

theorem Standing.eq_rest (h : Standing c) (hs : c.seen = []) : c = rest := by
  cases h with
  | between => rfl
  | within => simp at hs

/-- Within a character the next byte completes it or is one more of it. -/
theorem step_within {seen : Bytes} {r : ByteRange} {ranges : List ByteRange} {x : UInt8}
    (hx : step ⟨seen, r :: ranges⟩ x = some d) :
    (ranges = [] ∧ d = rest) ∨ (ranges ≠ [] ∧ d = ⟨seen ++ [x], ranges⟩) := by
  simp only [step] at hx
  split at hx
  · cases ranges with
    | nil =>
      cases hx
      exact .inl ⟨rfl, rfl⟩
    | cons r' ranges =>
      cases hx
      exact .inr ⟨by simp, rfl⟩
  · simp at hx

theorem Standing.step (h : Standing c) {x : UInt8} (hx : c.step x = some d) : Standing d := by
  cases h with
  | between =>
    have hrun : Cursor.rest.run [x] = some d := by rw [run, hx]; rfl
    simp only [Cursor.step, Cursor.rest] at hx
    split at hx
    · simp at hx
    · cases hx
      exact .between
    · next ranges hnil hf =>
      cases hx
      cases ranges with
      | nil => exact absurd rfl hnil
      | cons r ranges => exact .within x [] r ranges (length_following hf) hrun
  | within first more r ranges hlen hseen =>
    rcases step_within hx with ⟨-, rfl⟩ | ⟨hne, rfl⟩
    · exact .between
    · cases ranges with
      | nil => exact absurd rfl hne
      | cons r' ranges =>
        refine .within first (more ++ [x]) r' ranges ?_ ?_
        · simp only [List.length_cons, List.length_append, List.length_nil] at hlen ⊢
          omega
        · rw [← List.cons_append, run_append, hseen, Option.bind_some, run, hx]
          rfl

theorem Standing.run (h : Standing c) (hb : c.run b = some d) : Standing d := by
  induction b generalizing c with
  | nil =>
    cases hb
    exact h
  | cons x b ih =>
    rw [Cursor.run] at hb
    split at hb
    · simp at hb
    · next hx => exact ih (h.step hx) hb

theorem run_within {seen : Bytes} {ranges : List ByteRange} (hne : ranges ≠ [])
    (hlen : b.length ≤ ranges.length) (hb : run ⟨seen, ranges⟩ b = some d) :
    (b.length = ranges.length ∧ d = rest) ∨
      (b.length < ranges.length ∧ d = ⟨seen ++ b, ranges.drop b.length⟩) := by
  induction b generalizing seen ranges with
  | nil =>
    cases hb
    exact .inr ⟨List.length_pos_iff.mpr hne, by simp⟩
  | cons x b ih =>
    cases ranges with
    | nil => exact absurd rfl hne
    | cons r ranges =>
      rw [run] at hb
      split at hb
      · simp at hb
      · next hx =>
        rw [List.length_cons, List.length_cons, Nat.add_le_add_iff_right] at hlen
        rcases step_within hx with ⟨rfl, rfl⟩ | ⟨hne, rfl⟩
        · obtain rfl := List.length_eq_zero_iff.mp (Nat.le_zero.mp hlen)
          cases hb
          exact .inl ⟨rfl, rfl⟩
        · rcases ih hne hlen hb with ⟨hl, rfl⟩ | ⟨hl, rfl⟩
          · exact .inl ⟨by simp [hl], rfl⟩
          · exact .inr ⟨by simpa using hl, by simp⟩

end Cursor

namespace Validator

open Cursor

variable {c d : Cursor} {piece : Bytes}

theorem feedFresh_of_run (h : rest.run piece = some d) : feedFresh piece = (true, ⟨d.seen⟩) := by
  rw [feedFresh, read, h]
  dsimp only
  by_cases hs : d.seen = []
  · rw [if_pos hs, hs]
    rfl
  · rw [if_neg hs]

theorem feedFresh_of_refused (h : rest.run piece = none) : (feedFresh piece).1 = false := by
  rw [feedFresh, read, h]

/-- A piece fed within a character: the bytes that are missing from it, and what follows them. -/
theorem feed_within {first : UInt8} {more : Bytes} {r : ByteRange} {ranges : List ByteRange}
    (hlen : (first :: more).length + (r :: ranges).length = characterLength first)
    (hseen : rest.run (first :: more) = some ⟨first :: more, r :: ranges⟩) (piece : Bytes) :
    (run ⟨first :: more, r :: ranges⟩ piece = none ∧
      ((⟨first :: more⟩ : Validator).feed piece).1 = false) ∨
      ∃ d, run ⟨first :: more, r :: ranges⟩ piece = some d ∧
        (⟨first :: more⟩ : Validator).feed piece = (true, ⟨d.seen⟩) := by
  -- the piece is cut where the character that is unfinished should end
  have hmissing : characterLength first - (first :: more).length = (r :: ranges).length := by
    omega
  have hbegun : rest.run (first :: more ++ piece.take (r :: ranges).length) =
      run ⟨first :: more, r :: ranges⟩ (piece.take (r :: ranges).length) := by
    rw [run_append, hseen]
    rfl
  have hle : (piece.take (r :: ranges).length).length ≤ (r :: ranges).length := by
    rw [List.length_take]
    omega
  have hsplit : run ⟨first :: more, r :: ranges⟩ piece =
      (run ⟨first :: more, r :: ranges⟩ (piece.take (r :: ranges).length)).bind
        (·.run (piece.drop (r :: ranges).length)) := by
    rw [← run_append, List.take_append_drop]
  simp only [feed, hmissing]
  rw [read, hbegun, hsplit]
  cases hfront : run ⟨first :: more, r :: ranges⟩ (piece.take (r :: ranges).length) with
  | none => exact .inl ⟨rfl, rfl⟩
  | some c =>
    rw [Option.bind_some]
    rcases run_within (by simp) hle hfront with ⟨-, rfl⟩ | ⟨hlt, rfl⟩
    · cases hback : rest.run (piece.drop (r :: ranges).length) with
      | none => exact .inl ⟨rfl, feedFresh_of_refused hback⟩
      | some d => exact .inr ⟨d, rfl, feedFresh_of_run hback⟩
    · have hend : piece.drop (r :: ranges).length = [] := by
        rw [List.length_take] at hlt
        exact List.drop_eq_nil_of_le (by omega)
      rw [hend]
      exact .inr ⟨_, rfl, rfl⟩

/-- A piece is taken or refused as its bytes are, one by one. -/
theorem feed_eq (hc : Standing c) (piece : Bytes) :
    (c.run piece = none ∧ ((⟨c.seen⟩ : Validator).feed piece).1 = false) ∨
      ∃ d, c.run piece = some d ∧ (⟨c.seen⟩ : Validator).feed piece = (true, ⟨d.seen⟩) := by
  cases hc with
  | between =>
    cases h : rest.run piece with
    | none => exact .inl ⟨rfl, feedFresh_of_refused h⟩
    | some d => exact .inr ⟨d, rfl, feedFresh_of_run h⟩
  | within first more r ranges hlen hseen => exact feed_within hlen hseen piece

end Validator

/-! The bytes of a character. What they say is tried for all values of the bits in the first two
bytes; those that follow have six bits each and may have any value. -/

theorem tail_has : ∀ n < 64, tailRange.has (.ofNat (n + 0x80)) = true := by decide

theorem run_one : ∀ n ≤ 0x7f, Cursor.rest.run [.ofNat n] = some .rest := by decide

theorem run_two : ∀ a < 32, 2 ≤ a →
    Cursor.rest.run [.ofNat (a + 0xc0)] = some ⟨[.ofNat (a + 0xc0)], [tailRange]⟩ := by decide

theorem run_three : ∀ a < 16, ∀ b < 64, (a = 0 → 32 ≤ b) → (a = 13 → b < 32) →
    Cursor.rest.run [.ofNat (a + 0xe0), .ofNat (b + 0x80)] =
      some ⟨[.ofNat (a + 0xe0), .ofNat (b + 0x80)], [tailRange]⟩ := by decide +kernel

theorem run_four : ∀ a < 5, ∀ b < 64, (a = 0 → 16 ≤ b) → (a = 4 → b < 16) →
    Cursor.rest.run [.ofNat (a + 0xf0), .ofNat (b + 0x80)] =
      some ⟨[.ofNat (a + 0xf0), .ofNat (b + 0x80)], [tailRange, tailRange]⟩ := by decide +kernel

theorem run_last (seen : Bytes) {x : UInt8} (h : tailRange.has x = true) :
    Cursor.run ⟨seen, [tailRange]⟩ [x] = some .rest := by
  simp [Cursor.run, Cursor.step, h]

theorem run_last_two (seen : Bytes) {x y : UInt8} (hx : tailRange.has x = true)
    (hy : tailRange.has y = true) :
    Cursor.run ⟨seen, [tailRange, tailRange]⟩ [x, y] = some .rest := by
  simp [Cursor.run, Cursor.step, hx, hy]

theorem run_encodeChar (c : Char) : Cursor.rest.run (String.utf8EncodeChar c) = some .rest := by
  have hvalid : c.val.toNat < 0xd800 ∨ 0xdfff < c.val.toNat ∧ c.val.toNat < 0x110000 := c.valid
  unfold String.utf8EncodeChar
  dsimp only
  generalize c.val.toNat = v at hvalid
  split
  · next h1 => exact run_one v h1
  · split
    · next h1 h2 =>
      have := Cursor.run_append .rest [.ofNat (v / 64 % 32 + 0xc0)] [.ofNat (v % 64 + 0x80)]
      rw [run_two _ (by omega) (by omega), Option.bind_some,
        run_last _ (tail_has _ (by omega))] at this
      exact this
    · split
      · next h2 h3 =>
        have := Cursor.run_append .rest
          [.ofNat (v / 4096 % 16 + 0xe0), .ofNat (v / 64 % 64 + 0x80)] [.ofNat (v % 64 + 0x80)]
        rw [run_three _ (by omega) _ (by omega) (by omega) (by omega), Option.bind_some,
          run_last _ (tail_has _ (by omega))] at this
        exact this
      · next h3 =>
        have := Cursor.run_append .rest
          [.ofNat (v / 262144 % 8 + 0xf0), .ofNat (v / 4096 % 64 + 0x80)]
          [.ofNat (v / 64 % 64 + 0x80), .ofNat (v % 64 + 0x80)]
        rw [run_four _ (by omega) _ (by omega) (by omega) (by omega), Option.bind_some,
          run_last_two _ (tail_has _ (by omega)) (tail_has _ (by omega))] at this
        exact this

theorem wellFormed_iff (b : Bytes) :
    WellFormed b ↔ ∃ m : List Char, b = m.flatMap String.utf8EncodeChar := by
  constructor
  · rintro ⟨m, hm⟩
    refine ⟨m, ?_⟩
    have := congrArg (fun a : ByteArray => a.data.toList) hm
    simpa [List.utf8Encode] using this
  · rintro ⟨m, rfl⟩
    exact ⟨m, rfl⟩

theorem run_of_wellFormed {b : Bytes} (h : WellFormed b) : Cursor.rest.run b = some .rest := by
  obtain ⟨m, rfl⟩ := (wellFormed_iff b).mp h
  induction m with
  | nil => rfl
  | cons c m ih =>
    rw [List.flatMap_cons, Cursor.run_append, run_encodeChar, Option.bind_some]
    exact ih ((wellFormed_iff _).mpr ⟨m, rfl⟩)

end WebSocket.Utf8
