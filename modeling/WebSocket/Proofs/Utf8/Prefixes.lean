import Mathlib.Data.List.Forall2
import WebSocket.Proofs.Utf8

/-! Which bytes are taken one by one. Those that begin some text are, and no others; and no character
is unfinished exactly when they are a whole text. -/

namespace WebSocket.Utf8

/-- The front of some text. -/
def Begins (b : Bytes) : Prop := ∃ more, WellFormed (b ++ more)

/-! The characters, from their bytes. -/

theorem exists_char {v : Nat} (hv : v.isValidChar) :
    ∃ c, String.utf8EncodeChar c =
      if v ≤ 127 then [.ofNat v]
      else if v ≤ 2047 then [.ofNat (v / 64 % 32 + 192), .ofNat (v % 64 + 128)]
      else if v ≤ 65535 then
        [.ofNat (v / 4096 % 16 + 224), .ofNat (v / 64 % 64 + 128), .ofNat (v % 64 + 128)]
      else
        [.ofNat (v / 262144 % 8 + 240), .ofNat (v / 4096 % 64 + 128), .ofNat (v / 64 % 64 + 128),
          .ofNat (v % 64 + 128)] := by
  have hval : (Char.ofNatAux v hv).val.toNat = v := rfl
  exact ⟨Char.ofNatAux v hv, by rw [String.utf8EncodeChar, hval]⟩

theorem has_iff (r : ByteRange) (b : UInt8) :
    r.has b = true ↔ r.low.toNat ≤ b.toNat ∧ b.toNat ≤ r.high.toNat := by
  simp [ByteRange.has, UInt8.le_iff_toNat_le]

theorem char_one {x : UInt8} (hx : x ≤ 0x7f) : ∃ c, String.utf8EncodeChar c = [x] := by
  have hx : x.toNat ≤ 127 := hx
  obtain ⟨c, hc⟩ := exists_char (v := x.toNat) (.inl (by omega))
  exact ⟨c, by rw [hc, if_pos hx, UInt8.ofNat_toNat]⟩

theorem char_two {x y : UInt8} (hx : 0xc2 ≤ x.toNat ∧ x.toNat ≤ 0xdf)
    (hy : 0x80 ≤ y.toNat ∧ y.toNat ≤ 0xbf) : ∃ c, String.utf8EncodeChar c = [x, y] := by
  obtain ⟨v, hv⟩ : ∃ v, v = (x.toNat - 0xc0) * 64 + (y.toNat - 0x80) := ⟨_, rfl⟩
  obtain ⟨c, hc⟩ := exists_char (v := v) (.inl (by omega))
  have h₁ : v / 64 % 32 + 192 = x.toNat := by omega
  have h₂ : v % 64 + 128 = y.toNat := by omega
  refine ⟨c, ?_⟩
  rw [hc, if_neg (by omega), if_pos (by omega), h₁, h₂]
  simp only [UInt8.ofNat_toNat]

theorem char_three {x y z : UInt8} (hx : 0xe0 ≤ x.toNat ∧ x.toNat ≤ 0xef)
    (hy : 0x80 ≤ y.toNat ∧ y.toNat ≤ 0xbf) (hz : 0x80 ≤ z.toNat ∧ z.toNat ≤ 0xbf)
    (hlow : x.toNat = 0xe0 → 0xa0 ≤ y.toNat) (hgap : x.toNat = 0xed → y.toNat ≤ 0x9f) :
    ∃ c, String.utf8EncodeChar c = [x, y, z] := by
  obtain ⟨v, hv⟩ : ∃ v, v = (x.toNat - 0xe0) * 4096 + (y.toNat - 0x80) * 64 + (z.toNat - 0x80) :=
    ⟨_, rfl⟩
  obtain ⟨c, hc⟩ := exists_char (v := v) (by unfold Nat.isValidChar; omega)
  have h₁ : v / 4096 % 16 + 224 = x.toNat := by omega
  have h₂ : v / 64 % 64 + 128 = y.toNat := by omega
  have h₃ : v % 64 + 128 = z.toNat := by omega
  refine ⟨c, ?_⟩
  rw [hc, if_neg (by omega), if_neg (by omega), if_pos (by omega), h₁, h₂, h₃]
  simp only [UInt8.ofNat_toNat]

theorem char_four {x y z w : UInt8} (hx : 0xf0 ≤ x.toNat ∧ x.toNat ≤ 0xf4)
    (hy : 0x80 ≤ y.toNat ∧ y.toNat ≤ 0xbf) (hz : 0x80 ≤ z.toNat ∧ z.toNat ≤ 0xbf)
    (hw : 0x80 ≤ w.toNat ∧ w.toNat ≤ 0xbf)
    (hlow : x.toNat = 0xf0 → 0x90 ≤ y.toNat) (hend : x.toNat = 0xf4 → y.toNat ≤ 0x8f) :
    ∃ c, String.utf8EncodeChar c = [x, y, z, w] := by
  obtain ⟨v, hv⟩ : ∃ v, v = (x.toNat - 0xf0) * 262144 + (y.toNat - 0x80) * 4096 +
      (z.toNat - 0x80) * 64 + (w.toNat - 0x80) := ⟨_, rfl⟩
  obtain ⟨c, hc⟩ := exists_char (v := v) (by unfold Nat.isValidChar; omega)
  have h₁ : v / 262144 % 8 + 240 = x.toNat := by omega
  have h₂ : v / 4096 % 64 + 128 = y.toNat := by omega
  have h₃ : v / 64 % 64 + 128 = z.toNat := by omega
  have h₄ : v % 64 + 128 = w.toNat := by omega
  refine ⟨c, ?_⟩
  rw [hc, if_neg (by omega), if_neg (by omega), if_neg (by omega), h₁, h₂, h₃, h₄]
  simp only [UInt8.ofNat_toNat]

abbrev InRanges (ranges : List ByteRange) (t : Bytes) : Prop :=
  List.Forall₂ (fun r b => r.has b = true) ranges t

/-- What the first byte of a character says, by the number of bytes that follow it. -/
inductive Leads (x : UInt8) : List ByteRange → Prop where
  | one (hx : x.toNat ≤ 0x7f) : Leads x []
  | two (hx : 0xc2 ≤ x.toNat ∧ x.toNat ≤ 0xdf) : Leads x [tailRange]
  | three (r : ByteRange) (hx : 0xe0 ≤ x.toNat ∧ x.toNat ≤ 0xef)
      (hr : 0x80 ≤ r.low.toNat ∧ r.low.toNat ≤ r.high.toNat ∧ r.high.toNat ≤ 0xbf)
      (hlow : x.toNat = 0xe0 → 0xa0 ≤ r.low.toNat) (hgap : x.toNat = 0xed → r.high.toNat ≤ 0x9f) :
      Leads x [r, tailRange]
  | four (r : ByteRange) (hx : 0xf0 ≤ x.toNat ∧ x.toNat ≤ 0xf4)
      (hr : 0x80 ≤ r.low.toNat ∧ r.low.toNat ≤ r.high.toNat ∧ r.high.toNat ≤ 0xbf)
      (hlow : x.toNat = 0xf0 → 0x90 ≤ r.low.toNat) (hend : x.toNat = 0xf4 → r.high.toNat ≤ 0x8f) :
      Leads x [r, tailRange, tailRange]

theorem leads_of_following {x : UInt8} {ranges : List ByteRange}
    (h : following x = some ranges) : Leads x ranges := by
  unfold following at h
  simp only [UInt8.le_iff_toNat_le, ← UInt8.toNat_inj, UInt8.reduceToNat] at h
  repeat' split at h
  all_goals cases h
  · exact .one (by omega)
  · exact .two (by omega)
  · exact .three ⟨0xa0, 0xbf⟩ (by omega) (by decide) (fun _ => by decide) (fun _ => by omega)
  · exact .three ⟨0x80, 0x9f⟩ (by omega) (by decide) (fun _ => by omega) (fun _ => by decide)
  · exact .three tailRange (by omega) (by decide) (fun _ => by omega) (fun _ => by omega)
  · exact .four ⟨0x90, 0xbf⟩ (by omega) (by decide) (fun _ => by decide) (fun _ => by omega)
  · exact .four tailRange (by omega) (by decide) (fun _ => by omega) (fun _ => by omega)
  · exact .four ⟨0x80, 0x8f⟩ (by omega) (by decide) (fun _ => by omega) (fun _ => by decide)

theorem char_of_following {x : UInt8} {ranges : List ByteRange} (h : following x = some ranges)
    {t : Bytes} (ht : InRanges ranges t) : ∃ c, String.utf8EncodeChar c = x :: t := by
  have htail : tailRange.low.toNat = 0x80 ∧ tailRange.high.toNat = 0xbf := by decide
  cases leads_of_following h with
  | one hx =>
    cases ht
    exact char_one hx
  | two hx =>
    obtain _ | ⟨hy, _ | _⟩ := ht
    rw [has_iff] at hy
    exact char_two hx (by omega)
  | three r hx hr hlow hgap =>
    obtain _ | ⟨hy, _ | ⟨hz, _ | _⟩⟩ := ht
    rw [has_iff] at hy hz
    exact char_three hx (by omega) (by omega) (by omega) (by omega)
  | four r hx hr hlow hend =>
    obtain _ | ⟨hy, _ | ⟨hz, _ | ⟨hw, _ | _⟩⟩⟩ := ht
    rw [has_iff] at hy hz hw
    exact char_four hx (by omega) (by omega) (by omega) (by omega) (by omega)

theorem has_low_of_following {x : UInt8} {ranges : List ByteRange} (h : following x = some ranges) :
    ∀ r ∈ ranges, r.has r.low = true := by
  have htail : tailRange.has tailRange.low = true := by decide
  cases leads_of_following h with
  | one => simp
  | two => simp [htail]
  | three r _ hr => simp [htail, has_iff r, hr.2.1]
  | four r _ hr => simp [htail, has_iff r, hr.2.1]

namespace Cursor

variable {c d : Cursor} {b : Bytes}

/-- A cursor with the ranges that the bytes of its unfinished character lie in. -/
inductive Partly : Cursor → Prop where
  | between : Partly rest
  | within {first : UInt8} {more : Bytes} (past : List ByteRange) (r : ByteRange)
      (ranges : List ByteRange) (hf : following first = some (past ++ r :: ranges))
      (hpast : InRanges past more) : Partly ⟨first :: more, r :: ranges⟩

/-- One more byte goes on with the unfinished character, or completes one. -/
theorem Partly.step (h : Partly c) {x : UInt8} (hx : c.step x = some d) :
    Partly d ∧ (d.seen = c.seen ++ [x] ∨
      d = rest ∧ ∃ ch, String.utf8EncodeChar ch = c.seen ++ [x]) := by
  cases h with
  | between =>
    simp only [Cursor.step, Cursor.rest] at hx
    split at hx
    · cases hx
    · next hf =>
      cases hx
      exact ⟨.between, .inr ⟨rfl, char_of_following hf .nil⟩⟩
    · next ranges hnil hf =>
      cases hx
      cases ranges with
      | nil => exact absurd rfl hnil
      | cons r ranges => exact ⟨.within [] r ranges hf .nil, .inl rfl⟩
  | within past r ranges hf hpast =>
    have hhas : r.has x = true := by
      by_contra hno
      simp [Cursor.step, hno] at hx
    have hmore := List.rel_append hpast (.cons hhas .nil)
    rcases step_within hx with ⟨rfl, rfl⟩ | ⟨hne, rfl⟩
    · exact ⟨.between, .inr ⟨rfl, char_of_following hf hmore⟩⟩
    · cases ranges with
      | nil => exact absurd rfl hne
      | cons r' ranges =>
        exact ⟨.within (past ++ [r]) r' ranges (by simpa using hf) hmore, .inl rfl⟩

theorem Partly.run (h : Partly c) (hb : c.run b = some d) :
    Partly d ∧ ∃ m : List Char, c.seen ++ b = m.flatMap String.utf8EncodeChar ++ d.seen := by
  induction b generalizing c with
  | nil =>
    cases hb
    exact ⟨h, [], List.append_nil _⟩
  | cons x b ih =>
    rw [Cursor.run] at hb
    split at hb
    · cases hb
    · next hx =>
      obtain ⟨hp, hseen⟩ := h.step hx
      obtain ⟨hd, m, hm⟩ := ih hp hb
      refine ⟨hd, ?_⟩
      rcases hseen with hseen | ⟨rfl, ch, hch⟩
      · rw [hseen, List.append_assoc] at hm
        exact ⟨m, hm⟩
      · refine ⟨ch :: m, ?_⟩
        rw [List.flatMap_cons, List.append_assoc, ← hm, hch, List.append_assoc]
        rfl

theorem run_inRanges {ranges : List ByteRange} {t : Bytes} (ht : InRanges ranges t)
    (hne : ranges ≠ []) (seen : Bytes) : run ⟨seen, ranges⟩ t = some rest := by
  induction ht generalizing seen with
  | nil => exact absurd rfl hne
  | @cons r x ranges t hx _ ih =>
    cases ranges with
    | nil =>
      cases ‹InRanges [] t›
      simp only [run, Cursor.step, hx, if_true]
    | cons r' ranges =>
      simp only [run, Cursor.step, hx, if_true]
      exact ih (by simp) _

theorem Partly.completes (h : Partly c) (hc : c ≠ rest) :
    ∃ more ch, more ≠ [] ∧ String.utf8EncodeChar ch = c.seen ++ more ∧
      c.run more = some rest := by
  cases h with
  | between => exact absurd rfl hc
  | @within first seen past r ranges hf hpast =>
    have hlows : InRanges (r :: ranges) ((r :: ranges).map ByteRange.low) := by
      rw [InRanges, List.forall₂_map_right_iff, List.forall₂_same]
      exact fun r hr => has_low_of_following hf r (List.mem_append_right past hr)
    obtain ⟨ch, hch⟩ := char_of_following hf (List.rel_append hpast hlows)
    exact ⟨_, ch, List.cons_ne_nil _ _, hch, run_inRanges hlows (List.cons_ne_nil _ _) _⟩

end Cursor

open Cursor

variable {b : Bytes}

theorem wellFormed_iff_run : WellFormed b ↔ rest.run b = some rest := by
  refine ⟨run_of_wellFormed, fun h => ?_⟩
  obtain ⟨-, m, hm⟩ := Partly.between.run h
  exact (wellFormed_iff b).mpr ⟨m, by simpa [rest] using hm⟩

theorem begins_iff_run : Begins b ↔ ∃ c, rest.run b = some c := by
  constructor
  · rintro ⟨more, hmore⟩
    have hrun := run_of_wellFormed hmore
    rw [run_append] at hrun
    obtain ⟨c, hc, -⟩ := Option.bind_eq_some_iff.mp hrun
    exact ⟨c, hc⟩
  · rintro ⟨c, hc⟩
    by_cases hrest : c = rest
    · exact ⟨[], by rw [List.append_nil, wellFormed_iff_run, hc, hrest]⟩
    · obtain ⟨more, -, -, -, hmore⟩ := (Partly.between.run hc).1.completes hrest
      refine ⟨more, wellFormed_iff_run.mpr ?_⟩
      rw [run_append, hc, Option.bind_some, hmore]

theorem WellFormed.begins (h : WellFormed b) : Begins b := ⟨[], by rwa [List.append_nil]⟩

theorem Begins.front {c : Bytes} (h : Begins (b ++ c)) : Begins b := by
  obtain ⟨more, hmore⟩ := h
  exact ⟨c ++ more, by rwa [← List.append_assoc]⟩

def Unfinished (b : Bytes) : Prop :=
  b ≠ [] ∧ ∃ more ch, more ≠ [] ∧ String.utf8EncodeChar ch = b ++ more

/-- What is said of a piece on its own. Its tail is given if it is text up to the middle of a
character; if it begins no text it is malformed. -/
theorem read_spec (b : Bytes) :
    match read b with
    | .whole => WellFormed b
    | .cut tail => ¬ WellFormed b ∧ ∃ front, b = front ++ tail ∧ WellFormed front ∧ Unfinished tail
    | .malformed => ¬ Begins b := by
  rw [read]
  cases hrun : rest.run b with
  | none =>
    rw [begins_iff_run, hrun]
    simp
  | some c =>
    obtain ⟨hpartly, m, hm⟩ := Partly.between.run hrun
    have hrest := (Standing.between.run hrun).eq_rest
    by_cases hnil : c.seen = []
    · rw [hrest hnil] at hrun
      simpa only [hnil, if_true] using wellFormed_iff_run.mpr hrun
    · have hc : c ≠ rest := by
        rintro rfl
        exact hnil rfl
      obtain ⟨more, ch, hmore, hch, -⟩ := hpartly.completes hc
      simp only [hnil, if_false]
      refine ⟨fun hw => hc ?_, _, hm, (wellFormed_iff _).mpr ⟨m, rfl⟩, hnil, more, ch, hmore, hch⟩
      rw [wellFormed_iff_run, hrun] at hw
      exact Option.some.inj hw

end WebSocket.Utf8
