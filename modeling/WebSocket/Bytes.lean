/-!
Byte strings, and unsigned numbers written most significant byte first. Writing a number in enough
bytes and reading it back gives the number.
-/

namespace WebSocket

abbrev Bytes := List UInt8

/-- The number whose base-256 digits are the given bytes, most significant first. -/
def beNat (b : Bytes) : Nat := b.foldl (fun n x => n * 256 + x.toNat) 0

/-- The last `width` base-256 digits of a number, most significant first. -/
def beBytes : Nat → Nat → Bytes
  | 0, _ => []
  | width + 1, n => beBytes width (n / 256) ++ [n.toUInt8]

@[simp] theorem length_beBytes (width n : Nat) : (beBytes width n).length = width := by
  induction width generalizing n with
  | zero => rfl
  | succ width ih => simp [beBytes, ih]

theorem beNat_concat (b : Bytes) (x : UInt8) : beNat (b ++ [x]) = beNat b * 256 + x.toNat := by
  simp [beNat]

theorem beNat_beBytes {width n : Nat} (h : n < Nat.pow 256 width) :
    beNat (beBytes width n) = n := by
  induction width generalizing n with
  | zero =>
    have h : n < 1 := h
    obtain rfl : n = 0 := by omega
    rfl
  | succ width ih =>
    have h : n < Nat.pow 256 width * 256 := h
    have hq : n / 256 < Nat.pow 256 width := by omega
    rw [beBytes, beNat_concat, ih hq]
    simp only [Nat.toUInt8, UInt8.toNat_ofNat']
    omega

end WebSocket
