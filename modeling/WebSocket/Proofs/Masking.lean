import Mathlib.Data.List.Basic
import WebSocket.Masking

/-! Masking by words gives the same bytes as masking byte by byte. So a payload may be masked in
parts, each at its own offset, and masking once more gives it back. -/

namespace WebSocket

theorem Key.byteAt_congr (k : Key) {i j : Nat} (h : i % 4 = j % 4) : k.byteAt i = k.byteAt j := by
  unfold byteAt; rw [h]

theorem Key.byteAt_rotate (k : Key) (offset i : Nat) :
    (k.rotate offset).byteAt i = k.byteAt (offset + i) := by
  have h : i % 4 = 0 ∨ i % 4 = 1 ∨ i % 4 = 2 ∨ i % 4 = 3 := by omega
  rcases h with h | h | h | h <;> rw [show (k.rotate offset).byteAt i = _ by unfold byteAt; rw [h]] <;>
    exact byteAt_congr k (by omega)

/-- The payload from `offset` on, masked byte by byte. -/
def maskFrom (k : Key) (offset : Nat) (data : Bytes) : Bytes :=
  data.mapIdx fun i b => b ^^^ k.byteAt (offset + i)

theorem maskBytewise_eq (k : Key) (data : Bytes) : maskBytewise k data = maskFrom k 0 data := by
  simp [maskBytewise, maskFrom]

theorem maskBytewise_rotate (k : Key) (offset : Nat) (data : Bytes) :
    maskBytewise (k.rotate offset) data = maskFrom k offset data := by
  simp only [maskBytewise, maskFrom, Key.byteAt_rotate]

theorem maskFrom_append (k : Key) (offset : Nat) (a b : Bytes) :
    maskFrom k offset (a ++ b) = maskFrom k offset a ++ maskFrom k (offset + a.length) b := by
  simp only [maskFrom, List.mapIdx_append, Nat.add_assoc, Nat.add_comm a.length]

theorem maskFrom_congr (k : Key) {o o' : Nat} (h : o % 4 = o' % 4) (data : Bytes) :
    maskFrom k o data = maskFrom k o' data := by
  unfold maskFrom
  congr 1
  funext i b
  rw [k.byteAt_congr (show (o + i) % 4 = (o' + i) % 4 by omega)]

theorem maskFrom_maskFrom (k : Key) (offset : Nat) (data : Bytes) :
    maskFrom k offset (maskFrom k offset data) = data := by
  apply List.ext_getElem
  · simp [maskFrom]
  · intro i h _
    simp only [maskFrom, List.getElem_mapIdx, UInt8.xor_assoc, UInt8.xor_self, UInt8.xor_zero]

theorem xor_digits (x y : UInt8) (m n : Nat) :
    (x.toNat + 256 * m) ^^^ (y.toNat + 256 * n) = (x ^^^ y).toNat + 256 * (m ^^^ n) := by
  have hx := x.toNat_lt
  have hy := y.toNat_lt
  have hxy := (x ^^^ y).toNat_lt
  have hdiv := Nat.xor_div_two_pow (a := x.toNat + 256 * m) (b := y.toNat + 256 * n) (n := 8)
  have hmod := Nat.xor_mod_two_pow (a := x.toNat + 256 * m) (b := y.toNat + 256 * n) (n := 8)
  have h1 : (x.toNat + 256 * m) / 2 ^ 8 = m := by omega
  have h2 : (y.toNat + 256 * n) / 2 ^ 8 = n := by omega
  have h3 : (x.toNat + 256 * m) % 2 ^ 8 = x.toNat := by omega
  have h4 : (y.toNat + 256 * n) % 2 ^ 8 = y.toNat := by omega
  rw [h1, h2] at hdiv
  rw [h3, h4, ← UInt8.toNat_xor] at hmod
  omega

theorem bytesOfWord_xor (a b : Bytes) (h : a.length = b.length) :
    bytesOfWord a.length (wordOfBytes a ^^^ wordOfBytes b) = List.zipWith (· ^^^ ·) a b := by
  induction a generalizing b with
  | nil => rfl
  | cons x a ih =>
    cases b with
    | nil => simp at h
    | cons y b =>
      have hxy := (x ^^^ y).toNat_lt
      have hlow : Nat.toUInt8 ((x ^^^ y).toNat + 256 * (wordOfBytes a ^^^ wordOfBytes b)) =
          x ^^^ y := by
        apply UInt8.toNat_inj.mp
        simp only [Nat.toUInt8, UInt8.toNat_ofNat']
        omega
      have hhigh : ((x ^^^ y).toNat + 256 * (wordOfBytes a ^^^ wordOfBytes b)) / 256 =
          wordOfBytes a ^^^ wordOfBytes b := by omega
      simp only [List.length_cons, wordOfBytes, xor_digits, bytesOfWord, hlow, hhigh,
        ih b (by simpa using h), List.zipWith_cons_cons]

theorem word_xor_expand (k : Key) (a : Bytes) :
    bytesOfWord a.length (wordOfBytes a ^^^ k.expand a.length) = maskBytewise k a := by
  rw [Key.expand, bytesOfWord_xor a _ (by simp)]
  apply List.ext_getElem
  · simp [maskBytewise]
  · intro i h _
    simp [maskBytewise]

/-- A word is a multiple of the key long, so every word sees the key alike. -/
theorem xorWords_expand (k : Key) {width : Nat} (h4 : width % 4 = 0) (count : Nat) (data : Bytes)
    (h : count * width ≤ data.length) :
    xorWords width (k.expand width) count data = maskBytewise k (data.take (count * width)) := by
  induction count generalizing data with
  | zero => simp [xorWords, maskBytewise]
  | succ count ih =>
    have hw : (count + 1) * width = width + count * width := by rw [Nat.succ_mul, Nat.add_comm]
    have hl : (data.take width).length = width := by
      rw [List.length_take]; omega
    have hrest : count * width ≤ (data.drop width).length := by
      rw [List.length_drop]; omega
    have hword := word_xor_expand k (data.take width)
    rw [hl] at hword
    rw [xorWords, hword, ih _ hrest, hw, List.take_add, maskBytewise_eq, maskBytewise_eq,
      maskBytewise_eq, maskFrom_append, hl, Nat.zero_add]
    congr 1
    exact maskFrom_congr k (by omega) _

theorem maskSplit_eq {width : Nat} (h4 : width % 4 = 0) (s : WordSplit) (k : Key) (data : Bytes)
    (h : s.head + s.words * width ≤ data.length) : maskSplit width s k data = maskBytewise k data := by
  have hhead : (data.take s.head).length = s.head := by rw [List.length_take]; omega
  have hrest : s.words * width ≤ (data.drop s.head).length := by rw [List.length_drop]; omega
  have hwords : ((data.drop s.head).take (s.words * width)).length = s.words * width := by
    rw [List.length_take]; omega
  have hsplit : data = data.take s.head ++ ((data.drop s.head).take (s.words * width) ++
      (data.drop s.head).drop (s.words * width)) := by
    rw [List.take_append_drop, List.take_append_drop]
  conv_rhs => rw [hsplit]
  simp only [maskSplit, xorWords_expand _ h4 _ _ hrest, maskBytewise_rotate]
  rw [maskBytewise_eq, maskBytewise_eq, maskFrom_append, maskFrom_append, hhead, hwords,
    Nat.zero_add, List.append_assoc]
  congr 2
  have hphase : s.words * width % 4 = 0 := by rw [Nat.mul_mod, h4, Nat.mul_zero, Nat.zero_mod]
  exact maskFrom_congr k (by omega) _

theorem mask_eq (k : Key) (data : Bytes) : mask k data = maskBytewise k data := by
  unfold mask
  split
  · rfl
  · have hwords : 0 + data.length / wordSize * wordSize ≤ data.length := by
      rw [Nat.zero_add]; exact Nat.div_mul_le_self _ _
    exact maskSplit_eq (by decide) _ k data hwords

theorem maskAt_eq (k : Key) (offset : Nat) (data : Bytes) :
    maskAt k offset data = maskFrom k offset data := by
  rw [maskAt, mask_eq, maskBytewise_rotate]

@[simp] theorem maskWith_nil (k : Option Key) (offset : Nat) : maskWith k offset [] = [] := by
  cases k with
  | none => rfl
  | some k => simp [maskWith, maskAt_eq, maskFrom]

@[simp] theorem length_maskWith (k : Option Key) (offset : Nat) (data : Bytes) :
    (maskWith k offset data).length = data.length := by
  cases k with
  | none => rfl
  | some k => simp [maskWith, maskAt_eq, maskFrom]

theorem maskWith_append (k : Option Key) (offset : Nat) (a b : Bytes) :
    maskWith k offset (a ++ b) = maskWith k offset a ++ maskWith k (offset + a.length) b := by
  cases k with
  | none => rfl
  | some k => simp only [maskWith, maskAt_eq, maskFrom_append]

@[simp] theorem maskWith_maskWith (k : Option Key) (offset : Nat) (data : Bytes) :
    maskWith k offset (maskWith k offset data) = data := by
  cases k with
  | none => rfl
  | some k => simp only [maskWith, maskAt_eq, maskFrom_maskFrom]

end WebSocket
