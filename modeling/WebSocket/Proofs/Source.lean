import WebSocket.Source.Layer

/-! What exact reads bring. It depends on what is still to come, a row of bytes with faults among
them, and neither on how that is cut into segments nor on the buffer. -/

namespace WebSocket

/-- What is still to come: bytes, and faults among them. -/
abbrev Coming := List (Except Fault UInt8)

def Segment.items : Segment → Coming
  | .data b => b.map .ok
  | .fault f => [.error f]

def ReadLayer.coming {σ : Type} (l : ReadLayer σ) (s : σ) : Coming :=
  (l.held s).map .ok ++ (l.segments s).flatMap Segment.items

def Source.coming (s : Source) : Coming := s.buffer.map .ok ++ s.segments.flatMap Segment.items

namespace Coming

/-- Reads `n` more bytes after those in `got`, one at a time. -/
def takeRest : Nat → Bytes → Coming → Except Fault (Option Bytes) × Coming
  | 0, got, xs => (.ok (some got), xs)
  | _ + 1, got, [] =>
    (if got = [] then .ok none else .error (.unexpectedEof "stream ended inside a frame"), [])
  | _ + 1, _, .error f :: xs => (.error f, xs)
  | n + 1, got, .ok b :: xs => takeRest n (got ++ [b]) xs

def takeExactly (n : Nat) (xs : Coming) : Except Fault (Option Bytes) × Coming := takeRest n [] xs

/-- What one read of at most `n` bytes brings, and what is to come after it. -/
inductive Brings (n : Nat) : Coming → Except Fault Bytes → Coming → Prop where
  | ended : Brings n [] (.ok []) []
  | bytes (b : Bytes) (xs : Coming) (hne : b ≠ []) (hle : b.length ≤ n) :
      Brings n (b.map .ok ++ xs) (.ok b) xs
  | fault (f : Fault) (xs : Coming) : Brings n (.error f :: xs) (.error f) xs

theorem takeRest_bytes (b : Bytes) {n : Nat} (hle : b.length ≤ n) (got : Bytes) (xs : Coming) :
    takeRest n got (b.map .ok ++ xs) = takeRest (n - b.length) (got ++ b) xs := by
  induction b generalizing n got with
  | nil => simp
  | cons x b ih =>
    obtain ⟨m, rfl⟩ : ∃ m, n = m + 1 := ⟨n - 1, by simp at hle; omega⟩
    have hle : b.length ≤ m := by simpa using hle
    rw [List.map_cons, List.cons_append, takeRest, ih hle, List.append_assoc,
      List.singleton_append, List.length_cons, Nat.add_sub_add_right]

theorem takeExactly_bytes (b : Bytes) (xs : Coming) :
    takeExactly b.length (b.map .ok ++ xs) = (.ok (some b), xs) := by
  rw [takeExactly, takeRest_bytes b (Nat.le_refl _), Nat.sub_self, List.nil_append, takeRest]

theorem takeExactly_short (b : Bytes) {n : Nat} (hlt : b.length < n) :
    takeExactly n (b.map .ok) =
      (if b = [] then .ok none else .error (.unexpectedEof "stream ended inside a frame"), []) := by
  have htake := takeRest_bytes b (Nat.le_of_lt hlt) [] []
  obtain ⟨m, hm⟩ : ∃ m, n - b.length = m + 1 := ⟨n - b.length - 1, by omega⟩
  rw [List.append_nil, hm] at htake
  rw [takeExactly, htake]
  rfl

end Coming

open Coming

/-- How a read goes on from what one read of the stream has brought. -/
theorem Coming.takeRest_of_brings {n : Nat} (hn : 0 < n) (got : Bytes) {xs ys : Coming}
    {r : Except Fault Bytes} :
    Brings n xs r ys → takeRest n got xs =
      match r with
      | .error f => (.error f, ys)
      | .ok [] =>
        (if got = [] then .ok none else .error (.unexpectedEof "stream ended inside a frame"), ys)
      | .ok (b :: bs) => takeRest (n - (bs.length + 1)) (got ++ b :: bs) ys := by
  intro h
  cases h with
  | ended | fault =>
    obtain ⟨m, rfl⟩ : ∃ m, n = m + 1 := ⟨n - 1, by omega⟩
    rfl
  | bytes b _ hne hle =>
    rw [takeRest_bytes b hle]
    cases b with
    | nil => exact absurd rfl hne
    | cons x b => rfl

/-! What one read brings. -/

theorem HandsOut.cut {n : Nat} (hn : 0 < n) (b : Bytes) :
    HandsOut n (.ok b) (.ok (b.take n)) (b.drop n) := by
  by_cases hb : b = []
  · rw [hb, List.take_nil, List.drop_nil]
    exact .ended
  · have hfront : b.take n ≠ [] := by
      simpa [List.take_eq_nil_iff, hb] using Nat.pos_iff_ne_zero.mp hn
    have := HandsOut.bytes (b.take n) (b.drop n) hfront (List.length_take_le n b)
    rwa [List.take_append_drop] at this

theorem Coming.Brings.handsOut {n m : Nat} {xs ys : Coming} {given r : Except Fault Bytes}
    {rest : Bytes} (h : Brings m xs given ys) (hout : HandsOut n given r rest) :
    Brings n xs r (rest.map .ok ++ ys) := by
  cases hout with
  | ended =>
    cases h with
    | ended => exact .ended
    | bytes _ _ hne => exact absurd rfl hne
  | fault f =>
    cases h
    exact .fault f ys
  | bytes front rest hne hle =>
    generalize hb : front ++ rest = b at h
    cases h with
    | ended => exact absurd (List.append_eq_nil_iff.mp hb).1 hne
    | bytes =>
      rw [← hb, List.map_append, List.append_assoc]
      exact .bytes front _ hne hle

theorem Coming.Brings.length_le {n : Nat} {xs ys : Coming} {b : Bytes}
    (h : Brings n xs (.ok b) ys) : b.length ≤ n := by
  cases h with
  | ended => exact Nat.zero_le n
  | bytes _ _ _ hle => exact hle

theorem Coming.Brings.handsOut_self {n : Nat} {xs ys : Coming} {r : Except Fault Bytes}
    (h : Brings n xs r ys) : HandsOut n r r [] := by
  cases h with
  | ended => exact .ended
  | fault f => exact .fault f
  | bytes b _ hne hle => simpa using HandsOut.bytes b [] hne hle

theorem readSegments_brings {n : Nat} (hn : 0 < n) (segments : List Segment) :
    Brings n (segments.flatMap Segment.items) (readSegments n segments).1
      ((readSegments n segments).2.flatMap Segment.items) := by
  induction segments with
  | nil => exact .ended
  | cons s rest ih =>
    cases s with
    | fault f => exact .fault f _
    | data b =>
      cases b with
      | nil => exact ih
      | cons x b =>
        have hall : Brings (x :: b).length _ (.ok (x :: b)) (rest.flatMap Segment.items) :=
          .bytes _ _ (List.cons_ne_nil x b) (Nat.le_refl _)
        exact hall.handsOut (.cut hn (x :: b))

namespace ReadLayer

variable {σ : Type} {l : ReadLayer σ}

theorem HoldsOneRead.read_brings (hl : l.HoldsOneRead) {n : Nat} (hn : 0 < n) (s : σ) :
    Brings n (l.coming s) (l.read s n).1 (l.coming (l.read s n).2) := by
  by_cases hheld : l.held s = []
  · obtain ⟨m, hm, hrest, hout⟩ := hl.readsOn s n hn hheld
    rw [coming, coming, hheld, hrest]
    exact (readSegments_brings hm (l.segments s)).handsOut hout
  · obtain ⟨hrest, hout⟩ := hl.handsOut s n hn hheld
    have hall : Brings (l.held s).length (l.coming s) (.ok (l.held s)) _ :=
      .bytes _ _ hheld (Nat.le_refl _)
    rw [coming, coming, hrest]
    exact hall.handsOut hout

theorem HoldsOneRead.takeRest_of_read (hl : l.HoldsOneRead) {s s' : σ} {n : Nat} (hn : 0 < n)
    (got : Bytes) {r : Except Fault Bytes} :
    l.read s n = (r, s') → takeRest n got (l.coming s) =
      match r with
      | .error f => (.error f, l.coming s')
      | .ok [] =>
        (if got = [] then .ok none else .error (.unexpectedEof "stream ended inside a frame"),
          l.coming s')
      | .ok (b :: bs) => takeRest (n - (bs.length + 1)) (got ++ b :: bs) (l.coming s') := by
  intro hread
  have hbrings := hl.read_brings hn s
  rw [hread] at hbrings
  exact takeRest_of_brings hn got hbrings

theorem HoldsOneRead.filled_le (hl : l.HoldsOneRead) {s s' : σ} {buffer b : Bytes} {filled : Nat}
    (hlt : filled < buffer.length) (hread : l.read s (buffer.length - filled) = (.ok b, s')) :
    filled + b.length ≤ buffer.length := by
  have hbrings := hl.read_brings (Nat.sub_pos_of_lt hlt) s
  rw [hread] at hbrings
  have := hbrings.length_le
  omega

end ReadLayer

/-! A buffer that is filled in place. -/

theorem length_overwrite {buffer b : Bytes} {place : Nat} (hle : place + b.length ≤ buffer.length) :
    (overwrite buffer place b).length = buffer.length := by
  simp only [overwrite, List.length_append, List.length_take, List.length_drop]
  omega

theorem take_overwrite_cons {buffer : Bytes} {place : Nat} (hle : place ≤ buffer.length) (x : UInt8)
    (b : Bytes) :
    (overwrite buffer place (x :: b)).take (place + (b.length + 1)) =
      buffer.take place ++ x :: b := by
  have hlen : (buffer.take place ++ x :: b).length = place + (b.length + 1) := by
    rw [List.length_append, List.length_take_of_le hle, List.length_cons]
  rw [overwrite, ← hlen, List.take_left]

theorem take_eq_nil_iff_of_lt {buffer : Bytes} {filled : Nat} (hlt : filled < buffer.length) :
    buffer.take filled = [] ↔ filled = 0 := by
  rw [← List.length_eq_zero_iff, List.length_take_of_le (Nat.le_of_lt hlt)]

/-- The front that is filled is what has come so far, and filling goes on as reading does. -/
theorem ReadLayer.HoldsOneRead.fill_eq {σ : Type} {l : ReadLayer σ} (hl : l.HoldsOneRead) (s : σ)
    (buffer : Bytes) (filled : Nat) (hle : filled ≤ buffer.length) :
    ((l.fill s buffer filled).result.1, l.coming (l.fill s buffer filled).result.2) =
      takeRest (buffer.length - filled) (buffer.take filled) (l.coming s) := by
  fun_induction l.fill s buffer filled with
  | case1 s buffer filled hlt f s' hread =>
    exact (hl.takeRest_of_read (Nat.sub_pos_of_lt hlt) _ hread).symm
  | case2 s buffer filled hlt s' hread =>
    rw [hl.takeRest_of_read (Nat.sub_pos_of_lt hlt) _ hread]
    simp only [take_eq_nil_iff_of_lt hlt]
    split <;> rfl
  | case3 s buffer filled hlt b bs s' hread ih =>
    have hplace := hl.filled_le hlt hread
    have ih := ih ((length_overwrite hplace).symm ▸ hplace)
    rw [length_overwrite hplace, ← Nat.sub_sub, take_overwrite_cons hle] at ih
    exact ih.trans (hl.takeRest_of_read (Nat.sub_pos_of_lt hlt) _ hread).symm
  | case4 s buffer filled hall =>
    have hfull : filled = buffer.length := Nat.le_antisymm hle (Nat.not_lt.mp hall)
    rw [hfull, Nat.sub_self, List.take_length]
    rfl

/-- An exact read goes by what is to come. -/
theorem ReadLayer.HoldsOneRead.readExactly_eq {σ : Type} {l : ReadLayer σ} (hl : l.HoldsOneRead)
    (s : σ) (n : Nat) :
    ((l.readExactly s n).1, l.coming (l.readExactly s n).2) = takeExactly n (l.coming s) := by
  have h := hl.fill_eq s (List.replicate n 0) 0 (Nat.zero_le _)
  rwa [Nat.sub_zero, List.length_replicate, List.take_zero] at h

namespace Source

/-- If nothing is held, a request as large as the buffer goes to the stream, and a smaller one fills
the buffer. -/
theorem layer_holdsOneRead : layer.HoldsOneRead where
  handsOut s n hn hheld := by
    obtain ⟨capacity, buffer, segments⟩ := s
    cases buffer with
    | nil => exact absurd rfl hheld
    | cons b bs => exact ⟨rfl, .cut hn (b :: bs)⟩
  readsOn s n hn hheld := by
    obtain ⟨capacity, buffer, segments⟩ := s
    obtain rfl : buffer = [] := hheld
    by_cases hcap : capacity ≤ n
    · have hself := (readSegments_brings hn segments).handsOut_self
      refine ⟨n, hn, ?_⟩
      simpa only [layer, readSome, if_pos hcap, true_and] using hself
    · refine ⟨capacity, by omega, ?_⟩
      simp only [layer, readSome, if_neg hcap]
      generalize readSegments capacity segments = given
      obtain ⟨f | b, rest⟩ := given
      · exact ⟨rfl, .fault f⟩
      · exact ⟨rfl, .cut hn b⟩

theorem layer_fill (s : Source) (buffer : Bytes) (filled : Nat) (hle : filled ≤ buffer.length) :
    (layer.fill s buffer filled).result =
      s.readRest (buffer.length - filled) (buffer.take filled) := by
  fun_induction layer.fill s buffer filled with
  | case1 s buffer filled hlt f s' hread =>
    have hread : s.readSome (buffer.length - filled) = _ := hread
    rw [readRest, if_neg (Nat.sub_ne_zero_of_lt hlt), hread]
    rfl
  | case2 s buffer filled hlt s' hread =>
    have hread : s.readSome (buffer.length - filled) = _ := hread
    rw [readRest, if_neg (Nat.sub_ne_zero_of_lt hlt), hread]
    simp only [take_eq_nil_iff_of_lt hlt]
    split <;> rfl
  | case3 s buffer filled hlt b bs s' hread ih =>
    have hplace := layer_holdsOneRead.filled_le hlt hread
    have hread : s.readSome (buffer.length - filled) = _ := hread
    have ih := ih ((length_overwrite hplace).symm ▸ hplace)
    rw [length_overwrite hplace, ← Nat.sub_sub, take_overwrite_cons hle] at ih
    rw [readRest, if_neg (Nat.sub_ne_zero_of_lt hlt), hread]
    exact ih
  | case4 s buffer filled hall =>
    have hfull : filled = buffer.length := Nat.le_antisymm hle (Nat.not_lt.mp hall)
    rw [hfull, Nat.sub_self, List.take_length, readRest]
    rfl

theorem layer_readExactly (s : Source) (n : Nat) : layer.readExactly s n = s.readExactly n := by
  have h := layer_fill s (List.replicate n 0) 0 (Nat.zero_le _)
  rwa [Nat.sub_zero, List.length_replicate, List.take_zero] at h

theorem readExactly_eq (s : Source) (n : Nat) :
    ((s.readExactly n).1, (s.readExactly n).2.coming) = takeExactly n s.coming := by
  rw [← layer_readExactly]
  exact layer_holdsOneRead.readExactly_eq s n

end Source

end WebSocket
