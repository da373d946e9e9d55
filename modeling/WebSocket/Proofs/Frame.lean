import WebSocket.Frame
import WebSocket.Message
import WebSocket.Proofs.Header.Codec
import WebSocket.Proofs.Masking

/-! Rows of frames. Frames that were written one after the other can be told apart again, also when
only a part of the last one has been written. -/

namespace WebSocket

namespace Frame

def bytes (f : Frame) : Bytes := build f.header f.payload

def rowBytes (fs : List Frame) : Bytes := fs.flatMap bytes

/-- The payload has the announced length. -/
def Whole (f : Frame) : Prop := f.payload.length = f.header.payloadLength.toNat

instance (f : Frame) : Decidable f.Whole := inferInstanceAs (Decidable (_ = _))

@[simp] theorem rowBytes_nil : rowBytes [] = [] := rfl

@[simp] theorem rowBytes_cons (f : Frame) (fs : List Frame) :
    rowBytes (f :: fs) = f.bytes ++ rowBytes fs := rfl

@[simp] theorem rowBytes_append (fs gs : List Frame) :
    rowBytes (fs ++ gs) = rowBytes fs ++ rowBytes gs := List.flatMap_append

theorem bytes_eq (f : Frame) :
    f.bytes = f.header.encode ++ maskWith f.header.mask 0 f.payload := rfl

theorem bytes_ne_nil (f : Frame) : f.bytes ≠ [] := by
  simp [bytes_eq, Header.encode]

theorem header_eq_of_bytes {f g : Frame} (hf : f.header.rsv < 8) (hg : g.header.rsv < 8)
    {x y : Bytes} (h : f.bytes ++ x = g.bytes ++ y) :
    f.header = g.header ∧ maskWith f.header.mask 0 f.payload ++ x =
      maskWith f.header.mask 0 g.payload ++ y := by
  simp only [bytes_eq, List.append_assoc] at h
  have hd := Header.decode?_encode_append f.header hf (maskWith f.header.mask 0 f.payload ++ x)
  rw [h, Header.decode?_encode_append g.header hg, Option.some.injEq, Prod.mk.injEq] at hd
  rw [hd.1] at h ⊢
  exact ⟨rfl, List.append_cancel_left h⟩

/-- Frames in a row, of which the last may be unfinished. -/
inductive Row : List Frame → Prop where
  | nil : Row []
  | last (f : Frame) (h : f.payload.length ≤ f.header.payloadLength.toNat) : Row [f]
  | cons {f : Frame} {fs : List Frame} (h : f.Whole) (hs : Row fs) : Row (f :: fs)

theorem Row.of_whole {fs : List Frame} (h : ∀ f ∈ fs, f.Whole) : Row fs := by
  induction fs with
  | nil => exact .nil
  | cons f fs ih => exact .cons (h f (by simp)) (ih fun g hg => h g (by simp [hg]))

theorem Row.append {fs gs : List Frame} (h : ∀ f ∈ fs, f.Whole) (hg : Row gs) : Row (fs ++ gs) := by
  induction fs with
  | nil => exact hg
  | cons f fs ih => exact .cons (h f (by simp)) (ih fun g hg => h g (by simp [hg]))

theorem Row.length_le {fs : List Frame} (h : Row fs) :
    ∀ f ∈ fs, f.payload.length ≤ f.header.payloadLength.toNat := by
  induction h with
  | nil => exact List.forall_mem_nil _
  | last f hf => simpa using hf
  | cons hw _ ih => exact List.forall_mem_cons.mpr ⟨Nat.le_of_eq hw, ih⟩

theorem Row.of_append {fs gs : List Frame} (h : Row (fs ++ gs)) : Row gs := by
  induction fs with
  | nil => exact h
  | cons f fs ih =>
    rw [List.cons_append] at h
    generalize hs : f :: (fs ++ gs) = ws at h
    cases h with
    | nil => simp at hs
    | last =>
      obtain ⟨-, hnil⟩ := List.cons.inj hs
      obtain ⟨-, rfl⟩ := List.append_eq_nil_iff.mp hnil
      exact .nil
    | cons _ hrow =>
      obtain ⟨-, rfl⟩ := List.cons.inj hs
      exact ih hrow

theorem payload_eq_of_masked {m : Option Key} {a b x y : Bytes} (hl : a.length = b.length)
    (h : maskWith m 0 a ++ x = maskWith m 0 b ++ y) : a = b ∧ x = y := by
  obtain ⟨hab, hxy⟩ := List.append_inj h (by simpa using hl)
  have := congrArg (maskWith m 0) hab
  rw [maskWith_maskWith, maskWith_maskWith] at this
  exact ⟨this, hxy⟩

theorem row_split {fs ws : List Frame} (hf : ∀ f ∈ fs, f.Whole ∧ f.header.rsv < 8)
    (hw : ∀ w ∈ ws, w.header.rsv < 8) (hrow : Row ws) {x : Bytes}
    (h : rowBytes fs ++ x = rowBytes ws) : ∃ rest, ws = fs ++ rest ∧ x = rowBytes rest := by
  induction fs generalizing ws with
  | nil => exact ⟨ws, rfl, h⟩
  | cons f fs ih =>
    obtain ⟨hwhole, hrsv⟩ := hf f (by simp)
    have hfs : ∀ g ∈ fs, g.Whole ∧ g.header.rsv < 8 := fun g hg => hf g (by simp [hg])
    cases hrow with
    | nil =>
      have hne := bytes_ne_nil f
      rw [rowBytes_cons, rowBytes_nil] at h
      simp_all
    | last w hle =>
      rw [rowBytes_cons, rowBytes_cons, List.append_assoc] at h
      obtain ⟨hh, hp⟩ := header_eq_of_bytes hrsv (hw w (by simp)) h
      have hlen := congrArg List.length hp
      simp only [List.length_append, length_maskWith, rowBytes_nil, List.length_nil] at hlen
      rw [Whole, hh] at hwhole
      obtain ⟨hpay, hrest⟩ := payload_eq_of_masked (by omega) hp
      obtain ⟨rest, hr, rfl⟩ := ih hfs (List.forall_mem_nil _) .nil hrest
      refine ⟨rest, ?_, rfl⟩
      rw [List.cons_append, ← hr]
      congr 1
      cases f; cases w; simp_all
    | @cons w ws hwh hws =>
      rw [rowBytes_cons, rowBytes_cons, List.append_assoc] at h
      obtain ⟨hh, hp⟩ := header_eq_of_bytes hrsv (hw w (by simp)) h
      have hlen : f.payload.length = w.payload.length := by
        rw [Whole] at hwhole hwh
        rw [hwhole, hwh, hh]
      obtain ⟨hpay, hrest⟩ := payload_eq_of_masked hlen hp
      obtain ⟨rest, rfl, hx⟩ := ih hfs (fun v hv => hw v (by simp [hv])) hws hrest
      refine ⟨rest, ?_, hx⟩
      rw [List.cons_append]
      congr 1
      cases f; cases w; simp_all

/-- A whole frame is read back from the front of any bytes. -/
theorem parse?_bytes_append (f : Frame) (hr : f.header.rsv < 8) (hw : f.Whole) (rest : Bytes) :
    parse? (f.bytes ++ rest) = some (f, f.bytes.length) := by
  have hdec := Header.decode?_encode_append f.header hr (maskWith f.header.mask 0 f.payload ++ rest)
  have hsplit : splitAt? f.header.payloadLength.toNat
      ((f.bytes ++ rest).drop f.header.encodedLength) =
      some (maskWith f.header.mask 0 f.payload, rest) := by
    rw [bytes_eq, List.append_assoc, ← Header.length_encode, List.drop_left]
    exact splitAt?_append (by rw [length_maskWith, hw]) rest
  have hlen : f.bytes.length = f.header.encodedLength + f.header.payloadLength.toNat := by
    rw [bytes_eq, List.length_append, Header.length_encode, length_maskWith, hw]
  rw [bytes_eq] at hsplit
  rw [hlen, bytes_eq, parse?, List.append_assoc, hdec]
  rw [List.append_assoc] at hsplit
  simp only [Option.bind_eq_bind, Option.bind_some, hsplit, maskWith_maskWith]

theorem parseAll_cons {b : Bytes} {f : Frame} {used : Nat} (h : parse? b = some (f, used)) :
    parseAll b = f :: parseAll (b.drop used) := by
  rw [parseAll]
  split
  · next f' used' h' => rw [h] at h'; cases h'; rfl
  · next h' => rw [h] at h'; cases h'

theorem parseAll_of_none {b : Bytes} (h : parse? b = none) : parseAll b = [] := by
  rw [parseAll]
  split
  · next h' => cases h.symm.trans h'
  · rfl

theorem parseAll_nil : parseAll [] = [] := parseAll_of_none rfl

/-- A row of whole frames is read back frame by frame. -/
theorem parseAll_rowBytes_append (fs : List Frame) (h : ∀ f ∈ fs, f.Whole ∧ f.header.rsv < 8)
    (rest : Bytes) : parseAll (rowBytes fs ++ rest) = fs ++ parseAll rest := by
  induction fs with
  | nil => rfl
  | cons f fs ih =>
    obtain ⟨hw, hr⟩ := h f (by simp)
    rw [rowBytes_cons, List.append_assoc, parseAll_cons (parse?_bytes_append f hr hw _),
      List.drop_left, ih fun g hg => h g (by simp [hg]), List.cons_append]

theorem parse?_append {b : Bytes} {f : Frame} {used : Nat} (h : parse? b = some (f, used))
    (c : Bytes) : parse? (b ++ c) = some (f, used) := by
  simp only [parse?, Option.bind_eq_bind, Option.bind_eq_some_iff] at h
  obtain ⟨⟨hd, n⟩, hhead, ⟨body, r⟩, hbody, hf⟩ := h
  have hle := (Header.used_of_decode? hhead).2
  simp only [parse?, Option.bind_eq_bind, Header.decode?_append hhead c, Option.bind_some,
    List.drop_append_of_le_length hle, splitAt?_append_right hbody c]
  exact hf

theorem parse?_eq_none {f : Frame} (hr : f.header.rsv < 8) (hw : f.Whole) {b c rest : Bytes}
    (h : b ++ c = f.bytes ++ rest) (hlt : b.length < f.bytes.length) : parse? b = none := by
  cases hp : parse? b with
  | none => rfl
  | some x =>
    obtain ⟨g, used⟩ := x
    have hall := parse?_append hp c
    rw [h, parse?_bytes_append f hr hw, Option.some.injEq, Prod.mk.injEq] at hall
    have := (used_of_parse? hp).2
    omega

/-- What is read from the front of a row is the front of the row. -/
theorem parseAll_prefix {ws : List Frame} (h : ∀ w ∈ ws, w.Whole ∧ w.header.rsv < 8) {b : Bytes}
    (hb : b <+: rowBytes ws) : parseAll b <+: ws := by
  induction ws generalizing b with
  | nil =>
    rw [rowBytes_nil, List.prefix_nil] at hb
    exact hb ▸ parseAll_nil ▸ List.prefix_rfl
  | cons w ws ih =>
    obtain ⟨hw, hr⟩ := h w (by simp)
    obtain ⟨c, hc⟩ := hb
    rw [rowBytes_cons] at hc
    by_cases hlt : b.length < w.bytes.length
    · rw [parseAll_of_none (parse?_eq_none hr hw hc hlt)]
      exact List.nil_prefix
    · obtain ⟨front, rfl⟩ : w.bytes <+: b :=
        List.prefix_of_prefix_length_le ⟨_, rfl⟩ ⟨c, hc⟩ (Nat.not_lt.mp hlt)
      rw [List.append_assoc, List.append_cancel_left_eq] at hc
      rw [parseAll_cons (parse?_bytes_append w hr hw front), List.drop_left]
      exact (List.prefix_cons_inj w).mpr (ih (fun v hv => h v (by simp [hv])) ⟨c, hc⟩)

def order (fs : List Frame) : List (Opcode × Bool) :=
  fs.map fun f => (f.header.opcode, f.header.fin)

end Frame

namespace Sequencing

/-- Takes frame after frame, and gives where the sequence stands after the last. -/
def acceptAll (s : Sequencing) : List (Opcode × Bool) → Except Violation Sequencing
  | [] => .ok s
  | (opcode, fin) :: rest =>
    match s.accept opcode fin with
    | .ok (_, s) => s.acceptAll rest
    | .error v => .error v

theorem acceptAll_append {s t : Sequencing} {xs : List (Opcode × Bool)}
    (h : s.acceptAll xs = .ok t) (ys : List (Opcode × Bool)) :
    s.acceptAll (xs ++ ys) = t.acceptAll ys := by
  induction xs generalizing s with
  | nil => cases h; rfl
  | cons x xs ih =>
    obtain ⟨opcode, fin⟩ := x
    simp only [List.cons_append, acceptAll] at h ⊢
    split at h
    · exact ih h
    · simp at h

end Sequencing

end WebSocket
