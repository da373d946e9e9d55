import WebSocket.Proofs.Delivery.Marks
import WebSocket.Proofs.Header.Progress

/-! Rows of frames as they are offered to a reader: the kinds of their messages, the text that is
left over behind them, and the marks of the part of a row that has come in. -/

namespace WebSocket

namespace Sequencing

variable {s t : Sequencing} {op : Opcode} {fin : Bool} {k : MessageKind}

theorem acceptAll_of_append {xs ys : List (Opcode × Bool)} (h : s.acceptAll (xs ++ ys) = .ok t) :
    ∃ u, s.acceptAll xs = .ok u ∧ u.acceptAll ys = .ok t := by
  induction xs generalizing s with
  | nil => exact ⟨s, rfl, h⟩
  | cons x xs ih =>
    obtain ⟨op, fin⟩ := x
    simp only [List.cons_append, acceptAll] at h ⊢
    split at h
    · exact ih h
    · simp at h

theorem acceptAll_concat {xs : List (Opcode × Bool)} :
    s.acceptAll (xs ++ [(op, fin)]) = .ok t ↔
      ∃ u k, s.acceptAll xs = .ok u ∧ u.accept op fin = .ok (k, t) := by
  constructor
  · intro h
    obtain ⟨u, hu, hlast⟩ := acceptAll_of_append h
    simp only [acceptAll] at hlast
    split at hlast
    · next k t' hk =>
      cases hlast
      exact ⟨u, k, hu, hk⟩
    · simp at hlast
  · rintro ⟨u, k, hu, hk⟩
    rw [acceptAll_append hu]
    simp only [acceptAll, hk]

theorem accept_eq_none (h : s.accept op fin = .ok (none, t)) :
    op.isControl = true ∧ fin = true ∧ t = s := by
  cases op with
  | close | ping | pong =>
    cases fin <;> cases h
    exact ⟨rfl, rfl, rfl⟩
  | text | binary =>
    simp only [accept, start] at h
    split at h <;> cases h
  | continuation =>
    simp only [accept] at h
    split at h <;> cases h

/-- A data frame begins a message while there is none, or belongs to the unfinished one. -/
theorem accept_eq_some (h : s.accept op fin = .ok (some k, t)) :
    op.isControl = false ∧ t.unfinished = (if fin then none else some k) ∧
      ((op.isData = true ∧ s.unfinished = none ∧ ∀ before, k.isBinary = op.binaryAfter before) ∨
        (op = .continuation ∧ s.unfinished = some k)) := by
  obtain ⟨unfinished⟩ := s
  cases op with
  | close | ping | pong => cases fin <;> cases h
  | text | binary =>
    cases unfinished with
    | some k' => cases h
    | none => cases fin <;> cases h <;> exact ⟨rfl, rfl, .inl ⟨rfl, rfl, fun _ => rfl⟩⟩
  | continuation =>
    cases unfinished with
    | none => cases h
    | some k' => cases fin <;> cases h <;> exact ⟨rfl, rfl, .inr ⟨rfl, rfl⟩⟩

end Sequencing

theorem MessageKind.opcode_of_isBinary {k : MessageKind} {op : Opcode} (hdata : op.isData = true)
    (hk : k.isBinary = op.binaryAfter false) : op = k.opcode := by
  revert hdata hk
  cases op <;> cases k <;> decide

namespace Frame

variable {fs : List Frame} {s : Sequencing}

theorem order_concat (fs : List Frame) (f : Frame) :
    order (fs ++ [f]) = order fs ++ [(f.header.opcode, f.header.fin)] := by
  simp [order]

/-- The unfinished message is of the kind that the row says. -/
theorem isBinary_of_unfinished (h : Sequencing.initial.acceptAll (order fs) = .ok s)
    {k : MessageKind} (hk : s.unfinished = some k) : k.isBinary = lastBinary false fs := by
  induction fs using List.reverseRecOn generalizing s k with
  | nil =>
    cases h
    cases hk
  | append_singleton fs f ih =>
    rw [order_concat, Sequencing.acceptAll_concat] at h
    obtain ⟨u, kind, hu, hacc⟩ := h
    rw [lastBinary_concat]
    cases kind with
    | none =>
      obtain ⟨hctl, -, rfl⟩ := Sequencing.accept_eq_none hacc
      rw [binaryAfter_control hctl]
      exact ih hu hk
    | some kind =>
      obtain ⟨-, hun, hwhich⟩ := Sequencing.accept_eq_some hacc
      rw [hun] at hk
      split at hk <;> cases hk
      rcases hwhich with ⟨-, -, hbin⟩ | ⟨hop, hold⟩
      · exact hbin _
      · rw [hop]
        exact ih hu hold

theorem isBinary_of_accept (h : Sequencing.initial.acceptAll (order fs) = .ok s) {op : Opcode}
    {fin : Bool} {k : MessageKind} {t : Sequencing} (hacc : s.accept op fin = .ok (some k, t)) :
    k.isBinary = op.binaryAfter (lastBinary false fs) := by
  obtain ⟨-, -, ⟨-, -, hbin⟩ | ⟨rfl, hold⟩⟩ := Sequencing.accept_eq_some hacc
  · exact hbin _
  · exact isBinary_of_unfinished h hold

theorem begun_of_unfinished (h : Sequencing.initial.acceptAll (order fs) = .ok s)
    {k : MessageKind} (hk : s.unfinished = some k) : ∃ f ∈ fs, f.header.opcode = k.opcode := by
  induction fs using List.reverseRecOn generalizing s k with
  | nil =>
    cases h
    cases hk
  | append_singleton fs f ih =>
    rw [order_concat, Sequencing.acceptAll_concat] at h
    obtain ⟨u, kind, hu, hacc⟩ := h
    have hold (ho : u.unfinished = some k) : ∃ g ∈ fs ++ [f], g.header.opcode = k.opcode := by
      obtain ⟨g, hg, hop⟩ := ih hu ho
      exact ⟨g, List.mem_append_left _ hg, hop⟩
    cases kind with
    | none =>
      obtain ⟨-, -, rfl⟩ := Sequencing.accept_eq_none hacc
      exact hold hk
    | some kind =>
      obtain ⟨-, hun, hwhich⟩ := Sequencing.accept_eq_some hacc
      rw [hun] at hk
      split at hk <;> cases hk
      rcases hwhich with ⟨hdata, -, hbin⟩ | ⟨-, ho⟩
      · exact ⟨f, by simp, MessageKind.opcode_of_isBinary hdata (hbin false)⟩
      · exact hold ho

/-- Some frame, the latest or one before it, has begun the message that a data frame belongs to. -/
theorem begun_of_accept (h : Sequencing.initial.acceptAll (order fs) = .ok s) {f : Frame}
    {k : MessageKind} {t : Sequencing}
    (hacc : s.accept f.header.opcode f.header.fin = .ok (some k, t)) :
    ∃ g ∈ fs ++ [f], g.header.opcode = k.opcode := by
  rcases (Sequencing.accept_eq_some hacc).2.2 with ⟨hdata, -, hbin⟩ | ⟨-, hold⟩
  · exact ⟨f, by simp, MessageKind.opcode_of_isBinary hdata (hbin false)⟩
  · obtain ⟨g, hg, hop⟩ := begun_of_unfinished h hold
    exact ⟨g, List.mem_append_left _ hg, hop⟩

theorem text_of_not_text (hw : ∀ f ∈ fs, f.Whole)
    (h : Sequencing.initial.acceptAll (order fs) = .ok s) (hs : s.unfinished ≠ some .text) :
    Mark.text (rowMarks false fs) = [] := by
  induction fs using List.reverseRecOn generalizing s with
  | nil => rfl
  | append_singleton fs f ih =>
    have hfs : ∀ g ∈ fs, g.Whole := fun g hg => hw g (by simp [hg])
    rw [order_concat, Sequencing.acceptAll_concat] at h
    obtain ⟨u, kind, hu, hacc⟩ := h
    rw [rowMarks_append]
    cases kind with
    | none =>
      obtain ⟨hctl, -, rfl⟩ := Sequencing.accept_eq_none hacc
      rw [rowMarks_control hctl, List.append_nil]
      exact ih hfs hu hs
    | some kind =>
      have hbin := isBinary_of_accept hu hacc
      obtain ⟨hdata, hun, hwhich⟩ := Sequencing.accept_eq_some hacc
      rw [rowMarks_data hdata, if_pos (hw f (by simp)), ← List.append_assoc, Mark.text_concat,
        ← hbin]
      cases hfin : f.header.fin with
      | true => rfl
      | false =>
        rw [hfin, if_neg (by simp)] at hun
        have hkind : kind = .binary := by
          cases kind with
          | binary => rfl
          | text => exact absurd hun hs
        rw [hkind, Mark.text_bytes]
        apply ih hfs hu
        rcases hwhich with ⟨-, hold, -⟩ | ⟨-, hold⟩
        · rw [hold]
          rintro ⟨⟩
        · rw [hold, hkind]
          rintro ⟨⟩

theorem part_of_row {h : Header} {part x : Bytes} {ws : List Frame} (hrsv : h.rsv < 8)
    (hle : part.length ≤ h.payloadLength.toNat) (hrow : Row ws) (hw : ∀ w ∈ ws, w.header.rsv < 8)
    (he : h.encode ++ maskWith h.mask 0 part ++ x = rowBytes ws) :
    ∃ w more tail, ws = w :: more ∧ w.header = h ∧ w.payload = part ++ tail := by
  rcases ws with - | ⟨w, more⟩
  · simp [Header.encode] at he
  · have hbytes : (⟨h, part⟩ : Frame).bytes ++ x = w.bytes ++ rowBytes more := he
    obtain ⟨hh, hp⟩ := header_eq_of_bytes hrsv (hw w (by simp)) hbytes
    change h = w.header at hh
    change maskWith h.mask 0 part ++ x = maskWith h.mask 0 w.payload ++ rowBytes more at hp
    have hlen : part.length ≤ w.payload.length := by
      cases hrow with
      | last =>
        have := congrArg List.length hp
        simp only [List.length_append, length_maskWith, rowBytes_nil, List.length_nil] at this
        omega
      | cons hwhole =>
        rw [hwhole, ← hh]
        exact hle
    have hsplit := List.take_append_drop part.length w.payload
    rw [← hsplit, maskWith_append, List.append_assoc] at hp
    obtain ⟨hpart, -⟩ := payload_eq_of_masked (by rw [List.length_take]; omega) hp
    refine ⟨w, more, w.payload.drop part.length, rfl, hh.symm, ?_⟩
    conv_lhs => rw [← hsplit, ← hpart]

theorem marks_of_part {fs more : List Frame} {w : Frame} {part tail : Bytes} {binary : Bool}
    (hdata : w.header.opcode.isControl = false) (hp : w.payload = part ++ tail)
    (hle : w.payload.length ≤ w.header.payloadLength.toNat)
    (hk : binary = w.header.opcode.binaryAfter (lastBinary false fs)) :
    rowMarks false fs ++ (Mark.bytes binary part ++
      if part.length = w.header.payloadLength.toNat then [.frameEnd w.header.fin binary]
      else []) <+: rowMarks false (fs ++ w :: more) := by
  rw [rowMarks_append, rowMarks_cons_data hdata, ← hk]
  apply (List.prefix_append_right_inj _).mpr
  by_cases hl : part.length = w.header.payloadLength.toNat
  · have htail : tail = [] := by
      rw [hp, List.length_append] at hle
      exact List.length_eq_zero_iff.mp (by omega)
    have hwhole : w.Whole := by
      rw [Whole, hp, htail, List.append_nil, hl]
    rw [if_pos hl, if_pos hwhole, hp, htail, List.append_nil]
    exact List.prefix_append _ _
  · rw [if_neg hl, List.append_nil, hp, Mark.bytes_append, List.append_assoc, List.append_assoc]
    exact List.prefix_append _ _

/-- Frames in a row that a reader takes. -/
structure Offered (rules : HeaderRules) (ws : List Frame) : Prop where
  row : Row ws
  admits : ∀ f ∈ ws, rules.Admits f.header
  order : ∃ s, Sequencing.initial.acceptAll (order ws) = .ok s
  close : ∀ f ∈ ws, f.header.opcode = .close → ∃ p, ClosePayload.parse f.payload = .ok p

theorem Offered.rsv_lt {rules : HeaderRules} {ws : List Frame} (h : Offered rules ws) :
    ∀ w ∈ ws, w.header.rsv < 8 := by
  intro w hw
  rw [(h.admits w hw).rsv]
  decide

/-- What has been read of a frame is the front of what the row carries behind the frames before. -/
theorem Offered.marks_of_part {rules : HeaderRules} {rest : List Frame} {h : Header}
    {part x : Bytes} (hw : Offered rules (fs ++ rest)) (hrsv : h.rsv < 8)
    (hle : part.length ≤ h.payloadLength.toNat) (hdata : h.opcode.isControl = false)
    (he : h.encode ++ maskWith h.mask 0 part ++ x = rowBytes rest) :
    let binary := h.opcode.binaryAfter (lastBinary false fs)
    rowMarks false fs ++ (Mark.bytes binary part ++
      if part.length = h.payloadLength.toNat then [.frameEnd h.fin binary] else []) <+:
        rowMarks false (fs ++ rest) := by
  have hrow := hw.row.of_append
  have hadm : ∀ w ∈ rest, w.header.rsv < 8 := fun w hm => hw.rsv_lt w (by simp [hm])
  obtain ⟨w, more, tail, rfl, rfl, hp⟩ := part_of_row hrsv hle hrow hadm he
  exact Frame.marks_of_part hdata hp (hrow.length_le w (by simp)) rfl

end Frame

end WebSocket
