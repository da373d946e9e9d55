import WebSocket.Proofs.Endpoint.Run

/-! What an end has written is at all times the front of a row of frames as the protocol wants
them. The last of them may be on its way; its payload is thought to be filled up here. -/

namespace WebSocket

/-- A frame that an end of the given role may send. -/
structure Frame.Proper (role : Role) (f : Frame) : Prop where
  rsv : f.header.rsv = 0
  read : ∀ rest, Header.decode? (f.header.encode ++ rest) = some (f.header, f.header.encode.length)
  short : ∀ b used, Header.decode? b = some (f.header, used) → f.header.encode.length ≤ used
  mask : f.header.mask.isSome = true ↔ role = .client
  whole : f.Whole
  control : f.header.opcode.isControl = true →
    f.header.fin = true ∧ f.payload.length ≤ maxControlPayload

namespace Frame

def filled (f : Frame) : Frame :=
  { f with
    payload := f.payload ++ List.replicate (f.header.payloadLength.toNat - f.payload.length) 0 }

theorem filled_of_whole {f : Frame} (h : f.Whole) : f.filled = f := by
  rw [Whole] at h
  simp [filled, h]

theorem whole_filled {f : Frame} (h : f.payload.length ≤ f.header.payloadLength.toNat) :
    f.filled.Whole := by
  rw [Whole, filled, List.length_append, List.length_replicate]
  show _ = f.header.payloadLength.toNat
  omega

theorem Row.prefix_filled {fs : List Frame} (h : Row fs) :
    rowBytes fs <+: rowBytes (fs.map filled) := by
  induction h with
  | nil => exact List.prefix_rfl
  | last f hf =>
    simp only [List.map_singleton, rowBytes_cons, rowBytes_nil, List.append_nil]
    rw [filled, bytes_more]
    exact List.prefix_append _ _
  | @cons f fs hw _ ih =>
    rw [List.map_cons, rowBytes_cons, rowBytes_cons, filled_of_whole hw]
    exact (List.prefix_append_right_inj _).mpr ih

theorem order_filled (fs : List Frame) : order (fs.map filled) = order fs := by
  simp [order, filled]

theorem CloseLast.filled {fs : List Frame} (h : CloseLast fs) : CloseLast (fs.map filled) := by
  intro front f rest he hc
  obtain ⟨front', rest', rfl, rfl, hr⟩ := List.map_eq_append_iff.mp he
  obtain ⟨g, gs, rfl, rfl, rfl⟩ := List.map_eq_cons_iff.mp hr
  rw [h front' g gs rfl hc]
  rfl

theorem Fit.proper {role : Role} {fits : Nat → Nat → Prop} {f : Frame}
    (h : f.Fit role.masksOutgoing fits) (hle : f.payload.length ≤ f.header.payloadLength.toNat) :
    f.filled.Proper role where
  rsv := h.rsv
  read rest := by
    have hr : f.header.rsv < 8 := by
      rw [h.rsv]
      decide
    rw [Header.length_encode]
    exact Header.decode?_encode_append f.header hr rest
  short b used hd := by
    rw [Header.length_encode]
    exact Header.encodedLength_le hd
  mask := by
    rw [show f.filled.header = f.header from rfl, h.mask]
    cases role <;> simp [Role.masksOutgoing]
  whole := whole_filled hle
  control hc := by
    obtain ⟨hfin, hwhole, hlen⟩ := h.control hc
    rw [filled_of_whole hwhole]
    exact ⟨hfin, hlen⟩

end Frame

/-- Frames that jobs make up whole are proper. -/
theorem Laid.proper {role : Role} {fits : Nat → Nat → Prop} {js : List Job} {f : OutgoingFrame}
    (h : Laid role.masksOutgoing fits js f) (hf : f.remaining = 0) :
    ∀ g ∈ Job.frames js, g.Proper role := by
  have hframed := h.framed
  intro g hg
  have hwhole := hframed.ends.all_whole hf g hg
  have hproper := (hframed.fit g hg).proper (Nat.le_of_eq hwhole)
  rwa [Frame.filled_of_whole hwhole] at hproper

theorem Outgoing.Sound.part_in_line {masked : Bool} {fits : Nat → Nat → Prop}
    {wasSent : Job → Prop} {o : Outgoing} {part : List Job} {tail : Bytes}
    (h : o.Sound masked fits) (hp : Outgoing.Partly wasSent o part tail) :
    o.written ++ part <+: o.lineUp := by
  have hjobs : o.completions.map (·.job) = o.written ++ o.lost.map (·.job) := by
    conv_lhs => rw [h.shaped.front]
    simp [Function.comp_def]
  cases hp with
  | none hn =>
    rw [Outgoing.lineUp, hjobs, List.append_nil, List.append_assoc]
    exact List.prefix_append _ _
  | sending j front u hs hb =>
    rw [Outgoing.lineUp_sending hs, hjobs, h.shaped.lost_sending h.phased hs]
    exact ⟨o.writer.deferred ++ o.outbox.queue, by simp⟩
  | lost j front u x hs hb hl =>
    obtain ⟨more, hmore⟩ := List.head?_eq_some_iff.mp hl
    rw [Outgoing.lineUp, hjobs, hmore]
    exact ⟨more.map (·.job) ++ o.held, by simp⟩

namespace Endpoint

/-- The jobs on the wire, the last of them perhaps in part. -/
theorem Sending.jobs_on_wire {fits : Nat → Nat → Prop} {e : Endpoint} (h : e.Sending fits) :
    ∃ js f, Laid e.masks fits js f ∧ e.transport.wire.toList <+: js.flatMap Job.bytes ∧
      e.outgoing.written <+: js ∧ js <+: e.outgoing.lineUp := by
  obtain ⟨part, tail, f, hb, hl, hp⟩ := h.wired
  refine ⟨e.outgoing.written ++ part, f, hl, ?_, List.prefix_append _ _, h.part_in_line hp⟩
  rw [show e.transport.wire = e.outgoing.wire from rfl, hb, List.flatMap_append]
  apply (List.prefix_append_right_inj _).mpr
  cases hp with
  | none => exact List.prefix_rfl
  | sending j front u _ hu =>
    rw [List.flatMap_singleton, ← hu]
    exact List.prefix_append _ _
  | lost j front u x _ hu =>
    rw [List.flatMap_singleton, ← hu]
    exact List.prefix_append _ _

/-- At every moment of every run the bytes written so far are the front of a row of proper frames
that stand in the right order, of which a close frame can only be the last. -/
theorem wire_of_run {e : Endpoint} {past : List Endpoint} (h : Run (fun _ => True) (e :: past)) :
    ∃ fs : List Frame, e.transport.wire.toList <+: Frame.rowBytes fs ∧
      (∀ f ∈ fs, f.Proper e.config.role) ∧
      (∃ s, Sequencing.initial.acceptAll (Frame.order fs) = .ok s) ∧ Frame.CloseLast fs := by
  have hin : e.InOrder fun _ _ => True := h.inOrder fun c _ => c.within_any
  obtain ⟨js, f, hlaid, hpre, -⟩ := hin.sending.jobs_on_wire
  have hframed := hlaid.framed
  have hrow := hframed.ends.row
  rw [← hframed.bytes] at hpre
  refine ⟨(Job.frames js).map Frame.filled, hpre.trans hrow.prefix_filled, ?_, ?_,
    hframed.closeLast.filled⟩
  · intro g hg
    obtain ⟨g, hm, rfl⟩ := List.mem_map.mp hg
    exact (hframed.fit g hm).proper (hrow.length_le g hm)
  · obtain ⟨s, hs, -⟩ := hframed.order
    exact ⟨s, by rw [Frame.order_filled, hs]⟩

/-- A server that has sent one message. -/
theorem wire_of_run_message :
    ∃ (e : Endpoint) (past : List Endpoint), Run (fun _ => True) (e :: past) ∧
      e.transport.wire.toList = [0x82, 0x01, 0x61] ∧
      ∃ fs : List Frame, e.transport.wire.toList <+: Frame.rowBytes fs ∧
        (∀ f ∈ fs, f.Proper e.config.role) ∧
        (∃ s, Sequencing.initial.acceptAll (Frame.order fs) = .ok s) ∧ Frame.CloseLast fs := by
  have h : Run (fun _ => True) [opened .server .none (fun _ => .zero) none none] :=
    .start _ _ _ _ _ fun _ _ => trivial
  obtain ⟨e, past, h, hwire⟩ := h.handleAll (n := 8) (f := fun e => e.transport.wire.toList)
    [.write (.message [0x61] true)] (fun _ _ => trivial) (y := [0x82, 0x01, 0x61]) (by decide)
  exact ⟨e, past, h, hwire, wire_of_run h⟩

end Endpoint

end WebSocket
