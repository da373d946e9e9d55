import WebSocket.Proofs.Delivery.Intake
import WebSocket.Proofs.Endpoint.Run

/-! The steps of a reader when the bytes fed to it are the front of a row of frames that it takes.
It reads the frames one by one, hands out what they carry, and stops only for a close frame, a
teardown or text that is not well-formed. -/

namespace WebSocket

/-- Something comes in from the stream below, or no more does. -/
def Event.isIncoming : Event → Bool
  | feed _ | endInput | failInput _ => true
  | write _ | read _ | allow _ | failWrites _ | takeNothing | failFlushes _ | advance _ | drop =>
    false

namespace Input

/-- What a read of `n` bytes comes to. -/
inductive Yields (i : Input) (n : Nat) : Taken → Prop where
  | got (h : n ≤ i.bytes.length) : Yields i n (.got (i.bytes.take n) (i.bytes.drop n))
  | failed (f : Fault) (hshort : i.bytes.length < n) (h : i.fault = some f) :
      Yields i n (.failed f)
  | ended (hshort : i.bytes.length < n) (hfault : i.fault = none) (hended : i.ended = true)
      (h : i.bytes = []) : Yields i n .ended
  | cut (hshort : i.bytes.length < n) (hfault : i.fault = none) (hended : i.ended = true)
      (h : i.bytes ≠ []) : Yields i n (.failed (.unexpectedEof "stream ended inside a frame"))
  | waits (hshort : i.bytes.length < n) (hfault : i.fault = none) (h : i.ended = false) :
      Yields i n .waits

variable {i : Input} {n : Nat}

theorem take_of_le (h : n ≤ i.bytes.length) :
    i.take n = .got (i.bytes.take n) (i.bytes.drop n) := by
  unfold take
  dsimp only
  rw [if_pos (by rw [List.length_take]; omega)]

theorem yields {t : Taken} (h : i.take n = t) : i.Yields n t := by
  subst h
  rcases Nat.lt_or_ge i.bytes.length n with hshort | hle
  · unfold take
    dsimp only
    rw [if_neg (by rw [List.length_take]; omega)]
    split
    · next f hfault => exact .failed f hshort hfault
    · next hfault =>
      split
      · next hended =>
        split
        · next hnil => exact .ended hshort hfault hended (List.isEmpty_iff.mp hnil)
        · next hne =>
          exact .cut hshort hfault hended fun hnil => hne (List.isEmpty_iff.mpr hnil)
      · next hended => exact .waits hshort hfault (eq_false_of_ne_true hended)
  · rw [take_of_le hle]
    exact .got hle

theorem length_lt_of_waits (h : i.take n = .waits) : i.bytes.length < n := by
  cases yields h with
  | waits hshort => exact hshort

theorem le_of_take {b rest : Bytes} (h : i.take n = .got b rest) : n ≤ i.bytes.length := by
  cases yields h with
  | got hle => exact hle

theorem take_clean (hf : i.fault = none) (he : i.ended = false) (n : Nat) :
    (∀ f, i.take n ≠ .failed f) ∧ i.take n ≠ .ended := by
  refine ⟨fun f h => ?_, fun h => ?_⟩
  · cases yields h with
    | failed _ _ hfault => cases hf.symm.trans hfault
    | cut _ _ hended => cases he.symm.trans hended
  · cases yields h with
    | ended _ _ hended => cases he.symm.trans hended

theorem eof_of_failed {f : Fault} (hf : i.fault = none) (h : i.take n = .failed f) :
    i.bytes ≠ [] ∧ f.kind = .unexpectedEof := by
  cases yields h with
  | failed _ _ hfault => cases hf.symm.trans hfault
  | cut _ _ _ hne => exact ⟨hne, rfl⟩

end Input

/-- How many bytes of a payload are handed out at a time. -/
def Config.partSize (c : Config) : Nat := max c.readChunkSize.toNat 1

theorem Config.partSize_pos (c : Config) : 0 < c.partSize :=
  Nat.lt_of_lt_of_le Nat.one_pos (Nat.le_max_right _ _)

namespace Endpoint

open Reader

def rules (e : Endpoint) : HeaderRules := ⟨e.config.role, e.config.maxFrameSize⟩

/-- The kinds of the messages that some frames begin are accepted. -/
def TakesKinds (c : Config) (ws : List Frame) : Prop :=
  ∀ w ∈ ws, ∀ k : MessageKind, w.header.opcode = k.opcode → accepts c k = true

variable {d : Endpoint} {fed : Bytes} {fs ws rest more : List Frame} {w : Frame}

theorem openFrame_amid (h : d.reader.Kept fs) (ht : d.reader.TextStands)
    (hm : d.reader.received = Frame.rowMarks false fs)
    (hq : Sequencing.initial.acceptAll (Frame.order fs) = .ok d.reader.sequencing)
    (hw : Frame.Offered d.rules (fs ++ w :: more)) (hkinds : TakesKinds d.config (fs ++ w :: more)) :
    (d.openFrame w.header).reader.Amid d.rules
        (Frame.rowBytes fs ++ w.header.encode ++ d.reader.input.bytes) fs ∧
      d.reader.Quiet (d.openFrame w.header).reader := by
  have hrsv := hw.rsv_lt w (by simp)
  obtain ⟨s, hs⟩ := hw.order
  rw [Frame.order_append, Sequencing.acceptAll_append hq] at hs
  have hacc : ∃ k t, d.reader.sequencing.accept w.header.opcode w.header.fin = .ok (k, t) := by
    change d.reader.sequencing.acceptAll ((w.header.opcode, w.header.fin) :: Frame.order more) =
      .ok s at hs
    rw [Sequencing.acceptAll] at hs
    split at hs
    · next hk => exact ⟨_, _, hk⟩
    · simp at hs
  obtain ⟨k, t, hacc⟩ := hacc
  unfold openFrame
  rw [hacc]
  cases k with
  | none =>
    obtain ⟨hop, hfin, -⟩ := Sequencing.accept_eq_none hacc
    exact ⟨{ h with text := ht, place := ⟨_, .control w.header rfl hrsv hop hfin hm hq, rfl⟩ },
      rfl, rfl, rfl⟩
  | some kind =>
    have hop := (Sequencing.accept_eq_some hacc).1
    have hbin := Frame.isBinary_of_accept hq hacc
    have hkind : accepts d.config kind = true := by
      obtain ⟨g, hg, hop⟩ := Frame.begun_of_accept hq hacc
      apply hkinds g _ kind hop
      rw [List.append_cons]
      exact List.mem_append_left more hg
    dsimp only
    rw [if_pos hkind]
    refine ⟨{ h with
      text := ?_
      place := ⟨_, .data _ [] rfl ⟨rfl, ?_, hrsv, hop, hbin, ?_, ?_⟩, ?_⟩ }, rfl, rfl, rfl⟩
    · exact Nat.zero_add _
    · rw [Mark.bytes_nil, List.append_nil]
      exact hm
    · exact Sequencing.acceptAll_concat.mpr ⟨_, _, hq, hacc⟩
    · simp
    · show TextStands { d.reader with
        sequencing := t
        text := if w.header.opcode.isData then .new else d.reader.text
        stage := _ }
      split
      · next hdata => exact ht.begins (fun f hf => (h.whole f hf).1) hm hq hacc hdata rfl rfl
      · exact ht

theorem readHeaderPiece_amid {p : HeaderProgress} {b piece tail : Bytes} (h : d.reader.Kept fs)
    (ht : d.reader.TextStands) (hm : d.reader.received = Frame.rowMarks false fs)
    (hq : Sequencing.initial.acceptAll (Frame.order fs) = .ok d.reader.sequencing)
    (hb : HeaderProgress.Reached d.rules b p) (hl : piece.length = p.need)
    (hw : Frame.Offered d.rules (fs ++ rest))
    (hrest : b ++ piece ++ d.reader.input.bytes ++ tail = Frame.rowBytes rest)
    (hkinds : TakesKinds d.config (fs ++ rest)) :
    (d.readHeaderPiece p piece).reader.Amid d.rules
        (Frame.rowBytes fs ++ (b ++ piece) ++ d.reader.input.bytes) fs ∧
      d.reader.Quiet (d.readHeaderPiece p piece).reader := by
  rcases rest with - | ⟨w, more⟩
  · have hneed := HeaderProgress.one_le_need p
    have := congrArg List.length hrest
    simp only [List.length_append, Frame.rowBytes_nil, List.length_nil] at this
    omega
  · have hadm := hw.admits w (by simp)
    have hnext : b ++ piece ++ (d.reader.input.bytes ++ tail) =
        w.header.encode ++ (maskWith w.header.mask 0 w.payload ++ Frame.rowBytes more) := by
      rw [← List.append_assoc, hrest, Frame.rowBytes_cons, Frame.bytes_eq, List.append_assoc]
    have hbegun := hnext
    rw [List.append_assoc] at hbegun
    have halong := hb.along hadm hbegun
    unfold readHeaderPiece
    rcases HeaderProgress.read_along hadm halong hl hnext with ⟨q, hread, -⟩ | ⟨hread, hend⟩
    · rw [show p.read ⟨d.config.role, d.config.maxFrameSize⟩ piece = _ from hread]
      exact ⟨{ h with text := ht, place := ⟨_, .header q _ rfl (hb.more hl hread) hm hq, rfl⟩ },
        rfl, rfl, rfl⟩
    · rw [show p.read ⟨d.config.role, d.config.maxFrameSize⟩ piece = _ from hread, hend]
      exact openFrame_amid h ht hm hq hw hkinds

variable {f : IncomingFrame} {part piece : Bytes}

theorem deliver_placed (hk : d.reader.Kept fs) (h : InFrame fs f part d.reader)
    (hle : piece.length ≤ f.remaining) (hstage : d.reader.stage = f.stageAfter piece)
    (rules : HeaderRules) :
    (d.deliver (f.next piece)).reader.Placed rules
      (Frame.rowBytes fs ++ (f.header.encode ++ maskWith f.header.mask 0 part ++ piece) ++
        d.reader.input.bytes) (fs ++ if f.remaining - piece.length = 0 then
          [⟨f.header, part ++ (f.next piece).data⟩] else []) := by
  have hbytes : f.header.encode ++ maskWith f.header.mask 0 part ++ piece =
      f.header.encode ++ maskWith f.header.mask 0 (part ++ (f.next piece).data) := by
    rw [maskWith_append, IncomingFrame.next, Nat.zero_add, h.length, maskWith_maskWith,
      List.append_assoc]
  have hm : (d.deliver (f.next piece)).reader.received = _ :=
    (received_push rfl).trans (h.marks_next hle)
  have hlen := h.announced
  have hpart : (part ++ (f.next piece).data).length = f.offset + piece.length := by
    rw [List.length_append, h.length, IncomingFrame.next, length_maskWith]
  have hchunks : ∀ x ∈ (d.deliver (f.next piece)).reader.reads, ∃ c, x = .chunk c := by
    intro x hx
    rcases Array.mem_push.mp hx with hx | rfl
    · exact hk.chunks x hx
    · exact ⟨_, rfl⟩
  have hkept : (d.deliver (f.next piece)).reader.Kept fs :=
    { hk with chunks := hchunks }
  rw [hbytes]
  by_cases hl : f.remaining - piece.length = 0
  · -- the frame is complete
    have hwhole : Frame.Whole ⟨f.header, part ++ (f.next piece).data⟩ := by
      rw [Frame.Whole, hpart]
      show _ = f.header.payloadLength.toNat
      omega
    have hne (op : Opcode) (hop : op.isControl = true) : f.header.opcode ≠ op := by
      rintro rfl
      exact absurd (h.data.symm.trans hop) Bool.false_ne_true
    rw [IncomingFrame.stageAfter, if_pos (by rw [hl]; rfl)] at hstage
    rw [if_pos (by omega)] at hm
    rw [if_pos hl]
    refine { hkept with
      whole := hk.whole_concat hwhole h.rsv, pings := ?_, pongs := ?_, place := ?_ }
    · rw [Frame.payloads_concat, if_neg (hne .ping rfl), List.append_nil]
      exact hk.pings
    · rw [Frame.payloads_concat, if_neg (hne .pong rfl), List.append_nil]
      exact hk.pongs
    · refine ⟨[], .header .start [] hstage .start ?_ ?_, ?_⟩
      · rw [hm, Frame.rowMarks_append, Frame.rowMarks_data h.data, if_pos hwhole, ← h.kind]
      · rw [Frame.order_concat]
        exact h.order
      · rw [Frame.rowBytes_append, Frame.rowBytes_cons, Frame.rowBytes_nil, List.append_nil,
          List.append_nil]
        rfl
  · -- more of its payload is to come
    rw [IncomingFrame.stageAfter, if_neg (by simpa using hl)] at hstage
    rw [if_neg (by rw [hpart]; omega), List.append_nil] at hm
    rw [if_neg hl, List.append_nil]
    refine { hkept with
      place := ⟨_, .data _ _ hstage ⟨hpart, ?_, h.rsv, h.data, h.kind, hm, h.order⟩, rfl⟩ }
    show f.offset + piece.length + (f.remaining - piece.length) = f.header.payloadLength.toNat
    omega

theorem received_deliver (d : Endpoint) (c : Chunk) :
    (d.deliver c).reader.received = d.reader.received ++ c.marks :=
  received_push (r := d.reader) (x := .chunk c) rfl

theorem deliverText_cases {c : Utf8.Cursor} (hc : c.Standing) (ht : d.reader.text = ⟨c.seen⟩)
    (k : Chunk) :
    (c.run k.data = none ∧ ∃ text, d.deliverText k =
      { d with reader := { d.reader with text } }.rejectPeer .malformedText) ∨
    ∃ c', c.run k.data = some c' ∧
      ((k.completes = true ∧ c'.seen ≠ [] ∧ d.deliverText k =
        { d with reader := { d.reader with text := ⟨c'.seen⟩ } }.rejectPeer .unfinishedText) ∨
      ((k.completes = true → c'.seen = []) ∧ d.deliverText k =
        { d with reader := { d.reader with text := ⟨c'.seen⟩ } }.deliver k)) := by
  unfold deliverText
  rw [ht]
  rcases Utf8.Validator.feed_eq hc k.data with ⟨hnone, hfalse⟩ | ⟨c', hrun, hfeed⟩
  · refine .inl ⟨hnone, ((⟨c.seen⟩ : Utf8.Validator).feed k.data).2, ?_⟩
    dsimp only
    rw [hfalse]
    rfl
  · refine .inr ⟨c', hrun, ?_⟩
    rw [hfeed]
    dsimp only
    by_cases hends : k.completes = true ∧ c'.seen ≠ []
    · refine .inl ⟨hends.1, hends.2, ?_⟩
      rw [if_neg (by simp), if_pos (by simpa [Utf8.Validator.isComplete] using hends)]
    · refine .inr ⟨fun hk => by simpa [hk] using hends, ?_⟩
      rw [if_neg (by simp), if_neg (by simpa [Utf8.Validator.isComplete] using hends)]

theorem readData_eq (d : Endpoint) (f : IncomingFrame) (piece : Bytes) :
    d.readData f piece =
      if f.kind.isBinary then (d.setStage (f.stageAfter piece)).deliver (f.next piece)
      else (d.setStage (f.stageAfter piece)).deliverText (f.next piece) := rfl

/-- A part of a data frame is handed out, and the text is sound with it, or else it is refused. -/
theorem readData_cases (hk : d.reader.Kept fs) (ht : d.reader.TextStands)
    (h : InFrame fs f part d.reader) :
    (∃ text, (d.readData f piece).reader =
        { ((d.setStage (f.stageAfter piece)).deliver (f.next piece)).reader with text } ∧
      (d.readData f piece).reader.TextStands) ∨
    ∃ (d' : Endpoint) (v : Violation), d.readData f piece = d'.rejectPeer v ∧
      v.code = .invalidPayload ∧ d'.reader.reads = d.reader.reads ∧
      d'.reader.controls = d.reader.controls ∧
      ¬ Mark.TextSound (d.reader.received ++ (f.next piece).marks) := by
  have hreceived := received_deliver (d.setStage (f.stageAfter piece)) (f.next piece)
  rw [readData_eq]
  cases hbin : f.kind.isBinary with
  | true =>
    have hnone : Mark.text d.reader.received = [] := by
      rw [h.received, hbin, Mark.text_bytes]
      exact h.text_of_binary hk hbin
    rw [if_pos rfl]
    exact .inl ⟨d.reader.text, rfl, ht.binary hnone hbin hreceived rfl⟩
  | false =>
    obtain ⟨c, hc, hstands⟩ := ht.2
    have htext : Mark.text (d.reader.received ++ Mark.bytes (f.next piece).binary
        (f.next piece).data) = Mark.text d.reader.received ++ (f.next piece).data := by
      rw [Mark.text_bytes, if_neg (by simp [IncomingFrame.next, hbin])]
    have hnext : Utf8.Cursor.rest.run (Mark.text d.reader.received ++ (f.next piece).data) =
        c.run (f.next piece).data := by
      rw [Utf8.Cursor.run_append, hc]
      rfl
    rw [if_neg Bool.false_ne_true]
    rcases deliverText_cases (d := d.setStage (f.stageAfter piece)) (.run .between hc) hstands
      (f.next piece) with ⟨hnone, t, heq⟩ | ⟨c', hrun, ⟨hends, hseen, heq⟩ | ⟨hends, heq⟩⟩
    · refine .inr ⟨_, _, heq, rfl, rfl, rfl, fun hs => ?_⟩
      obtain ⟨c', hrun⟩ := Utf8.begins_iff_run.mp (htext ▸ (Mark.textSound_chunk.mp hs).2.1)
      rw [hnext, hnone] at hrun
      cases hrun
    · refine .inr ⟨_, _, heq, rfl, rfl, rfl, fun hs => hseen ?_⟩
      have hfull := Utf8.wellFormed_iff_run.mp (htext ▸ (Mark.textSound_chunk.mp hs).2.2 hends)
      rw [hnext, hrun] at hfull
      rw [Option.some.inj hfull]
      rfl
    · rw [heq]
      exact .inl ⟨⟨c'.seen⟩, rfl, ht.text hbin (hnext.trans hrun) hends hreceived rfl⟩

/-- A part of a data frame is taken. It is refused only if the text is not well-formed. -/
theorem readData_stepped {size : Nat} (hk : d.reader.Kept fs) (ht : d.reader.TextStands)
    (h : InFrame fs f part d.reader) (hs : d.reader.stage = .data f)
    (hl : piece.length = min f.remaining size) (hw : Frame.Offered d.rules ws)
    (hfront : d.reader.taken.Front (Frame.traffic ws))
    (hfed : Frame.rowBytes fs ++ (f.header.encode ++ maskWith f.header.mask 0 part ++ piece) ++
      d.reader.input.bytes <+: Frame.rowBytes ws) :
    Stepped d.rules size ws
      (Frame.rowBytes fs ++ (f.header.encode ++ maskWith f.header.mask 0 part ++ piece) ++
        d.reader.input.bytes) fs d.reader (d.readData f piece).reader := by
  -- the reader that hands out the part, whatever is said of its text
  have hplaced := deliver_placed (d := d.setStage (f.stageAfter piece)) { hk with }
    ⟨h.length, h.announced, h.rsv, h.data, h.kind, h.received, h.order⟩
    (hl ▸ Nat.min_le_left _ _) rfl d.rules
  have hadds : Adds size fs d.reader
      ((d.setStage (f.stageAfter piece)).deliver (f.next piece)).reader _ :=
    .part f part piece hs h hl rfl rfl rfl fun hall => if_pos hall
  rcases readData_cases hk ht h with ⟨text, hreader, htext⟩ | ⟨d', v, heq, hv, hr, hc, hbad⟩
  · rw [hreader] at htext ⊢
    exact .going _ ⟨hplaced.setText text, htext⟩ (hadds.setText text)
  · replace hbad := received_deliver (d.setStage (f.stageAfter piece)) (f.next piece) ▸ hbad
    have hns : ¬ Mark.TextSound (Frame.rowMarks false ws) := fun hs =>
      hbad (hs.of_prefix (hplaced.front hw hfed).marks)
    rw [heq]
    refine .refused hns ?_ ⟨_, _, f.next piece, v, hplaced, hadds, rfl, hbad, hv, ?_⟩
    · rw [reader_rejectPeer]
      exact hk.stop hfront rfl (by rw [← hr]; rfl) rfl (by simp [told, endRead, hc])
        (by simp [told, endRead, hc]) fun hs => absurd hs hns
    · rw [reader_rejectPeer, ← hr]
      rfl

theorem reader_notify (d : Endpoint) (c : Control) : ∃ report : ControlReport, report.frame = c ∧
    (d.notify c).reader = { d.reader with controls := d.reader.controls.push report } := by
  refine ⟨⟨c, (d.writeAll (d.callbacks.onControl.getD [])).2⟩, rfl, ?_⟩
  simp [notify]

/-! The bytes that come in. -/

@[simp] theorem input_rejectPeer (e : Endpoint) (v : Violation) :
    (e.rejectPeer v).reader.input = e.reader.input := by
  rw [reader_rejectPeer]
  rfl

theorem input_readHeaderPiece (e : Endpoint) (p : HeaderProgress) (piece : Bytes) :
    (e.readHeaderPiece p piece).reader.input = e.reader.input := by
  unfold readHeaderPiece
  split
  · exact input_rejectPeer e _
  · rfl
  · unfold openFrame
    split
    · exact input_rejectPeer e _
    · rfl
    · split
      · rfl
      · exact input_rejectPeer e _

theorem input_readData (e : Endpoint) (f : IncomingFrame) (piece : Bytes) :
    (e.readData f piece).reader.input = e.reader.input := by
  have htext : ∀ (d : Endpoint) c, (d.deliverText c).reader.input = d.reader.input := by
    intro d c
    unfold deliverText
    dsimp only
    split
    · rw [input_rejectPeer]
    · split
      · rw [input_rejectPeer]
      · rfl
  unfold readData
  dsimp only
  by_cases hb : f.kind.isBinary = true
  · rw [if_pos hb]
    rfl
  · rw [if_neg hb, htext]
    rfl

theorem input_readControl (e : Endpoint) (h : Header) (piece : Bytes) :
    (e.readControl h piece).reader.input = e.reader.input := by
  have hnote : ∀ c, (e.notify c).reader.input = e.reader.input := by
    intro c
    obtain ⟨report, -, hreader⟩ := reader_notify e c
    rw [hreader]
  unfold readControl
  split
  · exact input_rejectPeer e _
  · rfl
  · next c _ =>
    cases c with
    | close p =>
      unfold handleControl
      dsimp only
      split
      · rw [endRead, reader_teardown]
      · rw [endRead, reader_closeDown]
        exact hnote (.close p)
    | ping payload => exact hnote (.ping payload)
    | pong payload => exact hnote (.pong payload)

theorem input_readerStep {e : Endpoint} (hstep : e.readerStep = some d) :
    ∃ bytes, d.reader.input = { e.reader.input with bytes } := by
  cases (readerStep_cases hstep).2 with
  | leave => exact ⟨_, rfl⟩
  | fail f =>
    rw [reader_failRead]
    exact ⟨_, rfl⟩
  | finish =>
    unfold endOfStream
    split
    · rw [reader_failRead]
      exact ⟨_, rfl⟩
    · split
      · rw [reader_failRead]
        exact ⟨_, rfl⟩
      · rw [endRead, reader_teardown]
        exact ⟨_, rfl⟩
  | header p piece rest => exact ⟨rest, input_readHeaderPiece _ p piece⟩
  | data f piece rest => exact ⟨rest, input_readData _ f piece⟩
  | control c piece rest => exact ⟨rest, input_readControl _ c piece⟩
  | answer payload =>
    have hreader : (e.queuePong payload).1.reader = e.reader := reader_queuePong e payload
    refine ⟨e.reader.input.bytes, ?_⟩
    rw [answerPing]
    dsimp only
    rw [hreader]

theorem notify_amid {h : Header} {part : Bytes} {c : Control} {s : Stage} (hk : d.reader.Kept fs)
    (ht : d.reader.TextStands) (hrsv : h.rsv < 8) (hop : h.opcode.isControl = true)
    (hfin : h.fin = true) (hm : d.reader.received = Frame.rowMarks false fs)
    (hq : Sequencing.initial.acceptAll (Frame.order fs) = .ok d.reader.sequencing)
    (hwhole : Frame.Whole ⟨h, part⟩) (hs : s = .header .start ∨ s = .answer part)
    (hc : Frame.control? ⟨h, part⟩ = some c) (hnot : ∀ f, d.reader.stage ≠ .data f) (size : Nat)
    (rules : HeaderRules) :
    ((d.notify c).setStage s).reader.Amid rules
        (Frame.rowBytes fs ++ Frame.bytes ⟨h, part⟩ ++ d.reader.input.bytes) (fs ++ [⟨h, part⟩]) ∧
      Adds size fs d.reader ((d.notify c).setStage s).reader (fs ++ [⟨h, part⟩]) := by
  obtain ⟨report, rfl, hr⟩ := reader_notify d c
  have htold : ∀ op, op = .ping ∨ op = .pong → d.reader.told op = Frame.payloads op fs →
      ((d.notify report.frame).setStage s).reader.told op =
        Frame.payloads op (fs ++ [⟨h, part⟩]) := by
    intro op hw hold
    have hpush : (d.notify report.frame).reader.told op =
        d.reader.told op ++ (report.frame.payloadOf op).toList := told_push (by rw [hr]) op
    rw [Frame.payloads_concat, ← hold]
    apply hpush.trans
    rw [Control.payloadOf_of_control? hc hw]
    by_cases he : h.opcode = op <;> simp [he]
  have hreader : ((d.notify report.frame).setStage s).reader =
      { d.reader with controls := d.reader.controls.push report, stage := s } := by
    rw [setStage, hr]
  have hmarks : Frame.rowMarks false (fs ++ [⟨h, part⟩]) = Frame.rowMarks false fs := by
    rw [Frame.rowMarks_append, Frame.rowMarks_control hop, List.append_nil]
  have horder : Sequencing.initial.acceptAll (Frame.order (fs ++ [⟨h, part⟩])) =
      .ok d.reader.sequencing := by
    rw [Frame.order_concat, Sequencing.acceptAll_concat]
    refine ⟨_, none, hq, ?_⟩
    rw [show (⟨h, part⟩ : Frame).header.fin = true from hfin]
    exact Sequencing.accept_control _ hop
  have hping := htold .ping (.inl rfl) hk.pings
  have hpong := htold .pong (.inr rfl) hk.pongs
  rw [hreader] at hping hpong ⊢
  refine ⟨{ hk with
    whole := hk.whole_concat hwhole hrsv, pings := hping, pongs := hpong, text := ht
    place := ⟨[], ?_, ?_⟩ }, .control _ report hnot rfl rfl hc rfl⟩
  · rcases hs with rfl | rfl
    · exact .header .start [] rfl .start (hm.trans hmarks.symm) horder
    · exact .answer part rfl (hm.trans hmarks.symm) horder
  · rw [Frame.rowBytes_append, Frame.rowBytes_cons, Frame.rowBytes_nil, List.append_nil,
      List.append_nil]

theorem handleControl_close_stopped {all : Traffic} (hk : d.reader.Kept fs)
    (hfront : d.reader.taken.Front all) (p : ClosePayload) :
    (d.handleControl (.close p)).reader.Stopped all := by
  unfold handleControl
  dsimp only
  split
  · exact hk.finish hfront rfl (by simp [endRead]) (by simp [told, endRead])
      (by simp [told, endRead])
  · obtain ⟨report, hreport, hr⟩ := reader_notify d (.close p)
    have htold (op : Opcode) : (d.notify (.close p)).reader.told op = d.reader.told op := by
      rw [told_push (r := d.reader) (by rw [hr]) op, hreport]
      exact List.append_nil _
    refine hk.finish hfront rfl (by simp [endRead, hr]) ?_ ?_
    · rw [← htold .ping]
      simp [told, endRead]
    · rw [← htold .pong]
      simp [told, endRead]

theorem readControl_stepped {h : Header} (hk : d.reader.Kept fs) (ht : d.reader.TextStands)
    (hrsv : h.rsv < 8) (hop : h.opcode.isControl = true) (hfin : h.fin = true)
    (hm : d.reader.received = Frame.rowMarks false fs)
    (hq : Sequencing.initial.acceptAll (Frame.order fs) = .ok d.reader.sequencing)
    (hl : piece.length = h.payloadLength.toNat) (hs : d.reader.stage = .control h)
    (hw : Frame.Offered d.rules ws) (size : Nat) (hfront : d.reader.taken.Front (Frame.traffic ws))
    (hfed : Frame.rowBytes fs ++ (h.encode ++ piece) ++ d.reader.input.bytes <+:
      Frame.rowBytes ws) :
    Stepped d.rules size ws (Frame.rowBytes fs ++ (h.encode ++ piece) ++ d.reader.input.bytes) fs
      d.reader (d.readControl h piece).reader := by
  have hwhole : Frame.Whole ⟨h, maskWith h.mask 0 piece⟩ := by
    rw [Frame.Whole, length_maskWith, hl]
  have hbytes : h.encode ++ piece = Frame.bytes ⟨h, maskWith h.mask 0 piece⟩ := by
    rw [Frame.bytes_eq, maskWith_maskWith]
  have hnot : ∀ f, d.reader.stage ≠ .data f := by simp [hs]
  rw [hbytes] at hfed ⊢
  unfold readControl
  cases hopcode : h.opcode with
  | continuation | text | binary =>
    rw [hopcode] at hop
    cases hop
  | ping =>
    obtain ⟨hgo, hadds⟩ := notify_amid hk ht hrsv hop hfin hm hq hwhole (.inr rfl)
      (by rw [Frame.control?, hopcode]) hnot size d.rules
    exact .going _ hgo hadds
  | pong =>
    obtain ⟨hgo, hadds⟩ := notify_amid hk ht hrsv hop hfin hm hq hwhole (.inl rfl)
      (by rw [Frame.control?, hopcode]) hnot size d.rules
    exact .going _ hgo hadds
  | close =>
    -- the frame is one of the row, so its payload can be read
    have hmem := hk.next_mem hwhole hrsv hw hfed
    refine .closed _ hmem hopcode hs ?_
    obtain ⟨p, hp⟩ := hw.close _ hmem hopcode
    have hparse : Control.parse .close (maskWith h.mask 0 piece) = .ok (some (.close p)) := by
      rw [Control.parse, hp]
      rfl
    rw [hparse]
    dsimp only
    exact handleControl_close_stopped hk hfront p

theorem endRead_stopped {all : Traffic} (h : d.reader.Stopped all) :
    (d.endRead .ended).reader.Stopped all := by
  have htaken : (d.endRead .ended).reader.taken = d.reader.taken := by
    simp [taken, received, told, endRead, ReadResult.marks]
  refine ⟨rfl, by rw [htaken]; exact h.front, ?_⟩
  intro hs x hx err
  rcases Array.mem_push.mp hx with hx | rfl
  · exact h.sound hs x hx err
  · rintro ⟨⟩

theorem wanted_le_of_readerStep {e e' : Endpoint} (hfault : e.reader.input.fault = none)
    (hended : e.reader.input.ended = false) (hopen : e.Listens) (hstep : e.readerStep = some e') :
    e.wanted ≤ e.reader.input.bytes.length := by
  have hclean := Input.take_clean hfault hended
  cases (readerStep_cases hstep).2 with
  | leave hover =>
    rw [hopen.1, hopen.2] at hover
    cases hover
  | fail f n _ ht =>
    rcases ht with ht | ht
    · exact absurd ht ((hclean n).1 f)
    · exact absurd ht (hclean n).2
  | finish _ _ ht => exact absurd ht (hclean _).2
  | header p piece rest _ hs ht | data f piece rest _ hs ht | control c piece rest _ hs ht =>
    rw [wanted, hs]
    exact Input.le_of_take ht
  | answer payload _ hs =>
    rw [wanted, hs]
    exact Nat.zero_le _

/-- A step of a reader for which enough has come in: it leaves for a teardown, or deals with what
has come in. -/
theorem readerStep_stepped {e e' : Endpoint} (h : e.reader.Amid e.rules fed fs)
    (hmet : e.wanted ≤ e.reader.input.bytes.length)
    (hw : Frame.Offered e.rules ws) (hfed : fed <+: Frame.rowBytes ws)
    (hkinds : TakesKinds e.config ws) (hstep : e.readerStep = some e') :
    (e.life.closed = true ∧ e' = e.endRead .ended) ∨
      Stepped e.rules e.config.partSize ws fed fs e.reader e'.reader := by
  have hfront := h.front hw hfed
  have hk := h.toKept
  obtain ⟨b, hplace, rfl⟩ := h.place
  have hmoved (b piece rest : Bytes) : Frame.rowBytes fs ++ b ++ (piece ++ rest) =
      Frame.rowBytes fs ++ (b ++ piece) ++ rest := by
    simp
  cases (readerStep_cases hstep).2 with
  | leave hover =>
    rw [h.unfinished, Bool.false_or] at hover
    exact .inl ⟨hover, rfl⟩
  | fail f n _ ht hn =>
    -- enough has come in, so that taking it neither fails nor waits
    subst hn
    rw [Input.take_of_le hmet] at ht
    simp at ht
  | finish _ hs ht =>
    rw [wanted, hs] at hmet
    rw [Input.take_of_le hmet] at ht
    simp at ht
  | header p piece rest _ hs ht =>
    obtain ⟨hb, hm, hq⟩ := hplace.at_header hs
    obtain ⟨hl, hi⟩ := Input.length_of_take ht
    rw [hi, hmoved] at hfed ⊢
    -- the piece belongs to a frame of the row, whatever else has come in behind it
    obtain ⟨after, tail, rfl, hrest⟩ := hk.rest hw hfed
    obtain ⟨hgo, hquiet⟩ := readHeaderPiece_amid (d := e.setInput rest) { hk with } h.text hm hq
      hb hl hw hrest hkinds
    exact .inr (.going fs hgo
      (.nothing ⟨hquiet.reads, hquiet.controls, hquiet.reading⟩ (by simp [hs])))
  | data f piece rest _ hs ht =>
    obtain ⟨part, rfl, hin⟩ := hplace.at_data hs
    obtain ⟨hl, hi⟩ := Input.length_of_take ht
    rw [hi, hmoved] at hfed ⊢
    have hstepped := readData_stepped (d := e.setInput rest) { hk with } h.text
      ⟨hin.length, hin.announced, hin.rsv, hin.data, hin.kind, hin.received, hin.order⟩ hs hl hw
      hfront hfed
    exact .inr hstepped.of_input
  | control c piece rest _ hs ht =>
    obtain ⟨rfl, hrsv, hop, hfin, hm, hq⟩ := hplace.at_control hs
    obtain ⟨hl, hi⟩ := Input.length_of_take ht
    rw [hi, hmoved] at hfed ⊢
    have hstepped := readControl_stepped (d := e.setInput rest) { hk with } h.text hrsv hop hfin hm
      hq hl hs hw e.config.partSize hfront hfed
    exact .inr hstepped.of_input
  | answer payload _ hs =>
    obtain ⟨rfl, hm, hq⟩ := hplace.at_answer hs
    have hreader : (e.answerPing payload).reader = { e.reader with
        lastPong := (e.queuePong payload).2.toOption, stage := .header .start } := by
      simp [answerPing]
    rw [hreader]
    refine .inr (.going fs { hk with
      text := h.text
      place := ⟨[], .header .start [] rfl .start hm hq, rfl⟩ } (.nothing ⟨rfl, rfl, rfl⟩ ?_))
    simp [hs]

theorem readerStep_going {e e' : Endpoint} (h : e.reader.Going e.rules fed fs)
    (hw : Frame.Offered e.rules ws) (hfed : fed <+: Frame.rowBytes ws)
    (hkinds : TakesKinds e.config ws) (hstep : e.readerStep = some e') :
    (e.life.closed = true ∧ e' = e.endRead .ended) ∨
      Stepped e.rules e.config.partSize ws fed fs e.reader e'.reader := by
  cases hclosed : e.life.closed with
  | true =>
    exact .inl ⟨rfl, readerStep_of_over (by simp [hclosed]) hstep⟩
  | false =>
    have hmet := wanted_le_of_readerStep h.fault h.ended ⟨h.unfinished, hclosed⟩ hstep
    have hstepped := readerStep_stepped h.toAmid hmet hw hfed hkinds hstep
    rwa [hclosed] at hstepped

theorem going_of_readerStep {e e' : Endpoint} {gs : List Frame} {rules : HeaderRules}
    (h : e.reader.Going rules fed fs) (hstep : e.readerStep = some e')
    (hgo : e'.reader.Amid rules fed gs) : e'.reader.Going rules fed gs := by
  obtain ⟨bytes, hinput⟩ := input_readerStep hstep
  exact ⟨hgo, by rw [hinput]; exact h.fault, by rw [hinput]; exact h.ended⟩

/-- A step of the reader is as it should be. -/
theorem readerStep_faithful {e e' : Endpoint} {all : Traffic}
    (h : e.reader.Faithful e.rules all fed) (hw : Frame.Offered e.rules ws)
    (hfed : fed <+: Frame.rowBytes ws) (hall : (Frame.traffic ws).Front all)
    (hkinds : TakesKinds e.config ws) (hstep : e.readerStep = some e') :
    e'.reader.Faithful e.rules all fed := by
  rcases h with ⟨fs, h⟩ | h
  · rcases readerStep_going h hw hfed hkinds hstep with ⟨-, rfl⟩ | hstepped
    · have hstop : (e.endRead .ended).reader.Stopped (Frame.traffic ws) :=
        h.finish (h.front hw hfed) rfl rfl rfl rfl
      exact .inr (hstop.mono hall)
    · obtain ⟨bytes, hinput⟩ := input_readerStep hstep
      refine (hstepped.faithful ?_ ?_).mono hall
      · rw [hinput]
        exact h.fault
      · rw [hinput]
        exact h.ended
  · obtain rfl := readerStep_of_over (by simp [h.finished]) hstep
    exact .inr (endRead_stopped h)

theorem opened_going (rules : HeaderRules) (config : Config) (callbacks : Callbacks)
    (keys : Nat → Key) (quota maxWrite : Option Nat) :
    (opened config callbacks keys quota maxWrite).reader.Going rules [] [] := by
  rw [opened, reader_writeAll]
  exact ⟨⟨⟨⟨rfl, List.forall_mem_nil _, rfl, rfl, by simp [fresh]⟩,
    ⟨[], .header .start [] rfl .start rfl rfl, rfl⟩⟩, .nil, .rest, rfl, rfl⟩, rfl, rfl⟩

theorem going_reading {rules : HeaderRules} (h : d.reader.Going rules fed fs)
    (m : Option ReadMode) : Going rules fed fs { d.reader with reading := m } := by
  obtain ⟨b, hplace, hb⟩ := h.place
  exact { h with place := ⟨b, hplace.congr rfl rfl rfl, hb⟩ }

theorem feed_going {rules : HeaderRules} (h : d.reader.Going rules fed fs) (b : Bytes) :
    (d.accept (.feed b)).1.reader.Going rules (fed ++ b) fs := by
  obtain ⟨b', hplace, rfl⟩ := h.place
  exact { h with place := ⟨b', hplace.congr rfl rfl rfl, List.append_assoc _ _ _⟩ }

theorem feed_faithful {all : Traffic} (h : d.reader.Faithful d.rules all fed) (b : Bytes) :
    (d.accept (.feed b)).1.reader.Faithful d.rules all (fed ++ b) := by
  rcases h with ⟨fs, h⟩ | h
  · exact .inl ⟨fs, feed_going h b⟩
  · exact .inr ⟨h.finished, h.front, h.sound⟩

theorem reader_accept {ev : Event} (hev : ev.isIncoming = false) :
    ∃ m, (d.accept ev).1.reader = { d.reader with reading := m } := by
  cases ev with
  | write c =>
    rw [fst_accept_write]
    split
    · exact ⟨_, reader_write d c⟩
    · exact ⟨_, rfl⟩
  | read m =>
    unfold accept
    dsimp only
    split
    · exact ⟨_, rfl⟩
    · exact ⟨_, rfl⟩
  | drop => exact ⟨_, rfl⟩
  | feed b => cases hev
  | endInput => cases hev
  | failInput f => cases hev
  | allow n => exact ⟨_, rfl⟩
  | failWrites f => exact ⟨_, rfl⟩
  | takeNothing => exact ⟨_, rfl⟩
  | failFlushes f => exact ⟨_, rfl⟩
  | advance n => exact ⟨_, rfl⟩

theorem accept_faithful {all : Traffic} {ev : Event} (h : d.reader.Faithful d.rules all fed)
    (hev : ev.isIncoming = false) : (d.accept ev).1.reader.Faithful d.rules all fed := by
  obtain ⟨m, hm⟩ := reader_accept (d := d) hev
  rw [hm]
  rcases h with ⟨fs, h⟩ | h
  · exact .inl ⟨fs, going_reading h m⟩
  · exact .inr ⟨h.finished, h.front, h.sound⟩

/-- A step of an end to which nothing is fed. -/
theorem step_faithful {ok : Event → Prop} {e e' : Endpoint} {all : Traffic} (hs : Step ok e e')
    (hok : ∀ ev, ok ev → ev.isIncoming = false) (h : e.reader.Faithful e.rules all fed)
    (hw : Frame.Offered e.rules ws) (hfed : fed <+: Frame.rowBytes ws)
    (hall : (Frame.traffic ws).Front all) (hkinds : TakesKinds e.config ws) :
    e'.reader.Faithful e.rules all fed := by
  cases hs with
  | event ev hev => exact accept_faithful h (hok ev hev)
  | reader hr => exact readerStep_faithful h hw hfed hall hkinds hr
  | writer hw' => rwa [(sendingWork_writerStep hw').1]
  | timer ht => rwa [(sendingWork_timerStep ht).1]
  | turn t => exact h

/-- A reader waits for more bytes, unless it waits for a pong. -/
theorem short_of_waits (hrest : d.readerStep = none) (hreading : d.reader.reading.isSome = true)
    (hstage : ∀ payload, d.reader.stage ≠ .answer payload) :
    d.reader.input.bytes.length < d.wanted := by
  cases (waits_of_readerStep hrest hreading).2 with
  | header p hs ht | data f hs ht | control c hs ht =>
    rw [wanted, hs]
    exact Input.length_lt_of_waits ht
  | answer payload hs => exact absurd hs (hstage payload)

theorem next_incomplete {b : Bytes} {tail : Bytes} (hplace : d.reader.Place d.rules fs b)
    (hshort : d.reader.input.bytes.length < d.wanted)
    (hw : Frame.Offered d.rules (fs ++ w :: more))
    (hb : b ++ d.reader.input.bytes ++ tail = Frame.rowBytes (w :: more)) (hwhole : w.Whole) :
    (b ++ d.reader.input.bytes).length < w.bytes.length := by
  have hrow := hw.row.of_append
  have hrsv : ∀ v ∈ w :: more, v.header.rsv < 8 := fun v hv => hw.rsv_lt v (by simp [hv])
  have hbytes : w.bytes.length = w.header.encode.length + w.header.payloadLength.toNat := by
    rw [Frame.bytes_eq, List.length_append, length_maskWith, hwhole]
  rw [List.length_append]
  cases hs : d.reader.stage with
  | header p =>
    rw [wanted, hs] at hshort
    obtain ⟨hreached, -, -⟩ := hplace.at_header hs
    rw [Frame.rowBytes_cons, Frame.bytes_eq, List.append_assoc, List.append_assoc] at hb
    -- what has been read of the header leads to less than all of it
    have := (hreached.along (hw.admits w (by simp)) hb).length
    dsimp only at hshort
    omega
  | data f =>
    rw [wanted, hs] at hshort
    obtain ⟨part, rfl, hin⟩ := hplace.at_data hs
    have hpart : part.length ≤ f.header.payloadLength.toNat := by
      rw [← hin.announced, hin.length]
      omega
    rw [List.append_assoc] at hb
    obtain ⟨v, vs, tail', hv, hh, -⟩ := Frame.part_of_row hin.rsv hpart hrow hrsv hb
    obtain ⟨rfl, rfl⟩ := List.cons.inj hv
    have hchunk : chunkLength d.config f ≤ f.remaining := Nat.min_le_left _ _
    have := hin.announced
    rw [hbytes, hh, List.length_append, length_maskWith, hin.length]
    dsimp only at hshort
    omega
  | control c =>
    rw [wanted, hs] at hshort
    obtain ⟨rfl, hlt, -⟩ := hplace.at_control hs
    have hb : c.encode ++ maskWith c.mask 0 [] ++ (d.reader.input.bytes ++ tail) =
        Frame.rowBytes (w :: more) := by
      rw [maskWith_nil, List.append_nil, ← hb, List.append_assoc]
    obtain ⟨v, vs, tail', hv, hh, -⟩ := Frame.part_of_row hlt (Nat.zero_le _) hrow hrsv hb
    obtain ⟨rfl, rfl⟩ := List.cons.inj hv
    rw [hbytes, hh]
    dsimp only at hshort
    omega
  | answer payload =>
    rw [wanted, hs] at hshort
    exact absurd hshort (Nat.not_lt_zero _)

/-- A reader for which not enough has come in has read all frames that have come in whole. -/
theorem read_of_short {gs : List Frame} (h : d.reader.Placed d.rules fed fs)
    (hw : Frame.Offered d.rules ws) (hfed : fed <+: Frame.rowBytes ws)
    (hshort : d.reader.input.bytes.length < d.wanted) (hgs : ∀ g ∈ gs, g.Whole ∧ g.header.rsv < 8)
    (hin : Frame.rowBytes gs <+: fed) : gs <+: fs := by
  obtain ⟨b, hplace, hb⟩ := h.place
  have hfed' := hfed
  rw [hb] at hfed'
  obtain ⟨rest, tail, rfl, hnext⟩ := h.rest hw hfed'
  obtain ⟨x, hx⟩ := hin.trans hfed
  obtain ⟨rest', hsame, -⟩ := Frame.row_split hgs hw.rsv_lt hw.row hx
  rcases List.append_eq_append_iff.mp hsame with ⟨as, hgs', hrest'⟩ | ⟨as, hfs, -⟩
  · rcases as with - | ⟨w, as⟩
    · rw [List.append_nil] at hgs'
      exact hgs' ▸ List.prefix_rfl
    · -- A frame more has come in.
      subst hgs' hrest'
      have hlt := next_incomplete hplace hshort hw hnext (hgs w (by simp)).1
      have hle := hin.length_le
      rw [hb, Frame.rowBytes_append, Frame.rowBytes_cons] at hle
      simp only [List.length_append] at hle hlt
      omega
  · exact ⟨as, hfs.symm⟩

/-- A reader that waits has read all frames that have come in whole. -/
theorem read_at_rest {gs : List Frame} (h : d.reader.Going d.rules fed fs)
    (hw : Frame.Offered d.rules ws) (hfed : fed <+: Frame.rowBytes ws)
    (hrest : d.readerStep = none) (hreading : d.reader.reading.isSome = true)
    (hstage : ∀ payload, d.reader.stage ≠ .answer payload)
    (hgs : ∀ g ∈ gs, g.Whole ∧ g.header.rsv < 8) (hin : Frame.rowBytes gs <+: fed) : gs <+: fs :=
  read_of_short h.toPlaced hw hfed (short_of_waits hrest hreading hstage) hgs hin

/-- A reader that waits has handed out all frames that have come in whole. -/
theorem handed_out_at_rest {gs : List Frame} {all : Traffic}
    (h : d.reader.Faithful d.rules all fed) (hw : Frame.Offered d.rules ws)
    (hfed : fed <+: Frame.rowBytes ws)
    (hrest : d.readerStep = none) (hreading : d.reader.reading.isSome = true)
    (hstage : ∀ payload, d.reader.stage ≠ .answer payload)
    (hgs : ∀ g ∈ gs, g.Whole ∧ g.header.rsv < 8) (hin : Frame.rowBytes gs <+: fed) :
    (Frame.traffic gs).Front d.reader.taken := by
  rcases h with ⟨fs, h⟩ | h
  · obtain ⟨as, rfl⟩ := read_at_rest h hw hfed hrest hreading hstage hgs hin
    exact (Frame.traffic_front gs as).trans h.handed_out
  · have hopen := (waits_of_readerStep hrest hreading).1
    exact absurd (hopen.1.symm.trans h.finished) Bool.false_ne_true

end Endpoint

end WebSocket
