import WebSocket.Proofs.Delivery.Reading

/-! The parts in which messages are handed out. The payload of each frame is cut for itself, and the
cut does not depend on how the bytes came in, nor on the control frames between. -/

namespace WebSocket

namespace Chunk

/-- A payload in parts of `size` bytes. The last may be shorter, and it is there for an empty
payload too. -/
def cut (size : Nat) (fin binary : Bool) (b : Bytes) : List Chunk :=
  if 0 < size ∧ size < b.length then
    ⟨b.take size, false, fin, binary⟩ :: cut size fin binary (b.drop size)
  else [⟨b, true, fin, binary⟩]
termination_by b.length
decreasing_by
  simp only [List.length_drop]
  omega

variable {size : Nat} {fin binary : Bool} {b : Bytes}

theorem cut_of_le (h : b.length ≤ size) : cut size fin binary b = [⟨b, true, fin, binary⟩] := by
  rw [cut, if_neg (by omega)]

theorem cut_append (hsize : 0 < size) (hb : b.length = size) {rest : Bytes} (hrest : rest ≠ []) :
    cut size fin binary (b ++ rest) =
      ⟨b, false, fin, binary⟩ :: cut size fin binary rest := by
  have hlt : size < (b ++ rest).length := by
    have := List.length_pos_of_ne_nil hrest
    rw [List.length_append]
    omega
  rw [cut, if_pos ⟨hsize, hlt⟩, ← hb, List.take_left, List.drop_left]

theorem marks_cut (size : Nat) (fin binary : Bool) (b : Bytes) :
    (cut size fin binary b).flatMap marks = Mark.bytes binary b ++ [.frameEnd fin binary] := by
  induction b using cut.induct size with
  | case1 b h ih =>
    rw [cut, if_pos h, List.flatMap_cons, ih, marks, if_neg (by simp), List.append_nil,
      ← List.append_assoc, ← Mark.bytes_append, List.take_append_drop]
  | case2 b h =>
    rw [cut, if_neg h]
    simp [marks]

end Chunk

namespace Frame

/-- The parts of a row of frames, the message before it being binary or not. -/
def rowChunks (size : Nat) : Bool → List Frame → List Chunk
  | _, [] => []
  | binary, f :: fs =>
    if f.header.opcode.isControl then rowChunks size binary fs
    else
      Chunk.cut size f.header.fin (f.header.opcode.binaryAfter binary) f.payload ++
        rowChunks size (f.header.opcode.binaryAfter binary) fs

def controls (fs : List Frame) : List Control := fs.filterMap control?

variable {size : Nat} {fs : List Frame}

theorem rowChunks_append (size : Nat) (binary : Bool) (fs gs : List Frame) :
    rowChunks size binary (fs ++ gs) =
      rowChunks size binary fs ++ rowChunks size (lastBinary binary fs) gs := by
  induction fs generalizing binary with
  | nil => rfl
  | cons f fs ih =>
    rw [List.cons_append, rowChunks, rowChunks, lastBinary, List.foldl_cons, ← lastBinary]
    by_cases hc : f.header.opcode.isControl = true
    · rw [if_pos hc, if_pos hc, ih, binaryAfter_control hc]
    · rw [if_neg hc, if_neg hc, ih, ← List.append_assoc]

theorem rowChunks_control {f : Frame} (h : f.header.opcode.isControl = true) (binary : Bool) :
    rowChunks size binary [f] = [] := by
  rw [rowChunks, if_pos h, rowChunks]

theorem rowChunks_data {f : Frame} (h : f.header.opcode.isControl = false) (binary : Bool) :
    rowChunks size binary [f] =
      Chunk.cut size f.header.fin (f.header.opcode.binaryAfter binary) f.payload := by
  rw [rowChunks, if_neg (by simp [h]), rowChunks, List.append_nil]

theorem rowChunks_mono {gs : List Frame} (h : fs <+: gs) :
    rowChunks size false fs <+: rowChunks size false gs := by
  obtain ⟨more, rfl⟩ := h
  rw [rowChunks_append]
  exact List.prefix_append _ _

/-- The parts carry what the row does. -/
theorem marks_rowChunks (size : Nat) (binary : Bool) (hw : ∀ f ∈ fs, f.Whole) :
    (rowChunks size binary fs).flatMap Chunk.marks = rowMarks binary fs := by
  induction fs generalizing binary with
  | nil => rfl
  | cons f fs ih =>
    have hfs : ∀ g ∈ fs, g.Whole := fun g hg => hw g (by simp [hg])
    rw [rowChunks, rowMarks]
    by_cases hc : f.header.opcode.isControl = true
    · rw [if_pos hc, if_pos hc, ih _ hfs]
    · rw [if_neg hc, if_neg hc, List.flatMap_append, Chunk.marks_cut, ih _ hfs,
        if_pos (hw f (by simp))]

theorem control?_of_data {f : Frame} (h : f.header.opcode.isControl = false) :
    f.control? = none := by
  unfold control?
  split <;> first | rfl | (next ho => rw [ho] at h; cases h)

theorem isControl_of_control? {f : Frame} {c : Control} (h : f.control? = some c) :
    f.header.opcode.isControl = true := by
  cases hf : f.header.opcode.isControl with
  | true => rfl
  | false =>
    rw [control?_of_data hf] at h
    cases h

theorem controls_concat (fs : List Frame) (f : Frame) :
    controls (fs ++ [f]) = controls fs ++ f.control?.toList := by
  rw [controls, controls, List.filterMap_append]
  cases hf : f.control? <;> simp [hf]

end Frame

/-- The parts of a frame that have been handed out. They are those into which the payload is cut,
whatever its rest will be. -/
structure IncomingFrame.Begun (size : Nat) (f : IncomingFrame) (done : List Chunk) : Prop where
  cut : ∀ rest, rest.length = f.remaining →
    done ++ Chunk.cut size f.header.fin f.kind.isBinary rest =
      Chunk.cut size f.header.fin f.kind.isBinary (done.flatMap (·.data) ++ rest)
  marks : done.flatMap Chunk.marks = Mark.bytes f.kind.isBinary (done.flatMap (·.data))

def Stage.Begun (size : Nat) (done : List Chunk) : Stage → Prop
  | data f => f.Begun size done
  | header _ | control _ | answer _ => done = []

theorem Stage.begun_nil (size : Nat) (s : Stage) : s.Begun size [] := by
  cases s with
  | data f => exact ⟨fun _ _ => rfl, rfl⟩
  | header | control | answer => rfl

theorem Stage.Begun.eq_nil {size : Nat} {done : List Chunk} {s : Stage} (h : s.Begun size done)
    (hs : ∀ f, s ≠ .data f) : done = [] := by
  cases s with
  | data f => exact absurd rfl (hs f)
  | header | control | answer => exact h

section

variable {size : Nat} {f : IncomingFrame} {done : List Chunk} {piece : Bytes}

theorem IncomingFrame.Begun.last (h : f.Begun size done) (hl : piece.length = min f.remaining size)
    (hend : f.remaining - piece.length = 0) :
    done ++ [f.next piece] = Chunk.cut size f.header.fin f.kind.isBinary
      (done.flatMap (·.data) ++ (f.next piece).data) := by
  have hlen : (f.next piece).data.length = piece.length := length_maskWith _ _ _
  rw [← h.cut _ (by omega), Chunk.cut_of_le (by omega), next, hend]
  rfl

theorem IncomingFrame.Begun.more (h : f.Begun size done) (hsize : 0 < size)
    (hl : piece.length = min f.remaining size) (hmore : f.remaining - piece.length ≠ 0) :
    IncomingFrame.Begun size { f with
      remaining := f.remaining - piece.length
      offset := f.offset + piece.length } (done ++ [f.next piece]) := by
  have hlen : (f.next piece).data.length = piece.length := length_maskWith _ _ _
  have hnext : f.next piece =
      ⟨(f.next piece).data, false, f.header.fin, f.kind.isBinary⟩ := by
    rw [next, beq_false_of_ne hmore]
  refine ⟨?_, ?_⟩
  · intro rest hrest
    have hne : rest ≠ [] := by
      rintro rfl
      exact hmore hrest.symm
    have hcut := h.cut ((f.next piece).data ++ rest) (by
      rw [List.length_append, hrest]
      show _ + (f.remaining - piece.length) = _
      omega)
    rw [Chunk.cut_append hsize (by omega) hne, ← hnext] at hcut
    simpa using hcut
  · rw [List.flatMap_append, List.flatMap_append, h.marks, Mark.bytes_append, hnext]
    simp [Chunk.marks]

end

namespace Reader

/-- A reader has handed out the parts of the frames that it has read, then those of the frame that
it is in, and it has told of the pings and pongs among those frames. -/
structure Handed (size : Nat) (fs : List Frame) (r : Reader) : Prop where
  reads : ∃ done, r.reads.toList = (Frame.rowChunks size false fs ++ done).map .chunk ∧
    r.stage.Begun size done
  controls : r.controls.toList.map (·.frame) = Frame.controls fs

variable {size : Nat} {fs gs : List Frame} {r r' : Reader}

theorem received_of_reads {cs : List Chunk} (h : r.reads.toList = cs.map .chunk) :
    r.received = cs.flatMap Chunk.marks := by
  rw [received, h, List.flatMap_map]
  rfl

theorem InFrame.part_eq {f : IncomingFrame} {part : Bytes} {done : List Chunk}
    (h : InFrame fs f part r) (hw : ∀ f ∈ fs, f.Whole)
    (hreads : r.reads.toList = (Frame.rowChunks size false fs ++ done).map .chunk)
    (hdone : f.Begun size done) : done.flatMap (·.data) = part := by
  have hm := h.received
  rw [received_of_reads hreads, List.flatMap_append, Frame.marks_rowChunks size false hw,
    hdone.marks] at hm
  refine List.map_injective_iff.mpr ?_ (List.append_cancel_left hm)
  intro a b hab
  exact (Mark.byte.inj hab).1

/-- A step adds to what has been handed out what it adds to the frames read. -/
theorem Handed.adds (h : Handed size fs r) (hk : r.Kept fs) (hsize : 0 < size)
    (ha : Adds size fs r r' gs) : Handed size gs r' := by
  have hw : ∀ f ∈ fs, f.Whole := fun f hf => (hk.whole f hf).1
  obtain ⟨⟨done, hreads, hdone⟩, hcontrols⟩ := h
  cases ha with
  | nothing hq hs =>
    obtain rfl := hdone.eq_nil hs
    refine ⟨⟨[], by rw [hq.reads, hreads], Stage.begun_nil size _⟩, ?_⟩
    rw [hq.controls, hcontrols]
  | part f part piece hs hin hl hpush hc hs' =>
    rw [hs] at hdone
    have hpart := hin.part_eq hw hreads hdone
    have hnext : r'.reads.toList =
        (Frame.rowChunks size false fs ++ (done ++ [f.next piece])).map .chunk := by
      rw [hpush, Array.toList_push, hreads]
      simp
    by_cases hend : f.remaining - piece.length = 0
    · rw [if_pos hend]
      refine ⟨⟨[], ?_, Stage.begun_nil size _⟩, ?_⟩
      · rw [hnext, hdone.last hl hend, hpart, List.append_nil, Frame.rowChunks_append,
          Frame.rowChunks_data hin.data, hin.kind]
      · rw [hc, hcontrols, Frame.controls_concat, Frame.control?_of_data hin.data]
        exact (List.append_nil _).symm
    · rw [if_neg hend, List.append_nil]
      refine ⟨⟨_, hnext, ?_⟩, by rw [hc, hcontrols]⟩
      rw [hs', IncomingFrame.stageAfter, if_neg (by simpa using hend)]
      exact hdone.more hsize hl hend
  | control f report hs hsame hpush hc =>
    obtain rfl := hdone.eq_nil hs
    refine ⟨⟨[], ?_, Stage.begun_nil size _⟩, ?_⟩
    · rw [hsame, hreads, Frame.rowChunks_append,
        Frame.rowChunks_control (Frame.isControl_of_control? hc), List.append_nil, List.append_nil]
    · rw [hpush, Array.toList_push, List.map_append, hcontrols, Frame.controls_concat, hc]
      rfl

/-- What has been handed out of a row of frames, of which the frames `fs` have been dealt with and
the frames `rest` have not. -/
structure Reassembled (size : Nat) (fs rest : List Frame) (cs : List Chunk) (r : Reader) : Prop where
  reads : ∃ n, r.reads.toList = cs.map .chunk ++ List.replicate n .ended ∧
    (r.finished = false → n = 0)
  behind : Frame.rowChunks size false fs <+: cs
  within : cs <+: Frame.rowChunks size false (fs ++ rest.take 1)
  controls : r.controls.toList.map (·.frame) = Frame.controls fs

/-- The parts handed out are those of the frames read and the first ones of the next frame. -/
theorem Handed.placed {rules : HeaderRules} {ws : List Frame} {fed : Bytes}
    (h : Handed size fs r) (hplaced : r.Placed rules fed fs) (hw : Frame.Offered rules ws)
    (hwhole : ∀ w ∈ ws, w.Whole) (hfed : fed <+: Frame.rowBytes ws) :
    ∃ rest cs, ws = fs ++ rest ∧ Reassembled size fs rest cs r := by
  obtain ⟨⟨done, hreads, hdone⟩, hcontrols⟩ := h
  obtain ⟨b, hplace, rfl⟩ := hplaced.place
  obtain ⟨rest, tail, rfl, hrest⟩ := hplaced.rest hw hfed
  refine ⟨rest, Frame.rowChunks size false fs ++ done, rfl, ⟨0, ?_, fun _ => rfl⟩,
    List.prefix_append _ _, ?_, hcontrols⟩
  · rw [hreads]
    simp
  rw [Frame.rowChunks_append]
  apply (List.prefix_append_right_inj _).mpr
  by_cases hs : ∃ f, r.stage = .data f
  · obtain ⟨f, hs⟩ := hs
    rw [hs] at hdone
    obtain ⟨part, rfl, hin⟩ := hplace.at_data hs
    have hpart := hin.part_eq (fun g hg => hwhole g (List.mem_append_left _ hg)) hreads hdone
    have hann := hin.announced
    have hle : part.length ≤ f.header.payloadLength.toNat := by
      rw [hin.length]
      omega
    rw [List.append_assoc] at hrest
    obtain ⟨w, more, tail', rfl, hh, hp⟩ := Frame.part_of_row hin.rsv hle hw.row.of_append
      (fun v hv => hw.rsv_lt v (List.mem_append_right _ hv)) hrest
    have hlen : tail'.length = f.remaining := by
      have : w.Whole := hwhole w (by simp)
      rw [Frame.Whole, hp, hh, List.length_append, hin.length] at this
      omega
    rw [List.take_succ_cons, List.take_zero, Frame.rowChunks_data (by rw [hh]; exact hin.data), hh,
      hp, ← hin.kind, ← hpart, ← hdone.cut tail' hlen]
    exact List.prefix_append _ _
  · rw [hdone.eq_nil fun f hf => hs ⟨f, hf⟩]
    exact List.nil_prefix

theorem Handed.reassembled {rules : HeaderRules} {ws : List Frame} {fed : Bytes}
    (h : Handed size fs r) (hgo : r.Going rules fed fs) (hw : Frame.Offered rules ws)
    (hwhole : ∀ w ∈ ws, w.Whole) (hfed : fed <+: Frame.rowBytes ws) :
    ∃ rest cs, ws = fs ++ rest ∧ Reassembled size fs rest cs r :=
  h.placed hgo.toPlaced hw hwhole hfed

theorem Reassembled.ended {rest : List Frame} {cs : List Chunk} (h : Reassembled size fs rest cs r)
    (hreads : r'.reads = r.reads.push .ended) (hfin : r'.finished = true)
    (hcontrols : r'.controls = r.controls) : Reassembled size fs rest cs r' := by
  obtain ⟨n, hn, -⟩ := h.reads
  refine ⟨⟨n + 1, ?_, fun hf => absurd (hf.symm.trans hfin) Bool.false_ne_true⟩, h.behind, h.within,
    by rw [hcontrols, h.controls]⟩
  rw [hreads, Array.toList_push, hn, List.replicate_succ', List.append_assoc]

end Reader

namespace Frame

/-- A frame that an end takes from its peer at any time, but no close frame. -/
structure Lawful (c : Config) (w : Frame) : Prop where
  whole : w.Whole
  rsv : w.header.rsv = 0
  mask : w.header.mask.isSome = c.role.expectsMasked
  control : w.header.opcode.isControl = true →
    w.header.fin = true ∧ w.payload.length ≤ maxControlPayload
  data : w.header.opcode.isControl = false →
    w.payload.length ≤ c.maxFrameSize.toNat ∧ w.payload.length < HeaderProgress.lengthLimit
  kind : ∀ k : MessageKind, w.header.opcode = k.opcode → Endpoint.accepts c k = true
  stays : w.header.opcode ≠ .close

/-- Frames that a peer may send one after the other, but for what their text says. The last message
may be unfinished. -/
structure OrderlyRow (c : Config) (ws : List Frame) : Prop where
  frames : ∀ w ∈ ws, w.Lawful c
  order : ∃ s, Sequencing.initial.acceptAll (order ws) = .ok s

/-- Frames that a peer may send one after the other, in messages whose text is well-formed. The last
message may be unfinished. -/
structure LawfulRow (c : Config) (ws : List Frame) : Prop where
  frames : ∀ w ∈ ws, w.Lawful c
  order : ∃ s, Sequencing.initial.acceptAll (order ws) = .ok s
  text : Mark.TextSound (rowMarks false ws)

variable {c : Config} {ws : List Frame}

theorem Lawful.admits {w : Frame} (h : w.Lawful c) :
    HeaderRules.Admits ⟨c.role, c.maxFrameSize⟩ w.header := by
  have hlen : w.payload.length = w.header.payloadLength.toNat := h.whole
  cases hop : w.header.opcode.isControl with
  | true =>
    obtain ⟨hfin, hle⟩ := h.control hop
    rw [hlen] at hle
    refine ⟨h.rsv, h.mask, ?_, ?_⟩
    · rw [maxControlPayload] at hle
      rw [HeaderProgress.lengthLimit]
      omega
    · rw [HeaderRules.check, if_pos hop, hfin, if_neg (by simp), if_neg (by omega)]
  | false =>
    obtain ⟨hmax, hshort⟩ := h.data hop
    rw [hlen] at hmax hshort
    refine ⟨h.rsv, h.mask, hshort, ?_⟩
    rw [HeaderRules.check, if_neg (by simp [hop]), if_neg]
    exact UInt64.not_lt.mpr hmax

theorem OrderlyRow.whole (h : OrderlyRow c ws) : ∀ w ∈ ws, w.Whole :=
  fun w hw => (h.frames w hw).whole

theorem OrderlyRow.offered (h : OrderlyRow c ws) : Offered ⟨c.role, c.maxFrameSize⟩ ws where
  row := .of_whole h.whole
  admits := fun w hw => (h.frames w hw).admits
  order := h.order
  close := fun w hw hop => absurd hop (h.frames w hw).stays

theorem OrderlyRow.kinds (h : OrderlyRow c ws) : Endpoint.TakesKinds c ws :=
  fun w hw k => (h.frames w hw).kind k

theorem LawfulRow.orderly (h : LawfulRow c ws) : OrderlyRow c ws := ⟨h.frames, h.order⟩

theorem LawfulRow.offered (h : LawfulRow c ws) : Offered ⟨c.role, c.maxFrameSize⟩ ws :=
  h.orderly.offered

end Frame

namespace Endpoint

/-- An end and all that has been fed to it. Whatever else may happen to it happens at any time. -/
inductive Supplied (config : Config) : Bytes → Endpoint → Prop where
  | start (callbacks : Callbacks) (keys : Nat → Key) (quota maxWrite : Option Nat) :
      Supplied config [] (opened config callbacks keys quota maxWrite)
  | step {fed : Bytes} {e e' : Endpoint} (h : Supplied config fed e)
      (hs : Step (·.isIncoming = false) e e') : Supplied config fed e'
  | feed {fed : Bytes} {e : Endpoint} (h : Supplied config fed e) (b : Bytes) :
      Supplied config (fed ++ b) (e.accept (.feed b)).1

variable {config : Config} {fed : Bytes} {e e' : Endpoint} {ws : List Frame}

theorem Supplied.inOrder (h : Supplied config fed e) :
    e.InOrder (fun _ _ => True) ∧ e.config = config := by
  have hany : ∀ c : WriteCall, True → c.Within fun _ _ => True := fun c _ => c.within_any
  have hstep {d d' : Endpoint} (hin : d.InOrder fun _ _ => True) (hs : Step (fun _ => True) d d') :
      d'.InOrder (fun _ _ => True) ∧ d'.config = d.config :=
    ⟨hin.step hany hs, hs.config_eq hin hany⟩
  induction h with
  | start callbacks keys quota maxWrite =>
    exact ⟨.opened config callbacks keys quota maxWrite fun c _ => c.within_any,
      config_opened config callbacks keys quota maxWrite⟩
  | step _ hs ih =>
    obtain ⟨hin, hc⟩ := hstep ih.1 (hs.mono fun _ _ => trivial)
    exact ⟨hin, hc.trans ih.2⟩
  | feed _ b ih =>
    obtain ⟨hin, hc⟩ := hstep ih.1 (.event (.feed b) trivial)
    exact ⟨hin, hc.trans ih.2⟩

/-- The reader of an end to which the front of a row of frames has been fed. It goes on, or it has
left for a teardown. -/
inductive Attends (config : Config) (ws : List Frame) (fed : Bytes) (e : Endpoint) : Prop where
  | going (fs : List Frame) (hgo : e.reader.Going ⟨config.role, config.maxFrameSize⟩ fed fs)
      (hh : e.reader.Handed config.partSize fs)
  | left (hfin : e.reader.finished = true) (hclosed : e.life.closed = true)
      (fs rest : List Frame) (cs : List Chunk) (hws : ws = fs ++ rest)
      (hin : Frame.rowBytes fs <+: fed)
      (h : Reader.Reassembled config.partSize fs rest cs e.reader)

theorem Attends.congr (h : Attends config ws fed e) (hr : e'.reader = e.reader)
    (hc : e.life.closed = true → e'.life.closed = true) : Attends config ws fed e' := by
  cases h with
  | going fs hgo hh =>
    rw [← hr] at hgo hh
    exact .going fs hgo hh
  | left hfin hclosed fs rest cs hws hin h =>
    rw [← hr] at hfin h
    exact .left hfin (hc hclosed) fs rest cs hws hin h

theorem Attends.reading (h : Attends config ws fed e) (m : Option ReadMode)
    (hr : e'.reader = { e.reader with reading := m })
    (hc : e.life.closed = true → e'.life.closed = true) : Attends config ws fed e' := by
  cases h with
  | going fs hgo hh =>
    refine .going fs ?_ ?_
    · rw [hr]
      exact going_reading hgo m
    · rw [hr]
      exact ⟨hh.reads, hh.controls⟩
  | left hfin hclosed fs rest cs hws hin h =>
    refine .left (by rw [hr]; exact hfin) (hc hclosed) fs rest cs hws hin ?_
    rw [hr]
    exact ⟨h.reads, h.behind, h.within, h.controls⟩

theorem Attends.feed (h : Attends config ws fed e) (b : Bytes) :
    Attends config ws (fed ++ b) (e.accept (.feed b)).1 := by
  cases h with
  | going fs hgo hh => exact .going fs (feed_going hgo b) ⟨hh.reads, hh.controls⟩
  | left hfin hclosed fs rest cs hws hin h =>
    exact .left hfin hclosed fs rest cs hws (hin.trans (List.prefix_append _ _))
      ⟨h.reads, h.behind, h.within, h.controls⟩

theorem Attends.readerStep (h : Attends config ws fed e) (hc : e.config = config)
    (hw : Frame.LawfulRow config ws) (hfed : fed <+: Frame.rowBytes ws)
    (hstep : e.readerStep = some e') (hclosed : e.life.closed = true → e'.life.closed = true) :
    Attends config ws fed e' := by
  subst hc
  cases h with
  | going fs hgo hh =>
    rcases readerStep_going hgo hw.offered hfed (fun w hm k => (hw.frames w hm).kind k) hstep with
      ⟨hover, rfl⟩ | hstepped
    · obtain ⟨rest, cs, hws, hre⟩ :=
        hh.reassembled hgo hw.offered (fun w hm => (hw.frames w hm).whole) hfed
      refine .left rfl hover fs rest cs hws ?_ (hre.ended rfl rfl rfl)
      obtain ⟨b, -, hb⟩ := hgo.place
      rw [hb, List.append_assoc]
      exact List.prefix_append _ _
    · cases hstepped with
      | going gs hg ha =>
        exact .going gs (going_of_readerStep hgo hstep hg)
          (hh.adds hgo.toKept (Config.partSize_pos _) ha)
      | refused hns => exact absurd hw.text hns
      | closed f hf hop => exact absurd hop (hw.frames f hf).stays
  | left hfin hover fs rest cs hws hin h =>
    obtain rfl := readerStep_of_over (by simp [hfin]) hstep
    exact .left rfl hover fs rest cs hws hin (h.ended rfl rfl rfl)

/-- The reader of an end does with the front of a lawful row what it should, throughout. -/
theorem Supplied.attends (h : Supplied config fed e) (hw : Frame.LawfulRow config ws)
    (hfed : fed <+: Frame.rowBytes ws) : Attends config ws fed e := by
  have hany : ∀ c : WriteCall, (Event.write c).isIncoming = false → c.Within fun _ _ => True :=
    fun c _ => c.within_any
  induction h with
  | start callbacks keys quota maxWrite =>
    have hreader : (opened config callbacks keys quota maxWrite).reader =
        (fresh config callbacks keys (.fresh quota maxWrite)).reader := by
      rw [opened, reader_writeAll]
    refine .going [] (opened_going _ config callbacks keys quota maxWrite) ?_
    rw [hreader]
    exact ⟨⟨[], rfl, rfl⟩, rfl⟩
  | step h hs ih =>
    have hprev := ih hfed
    obtain ⟨hin, hc⟩ := h.inOrder
    have hclosed := hs.closed hin hany
    cases hs with
    | event ev hev =>
      obtain ⟨m, hm⟩ := reader_accept hev
      exact hprev.reading m hm hclosed
    | reader hr => exact hprev.readerStep hc hw hfed hr hclosed
    | writer hwr => exact hprev.congr (sendingWork_writerStep hwr).1 hclosed
    | timer ht => exact hprev.congr (sendingWork_timerStep ht).1 hclosed
    | turn t => exact hprev.congr rfl hclosed
  | feed h b ih => exact (ih ((List.prefix_append _ _).trans hfed)).feed b

/-- What an application has got of a row of frames of which the front has been fed: the frames `fs`
have been dealt with, and the frames `rest` have not. -/
structure Reassembles (config : Config) (fed : Bytes) (fs rest : List Frame) (cs : List Chunk)
    (e : Endpoint) : Prop where
  /-- Reads give the parts. Once the connection is torn down they say that it has ended. -/
  reads : ∃ n, e.reader.reads.toList = cs.map .chunk ++ List.replicate n .ended ∧
    (e.life.closed = false → n = 0)
  front : cs <+: Frame.rowChunks config.partSize false (fs ++ rest)
  /-- They are those of the frames dealt with and maybe some of the next frame. -/
  behind : Frame.rowChunks config.partSize false fs <+: cs
  within : cs <+: Frame.rowChunks config.partSize false (fs ++ rest.take 1)
  controls : e.heardControls.toList.map (·.frame) =
    if e.callbacks.onControl.isSome then Frame.controls fs else []
  came : Frame.rowBytes fs <+: fed
  /-- An application that waits for more has got all that has come in whole, unless the reader is
  kept waiting by an earlier pong. -/
  all : e.readerStep = none → e.reader.reading.isSome = true →
    (∀ payload, e.reader.stage ≠ .answer payload) →
      ∀ gs, gs <+: fs ++ rest → Frame.rowBytes gs <+: fed → gs <+: fs

theorem reassembles_of_reader {fs rest : List Frame} {cs : List Chunk}
    (h : Reader.Reassembled config.partSize fs rest cs e.reader)
    (hclosed : e.reader.finished = true → e.life.closed = true)
    (hin : Frame.rowBytes fs <+: fed)
    (hall : e.readerStep = none → e.reader.reading.isSome = true →
      (∀ payload, e.reader.stage ≠ .answer payload) →
        ∀ gs, gs <+: fs ++ rest → Frame.rowBytes gs <+: fed → gs <+: fs) :
    Reassembles config fed fs rest cs e := by
  obtain ⟨n, hn, hfin⟩ := h.reads
  refine ⟨⟨n, hn, fun hopen => hfin ?_⟩, h.within.trans ?_, h.behind, h.within, ?_, hin, hall⟩
  · by_contra hf
    exact absurd (hopen.symm.trans (hclosed (by simpa using hf))) Bool.false_ne_true
  · exact Frame.rowChunks_mono ((List.prefix_append_right_inj _).mpr (List.take_prefix 1 rest))
  · rw [heardControls]
    split
    · exact h.controls
    · rfl

/-- Messages are put together again. However the bytes of lawful frames come in, and whatever else
happens, reads give the parts of these frames, one after the other. -/
theorem reassembles_of_supplied (h : Supplied config fed e) (hw : Frame.LawfulRow config ws)
    (hfed : fed <+: Frame.rowBytes ws) :
    ∃ fs rest cs, ws = fs ++ rest ∧ Reassembles config fed fs rest cs e := by
  obtain ⟨-, rfl⟩ := h.inOrder
  cases h.attends hw hfed with
  | going fs hgo hh =>
    obtain ⟨rest, cs, rfl, hre⟩ :=
      hh.reassembled hgo hw.offered (fun w hm => (hw.frames w hm).whole) hfed
    refine ⟨fs, rest, cs, rfl, reassembles_of_reader hre ?_ ?_ ?_⟩
    · intro hfin
      exact absurd (hgo.unfinished.symm.trans hfin) Bool.false_ne_true
    · obtain ⟨b, -, hb⟩ := hgo.place
      rw [hb, List.append_assoc]
      exact List.prefix_append _ _
    · intro hrest hreading hstage gs hgs hin
      refine read_at_rest hgo hw.offered hfed hrest hreading hstage ?_ hin
      intro g hg
      exact ⟨(hw.frames g (hgs.subset hg)).whole, hw.offered.rsv_lt g (hgs.subset hg)⟩
  | left hfin hclosed fs rest cs hws hin hre =>
    refine ⟨fs, rest, cs, hws, reassembles_of_reader hre (fun _ => hclosed) hin ?_⟩
    intro hrest hreading
    have hopen := (waits_of_readerStep hrest hreading).1
    exact absurd (hopen.1.symm.trans hfin) Bool.false_ne_true

/-! Dealing with events one by one is such a course of things. -/

def fedBy : Event → Bytes
  | .feed b => b
  | _ => []

theorem Supplied.steps (h : Supplied config fed e)
    (hs : Relation.ReflTransGen (Step (·.isIncoming = false)) e e') : Supplied config fed e' := by
  induction hs with
  | refl => exact h
  | tail _ hs ih => exact ih.step hs

theorem Supplied.handleAll {α : Type} {f : Endpoint → α} {y : α} {n : Nat}
    (h : Supplied config fed e) (evs : List Event)
    (hevs : ∀ ev ∈ evs, ev.isIncoming = false ∨ ∃ b, ev = .feed b)
    (hy : (e.handleAll n evs).map f = some y) :
    ∃ e', Supplied config (fed ++ evs.flatMap fedBy) e' ∧ f e' = y := by
  induction evs generalizing e fed with
  | nil => exact ⟨e, by simpa using h, Option.some.inj hy⟩
  | cons ev evs ih =>
    rw [Endpoint.handleAll] at hy
    split at hy
    · simp at hy
    · next e' he =>
      have hnext : Supplied config (fed ++ fedBy ev) (e.accept ev).1 := by
        rcases hevs ev (by simp) with hev | ⟨b, rfl⟩
        · have hnone : fedBy ev = [] := by cases ev <;> first | rfl | cases hev
          rw [hnone, List.append_nil]
          exact h.step (.event ev hev)
        · exact h.feed b
      have hrest := (hnext.step (.turn _ .reader)).steps (settle_steps _ _)
      rw [settle_of_within he] at hrest
      rw [List.flatMap_cons, ← List.append_assoc]
      exact ih hrest (fun ev' hm => hevs ev' (by simp [hm])) hy

/-- A server gets a text message in two frames, with a ping between them, in parts of one byte. -/
theorem reassembles_of_supplied_text :
    ∃ (key : Key) (ws : List Frame) (e : Endpoint),
      Supplied { Config.server with readChunkSize := 0 } (Frame.rowBytes ws) e ∧
      Frame.LawfulRow { Config.server with readChunkSize := 0 } ws ∧
      ws = [⟨.plain false .text 2 (some key), [0x61, 0xc3]⟩,
        ⟨.plain true .ping 1 (some key), [0x70]⟩,
        ⟨.plain true .continuation 1 (some key), [0xa4]⟩] ∧
      e.life.closed = false ∧
      e.reader.reads.toList = [.chunk ⟨[0x61], false, false, false⟩,
        .chunk ⟨[0xc3], true, false, false⟩, .chunk ⟨[0xa4], true, true, false⟩] ∧
      ∃ fs rest cs, ws = fs ++ rest ∧
        Reassembles { Config.server with readChunkSize := 0 } (Frame.rowBytes ws) fs rest cs e := by
  let key : Key := ⟨1, 2, 3, 4⟩
  let ws : List Frame := [⟨.plain false .text 2 (some key), [0x61, 0xc3]⟩,
    ⟨.plain true .ping 1 (some key), [0x70]⟩,
    ⟨.plain true .continuation 1 (some key), [0xa4]⟩]
  have hw : Frame.LawfulRow { Config.server with readChunkSize := 0 } ws := by
    refine ⟨?_, ⟨.initial, rfl⟩, ?_⟩
    · intro w hm
      simp only [ws, List.mem_cons, List.not_mem_nil, or_false] at hm
      rcases hm with rfl | rfl | rfl <;>
        exact ⟨by decide, by decide, by decide, by decide, by decide,
          fun k => by cases k <;> decide, by decide⟩
    · have hbegun : ∃ more, Utf8.WellFormed ([0x61, 0xc3] ++ more) :=
        ⟨[0xa4], ⟨['a', 'ä'], by decide⟩⟩
      have hwhole : Utf8.WellFormed [0x61, 0xc3, 0xa4] := ⟨['a', 'ä'], by decide⟩
      have h1 : Mark.TextSound ([] ++ [.byte 0x61 false]) :=
        .concat .nil nofun ⟨[], ⟨['a'], by decide⟩⟩
      have h2 : Mark.TextSound ([] ++ [.byte 0x61 false] ++ [.byte 0xc3 false]) :=
        h1.concat nofun hbegun
      have h3 : Mark.TextSound (_ ++ [.frameEnd false false]) := h2.concat nofun hbegun
      have h4 : Mark.TextSound (_ ++ [.byte 0xa4 false]) := h3.concat nofun ⟨[], hwhole⟩
      exact h4.concat (m := .frameEnd true false) (fun _ _ => hwhole) ⟨[], ⟨[], rfl⟩⟩
  have h0 : Supplied { Config.server with readChunkSize := 0 } []
      (opened _ .none (fun _ => .zero) none none) := .start _ _ _ _
  obtain ⟨e, h, hy⟩ := h0.handleAll (n := 16)
    (f := fun e => (e.life.closed, e.reader.reads.toList))
    [.feed ((Frame.rowBytes ws).take 7), .read .all, .feed ((Frame.rowBytes ws).drop 7)]
    (by simp [Event.isIncoming])
    (y := (false, [.chunk ⟨[0x61], false, false, false⟩, .chunk ⟨[0xc3], true, false, false⟩,
      .chunk ⟨[0xa4], true, true, false⟩])) (by decide +kernel)
  obtain ⟨hopen, hreads⟩ := Prod.mk.inj hy
  have hfed : [] ++ [Event.feed ((Frame.rowBytes ws).take 7), .read .all,
      .feed ((Frame.rowBytes ws).drop 7)].flatMap fedBy = Frame.rowBytes ws := by decide
  rw [hfed] at h
  exact ⟨key, ws, e, h, hw, rfl, hopen, hreads,
    reassembles_of_supplied h hw List.prefix_rfl⟩

end Endpoint

end WebSocket
