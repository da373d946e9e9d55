import WebSocket.Endpoint.State
import WebSocket.Proofs.Delivery.Rows

/-! Where a reader stands when the bytes fed to it are the front of a row of frames that it takes:
it has read some frames whole and a part of the next, and handed out what they carry. -/

namespace WebSocket

def Control.payloadOf (op : Opcode) : Control → Option Bytes
  | ping payload => if op = .ping then some payload else none
  | pong payload => if op = .pong then some payload else none
  | close _ => none

def Frame.control? (f : Frame) : Option Control :=
  match f.header.opcode with
  | .ping => some (.ping f.payload)
  | .pong => some (.pong f.payload)
  | .continuation | .text | .binary | .close => none

theorem Control.payloadOf_of_control? {f : Frame} {c : Control} (h : f.control? = some c)
    {op : Opcode} (hop : op = .ping ∨ op = .pong) :
    c.payloadOf op = if f.header.opcode = op then some f.payload else none := by
  unfold Frame.control? at h
  split at h <;> cases h <;> rename_i hf <;> rw [hf] <;> rcases hop with rfl | rfl <;> rfl

def IncomingFrame.next (f : IncomingFrame) (piece : Bytes) : Chunk :=
  ⟨maskWith f.header.mask f.offset piece, f.remaining - piece.length == 0, f.header.fin,
    f.kind.isBinary⟩

def IncomingFrame.stageAfter (f : IncomingFrame) (piece : Bytes) : Stage :=
  if f.remaining - piece.length == 0 then .header .start
  else .data { f with
    remaining := f.remaining - piece.length
    offset := f.offset + piece.length }

namespace Reader

/-- The parts of messages that have been handed out. -/
def received (r : Reader) : List Mark := r.reads.toList.flatMap ReadResult.marks

/-- The payloads of the pings or pongs that the application was told of. -/
def told (op : Opcode) (r : Reader) : List Bytes :=
  r.controls.toList.filterMap (·.frame.payloadOf op)

/-- What the application has got. -/
def taken (r : Reader) : Traffic := ⟨r.received, r.told .ping, r.told .pong⟩

/-- What is known while the payload of a data frame is read: the part that has been read. -/
structure InFrame (fs : List Frame) (f : IncomingFrame) (part : Bytes) (r : Reader) : Prop where
  length : part.length = f.offset
  announced : f.offset + f.remaining = f.header.payloadLength.toNat
  rsv : f.header.rsv < 8
  data : f.header.opcode.isControl = false
  kind : f.kind.isBinary = f.header.opcode.binaryAfter (Frame.lastBinary false fs)
  received : r.received = Frame.rowMarks false fs ++ Mark.bytes f.kind.isBinary part
  order : Sequencing.initial.acceptAll
    (Frame.order fs ++ [(f.header.opcode, f.header.fin)]) = .ok r.sequencing

/-- Where a reader stands that has read some frames, and what it has read of the next. -/
inductive Place (rules : HeaderRules) (fs : List Frame) (r : Reader) : Bytes → Prop where
  | header (p : HeaderProgress) (b : Bytes) (hs : r.stage = .header p)
      (hb : HeaderProgress.Reached rules b p) (hm : r.received = Frame.rowMarks false fs)
      (hq : Sequencing.initial.acceptAll (Frame.order fs) = .ok r.sequencing) : Place rules fs r b
  | data (f : IncomingFrame) (part : Bytes) (hs : r.stage = .data f) (h : InFrame fs f part r) :
      Place rules fs r (f.header.encode ++ maskWith f.header.mask 0 part)
  | control (h : Header) (hs : r.stage = .control h) (hrsv : h.rsv < 8)
      (hop : h.opcode.isControl = true) (hfin : h.fin = true)
      (hm : r.received = Frame.rowMarks false fs)
      (hq : Sequencing.initial.acceptAll (Frame.order fs) = .ok r.sequencing) :
      Place rules fs r h.encode
  | answer (payload : Bytes) (hs : r.stage = .answer payload)
      (hm : r.received = Frame.rowMarks false fs)
      (hq : Sequencing.initial.acceptAll (Frame.order fs) = .ok r.sequencing) : Place rules fs r []

section

variable {rules : HeaderRules} {fs : List Frame} {r : Reader} {b : Bytes}

theorem Place.at_header {p : HeaderProgress} (h : r.Place rules fs b) (hs : r.stage = .header p) :
    HeaderProgress.Reached rules b p ∧ r.received = Frame.rowMarks false fs ∧
      Sequencing.initial.acceptAll (Frame.order fs) = .ok r.sequencing := by
  cases h with
  | header q b hs' hb hm hq =>
    obtain rfl := Stage.header.inj (hs'.symm.trans hs)
    exact ⟨hb, hm, hq⟩
  | data f part hs' => exact absurd (hs'.symm.trans hs) (by simp)
  | control hd hs' => exact absurd (hs'.symm.trans hs) (by simp)
  | answer payload hs' => exact absurd (hs'.symm.trans hs) (by simp)

theorem Place.at_data {f : IncomingFrame} (h : r.Place rules fs b) (hs : r.stage = .data f) :
    ∃ part, b = f.header.encode ++ maskWith f.header.mask 0 part ∧ InFrame fs f part r := by
  cases h with
  | data g part hs' hin =>
    obtain rfl := Stage.data.inj (hs'.symm.trans hs)
    exact ⟨part, rfl, hin⟩
  | header q b hs' => exact absurd (hs'.symm.trans hs) (by simp)
  | control hd hs' => exact absurd (hs'.symm.trans hs) (by simp)
  | answer payload hs' => exact absurd (hs'.symm.trans hs) (by simp)

theorem Place.at_control {h : Header} (hp : r.Place rules fs b) (hs : r.stage = .control h) :
    b = h.encode ∧ h.rsv < 8 ∧ h.opcode.isControl = true ∧ h.fin = true ∧
      r.received = Frame.rowMarks false fs ∧
      Sequencing.initial.acceptAll (Frame.order fs) = .ok r.sequencing := by
  cases hp with
  | control hd hs' hrsv hop hfin hm hq =>
    obtain rfl := Stage.control.inj (hs'.symm.trans hs)
    exact ⟨rfl, hrsv, hop, hfin, hm, hq⟩
  | header q b hs' => exact absurd (hs'.symm.trans hs) (by simp)
  | data f part hs' => exact absurd (hs'.symm.trans hs) (by simp)
  | answer payload hs' => exact absurd (hs'.symm.trans hs) (by simp)

theorem Place.at_answer {payload : Bytes} (h : r.Place rules fs b)
    (hs : r.stage = .answer payload) :
    b = [] ∧ r.received = Frame.rowMarks false fs ∧
      Sequencing.initial.acceptAll (Frame.order fs) = .ok r.sequencing := by
  cases h with
  | answer q hs' hm hq => exact ⟨rfl, hm, hq⟩
  | header q b hs' => exact absurd (hs'.symm.trans hs) (by simp)
  | data f part hs' => exact absurd (hs'.symm.trans hs) (by simp)
  | control hd hs' => exact absurd (hs'.symm.trans hs) (by simp)

end

theorem Place.congr {rules : HeaderRules} {fs : List Frame} {r r' : Reader} {b : Bytes}
    (h : r.Place rules fs b) (hs : r'.stage = r.stage) (hq : r'.sequencing = r.sequencing)
    (hr : r'.reads = r.reads) : r'.Place rules fs b := by
  have hm : r'.received = r.received := by rw [received, hr, received]
  cases h with
  | header p b hs' hb hm' hq' =>
    exact .header p b (hs.trans hs') hb (hm.trans hm') (by rw [hq, hq'])
  | data f part hs' h =>
    exact .data f part (hs.trans hs') ⟨h.length, h.announced, h.rsv, h.data, h.kind,
      hm.trans h.received, by rw [hq, h.order]⟩
  | control hd hs' hrsv hop hfin hm' hq' =>
    exact .control hd (hs.trans hs') hrsv hop hfin (hm.trans hm') (by rw [hq, hq'])
  | answer payload hs' hm' hq' =>
    exact .answer payload (hs.trans hs') (hm.trans hm') (by rw [hq, hq'])

/-- The text handed out is sound, and the validator stands where it leaves off. -/
def TextStands (r : Reader) : Prop :=
  Mark.TextSound r.received ∧
    ∃ c, Utf8.Cursor.rest.run (Mark.text r.received) = some c ∧ r.text = ⟨c.seen⟩

/-- A reader that has read some frames whole, whatever it reads next. -/
structure Kept (fs : List Frame) (r : Reader) : Prop where
  unfinished : r.finished = false
  whole : ∀ f ∈ fs, f.Whole ∧ f.header.rsv < 8
  pings : r.told .ping = Frame.payloads .ping fs
  pongs : r.told .pong = Frame.payloads .pong fs
  chunks : ∀ x ∈ r.reads, ∃ c, x = .chunk c

/-- A reader that has used what was fed to it but for its input. -/
structure Placed (rules : HeaderRules) (fed : Bytes) (fs : List Frame) (r : Reader) : Prop
    extends Kept fs r where
  place : ∃ b, r.Place rules fs b ∧ fed = Frame.rowBytes fs ++ b ++ r.input.bytes

/-- A reader in the middle of a row has found all text sound so far. -/
structure Amid (rules : HeaderRules) (fed : Bytes) (fs : List Frame) (r : Reader) : Prop
    extends Placed rules fed fs r where
  text : r.TextStands

structure Going (rules : HeaderRules) (fed : Bytes) (fs : List Frame) (r : Reader) : Prop
    extends Amid rules fed fs r where
  fault : r.input.fault = none
  ended : r.input.ended = false

/-- A reader that has stopped has handed out the front of what there was for it. Within well-formed
text no read has failed. -/
structure Stopped (all : Traffic) (r : Reader) : Prop where
  finished : r.finished = true
  front : r.taken.Front all
  sound : Mark.TextSound all.marks → ∀ x ∈ r.reads, ∀ err, x ≠ .failed err

/-- A reader deals with what is fed to it as it should, when that is the front of all there is. -/
def Faithful (rules : HeaderRules) (all : Traffic) (fed : Bytes) (r : Reader) : Prop :=
  (∃ fs, r.Going rules fed fs) ∨ r.Stopped all

structure Quiet (r r' : Reader) : Prop where
  reads : r'.reads = r.reads
  controls : r'.controls = r.controls
  reading : r'.reading = r.reading

/-- What a step of a reader that goes on adds to the frames that it has read and to what it has
handed out. It takes no more than `size` bytes of a payload at a time. -/
inductive Adds (size : Nat) (fs : List Frame) (r r' : Reader) : List Frame → Prop where
  | nothing (hq : Quiet r r') (hs : ∀ f, r.stage ≠ .data f) : Adds size fs r r' fs
  | part (f : IncomingFrame) (part piece : Bytes) (hs : r.stage = .data f)
      (hin : InFrame fs f part r) (hl : piece.length = min f.remaining size)
      (hreads : r'.reads = r.reads.push (.chunk (f.next piece)))
      (hcontrols : r'.controls = r.controls) (hs' : r'.stage = f.stageAfter piece)
      (hall : r.reading = some .all → r'.reading = some .all) :
      Adds size fs r r' (fs ++
        if f.remaining - piece.length = 0 then [⟨f.header, part ++ (f.next piece).data⟩] else [])
  | control (f : Frame) (report : ControlReport) (hs : ∀ f, r.stage ≠ .data f)
      (hreads : r'.reads = r.reads) (hcontrols : r'.controls = r.controls.push report)
      (hc : f.control? = some report.frame) (hreading : r'.reading = r.reading) :
      Adds size fs r r' (fs ++ [f])

theorem Adds.noClose {size : Nat} {fs gs : List Frame} {r r' : Reader} (h : Adds size fs r r' gs)
    (hfs : ∀ f ∈ fs, f.header.opcode ≠ .close) : ∀ f ∈ gs, f.header.opcode ≠ .close := by
  have hmore {g : Frame} (hg : g.header.opcode ≠ .close) :
      ∀ f ∈ fs ++ [g], f.header.opcode ≠ .close := by
    intro f hf
    rcases List.mem_append.mp hf with hf | hf
    · exact hfs f hf
    · rwa [List.mem_singleton.mp hf]
  cases h with
  | nothing => exact hfs
  | part f part piece hs hin =>
    split
    · apply hmore
      intro hclose
      have hdata := hin.data
      rw [show f.header.opcode = .close from hclose] at hdata
      cases hdata
    · rwa [List.append_nil]
  | control f report hs hreads hcontrols hc =>
    apply hmore
    intro hclose
    rw [Frame.control?, hclose] at hc
    cases hc

/-- A reader does not hand out the next part, as the text would not be sound with it: `q` is the
reader that has handed it out. -/
inductive Refuses (rules : HeaderRules) (size : Nat) (fed : Bytes) (fs : List Frame)
    (r r' : Reader) : Prop where
  | mk (gs : List Frame) (q : Reader) (c : Chunk) (v : Violation) (hq : q.Placed rules fed gs)
      (ha : Adds size fs r q gs) (hpart : q.reads = r.reads.push (.chunk c))
      (hns : ¬ Mark.TextSound q.received) (hv : v.code = .invalidPayload)
      (hreads : r'.reads = r.reads.push (.failed v.toError))

/-- What becomes of a reader that goes on in one step, when it reads the front of a row. -/
inductive Stepped (rules : HeaderRules) (size : Nat) (ws : List Frame) (fed : Bytes)
    (fs : List Frame) (r r' : Reader) : Prop where
  | going (gs : List Frame) (h : r'.Amid rules fed gs) (ha : Adds size fs r r' gs)
  | refused (hns : ¬ Mark.TextSound (Frame.rowMarks false ws))
      (hs : r'.Stopped (Frame.traffic ws)) (h : Refuses rules size fed fs r r')
  | closed (f : Frame) (hf : f ∈ ws) (hop : f.header.opcode = .close)
      (hstage : r.stage = .control f.header) (hs : r'.Stopped (Frame.traffic ws))

theorem Stepped.faithful {rules : HeaderRules} {size : Nat} {ws fs : List Frame} {fed : Bytes}
    {r r' : Reader} (h : Stepped rules size ws fed fs r r') (hfault : r'.input.fault = none)
    (hended : r'.input.ended = false) : r'.Faithful rules (Frame.traffic ws) fed := by
  cases h with
  | going gs h => exact .inl ⟨gs, h, hfault, hended⟩
  | refused _ hs => exact .inr hs
  | closed _ _ _ _ hs => exact .inr hs

theorem Adds.of_input {size : Nat} {fs gs : List Frame} {r r' : Reader} {i : Input}
    (h : Adds size fs { r with input := i } r' gs) : Adds size fs r r' gs := by
  cases h with
  | nothing hq hs => exact .nothing ⟨hq.reads, hq.controls, hq.reading⟩ hs
  | part f part piece hs hin hl hreads hcontrols hs' hall =>
    exact .part f part piece hs
      ⟨hin.length, hin.announced, hin.rsv, hin.data, hin.kind, hin.received, hin.order⟩ hl
      hreads hcontrols hs' hall
  | control f report hs hreads hcontrols hc hreading =>
    exact .control f report hs hreads hcontrols hc hreading

theorem Stepped.of_input {rules : HeaderRules} {size : Nat} {ws fs : List Frame} {fed : Bytes}
    {r r' : Reader} {i : Input} (h : Stepped rules size ws fed fs { r with input := i } r') :
    Stepped rules size ws fed fs r r' := by
  cases h with
  | going gs hg ha => exact .going gs hg ha.of_input
  | refused hns hs h =>
    obtain ⟨gs, q, c, v, hq, ha, hpart, hunsound, hv, hreads⟩ := h
    exact .refused hns hs ⟨gs, q, c, v, hq, ha.of_input, hpart, hunsound, hv, hreads⟩
  | closed f hf hop hstage hs => exact .closed f hf hop hstage hs

theorem Placed.setText {rules : HeaderRules} {fed : Bytes} {fs : List Frame} {r : Reader}
    (h : r.Placed rules fed fs) (text : Utf8.Validator) : Placed rules fed fs { r with text } := by
  obtain ⟨b, hplace, hb⟩ := h.place
  exact { h with place := ⟨b, hplace.congr rfl rfl rfl, hb⟩ }

theorem Adds.setText {size : Nat} {fs gs : List Frame} {r r' : Reader} (h : Adds size fs r r' gs)
    (text : Utf8.Validator) : Adds size fs r { r' with text } gs := by
  cases h with
  | nothing hq hs => exact .nothing ⟨hq.reads, hq.controls, hq.reading⟩ hs
  | part f part piece hs hin hl hreads hcontrols hs' hall =>
    exact .part f part piece hs hin hl hreads hcontrols hs' hall
  | control f report hs hreads hcontrols hc hreading =>
    exact .control f report hs hreads hcontrols hc hreading

theorem Stopped.mono {a b : Traffic} {r : Reader} (h : r.Stopped a) (hab : a.Front b) :
    r.Stopped b :=
  ⟨h.finished, h.front.trans hab, fun hs => h.sound (hs.of_prefix hab.marks)⟩

theorem Faithful.mono {a b : Traffic} {rules : HeaderRules} {fed : Bytes} {r : Reader}
    (h : r.Faithful rules a fed) (hab : a.Front b) : r.Faithful rules b fed :=
  h.imp_right fun hs => hs.mono hab

section

variable {r r' : Reader}

theorem received_push {x : ReadResult} (h : r'.reads = r.reads.push x) :
    r'.received = r.received ++ x.marks := by
  simp [received, h]

theorem told_push {report : ControlReport} (h : r'.controls = r.controls.push report)
    (op : Opcode) : r'.told op = r.told op ++ (report.frame.payloadOf op).toList := by
  rw [told, told, h, Array.toList_push, List.filterMap_append]
  cases hp : report.frame.payloadOf op <;> simp [hp]

end

variable {rules : HeaderRules} {fed : Bytes} {fs ws : List Frame} {r r' : Reader}

theorem Kept.rest {b x : Bytes} (h : r.Kept fs) (hw : Frame.Offered rules ws)
    (hfed : Frame.rowBytes fs ++ b ++ x <+: Frame.rowBytes ws) :
    ∃ rest tail, ws = fs ++ rest ∧ b ++ x ++ tail = Frame.rowBytes rest := by
  obtain ⟨tail, ht⟩ := hfed
  rw [List.append_assoc, List.append_assoc] at ht
  obtain ⟨rest, hrest, hx⟩ := Frame.row_split h.whole hw.rsv_lt hw.row ht
  exact ⟨rest, tail, hrest, by rw [← hx, List.append_assoc]⟩

theorem Kept.whole_concat {f : Frame} (h : r.Kept fs) (hf : f.Whole) (hrsv : f.header.rsv < 8) :
    ∀ g ∈ fs ++ [f], g.Whole ∧ g.header.rsv < 8 := by
  intro g hg
  rcases List.mem_append.mp hg with hg | hg
  · exact h.whole g hg
  · rw [List.mem_singleton.mp hg]
    exact ⟨hf, hrsv⟩

theorem Kept.next_mem {f : Frame} {x : Bytes} (h : r.Kept fs) (hf : f.Whole)
    (hrsv : f.header.rsv < 8) (hw : Frame.Offered rules ws)
    (hfed : Frame.rowBytes fs ++ f.bytes ++ x <+: Frame.rowBytes ws) : f ∈ ws := by
  obtain ⟨tail, htail⟩ := hfed
  obtain ⟨rest, rfl, -⟩ := Frame.row_split (h.whole_concat hf hrsv) hw.rsv_lt hw.row
    (x := x ++ tail) (by simpa using htail)
  simp

theorem Placed.front (h : r.Placed rules fed fs) (hw : Frame.Offered rules ws)
    (hfed : fed <+: Frame.rowBytes ws) : r.taken.Front (Frame.traffic ws) := by
  obtain ⟨b, hplace, rfl⟩ := h.place
  obtain ⟨rest, tail, rfl, hrest⟩ := h.rest hw hfed
  have hfront := Frame.traffic_front fs rest
  have hmarks : Frame.rowMarks false fs <+: Frame.rowMarks false (fs ++ rest) := hfront.marks
  refine ⟨?_, by rw [show r.taken.pings = _ from h.pings]; exact hfront.pings,
    by rw [show r.taken.pongs = _ from h.pongs]; exact hfront.pongs⟩
  show r.received <+: Frame.rowMarks false (fs ++ rest)
  cases hplace with
  | header p b hs hb hm => rwa [hm]
  | control hd hs hrsv hop hfin hm => rwa [hm]
  | answer payload hs hm => rwa [hm]
  | data f part hs hin =>
    have hle : part.length ≤ f.header.payloadLength.toNat := by
      rw [← hin.announced, hin.length]
      omega
    rw [List.append_assoc] at hrest
    rw [hin.received, hin.kind]
    refine .trans ?_ (hw.marks_of_part hin.rsv hle hin.data hrest)
    rw [← List.append_assoc]
    exact List.prefix_append _ _

/-- The frames read have been handed out. -/
theorem Placed.handed_out (h : r.Placed rules fed fs) : (Frame.traffic fs).Front r.taken := by
  refine ⟨?_, ?_, ?_⟩
  · obtain ⟨b, hplace, -⟩ := h.place
    show Frame.rowMarks false fs <+: r.received
    cases hplace with
    | header p b hs hb hm => exact hm ▸ List.prefix_rfl
    | control hd hs hrsv hop hfin hm => exact hm ▸ List.prefix_rfl
    | answer payload hs hm => exact hm ▸ List.prefix_rfl
    | data f part hs hin =>
      rw [hin.received]
      exact List.prefix_append _ _
  · rw [show r.taken.pings = _ from h.pings]
    exact List.prefix_rfl
  · rw [show r.taken.pongs = _ from h.pongs]
    exact List.prefix_rfl

theorem Kept.stop {all : Traffic} {x : ReadResult} (h : r.Kept fs) (hfront : r.taken.Front all)
    (hfin : r'.finished = true) (hreads : r'.reads = r.reads.push x) (hx : x.marks = [])
    (hping : r'.told .ping = r.told .ping) (hpong : r'.told .pong = r.told .pong)
    (hsound : Mark.TextSound all.marks → ∀ err, x ≠ .failed err) : r'.Stopped all := by
  have htaken : r'.taken = r.taken := by
    rw [taken, received_push hreads, hx, List.append_nil, hping, hpong, taken]
  refine ⟨hfin, by rwa [htaken], ?_⟩
  intro hs y hy err
  rw [hreads, Array.mem_push] at hy
  rcases hy with hy | rfl
  · obtain ⟨c, rfl⟩ := h.chunks y hy
    rintro ⟨⟩
  · exact hsound hs err

theorem Kept.finish {all : Traffic} (h : r.Kept fs) (hfront : r.taken.Front all)
    (hfin : r'.finished = true) (hreads : r'.reads = r.reads.push .ended)
    (hping : r'.told .ping = r.told .ping) (hpong : r'.told .pong = r.told .pong) :
    r'.Stopped all := by
  apply h.stop hfront hfin hreads rfl hping hpong
  intro _ err
  rintro ⟨⟩

section

variable {fs : List Frame} {f : IncomingFrame} {part piece : Bytes} {r : Reader}

theorem InFrame.marks_next (h : InFrame fs f part r) (hle : piece.length ≤ f.remaining) :
    r.received ++ (f.next piece).marks =
      Frame.rowMarks false fs ++ (Mark.bytes f.kind.isBinary (part ++ (f.next piece).data) ++
        if (part ++ (f.next piece).data).length = f.header.payloadLength.toNat then
          [.frameEnd f.header.fin f.kind.isBinary]
        else []) := by
  have hlen : (part ++ (f.next piece).data).length = f.header.payloadLength.toNat ↔
      f.remaining - piece.length = 0 := by
    have := h.announced
    rw [List.length_append, h.length, IncomingFrame.next, length_maskWith]
    omega
  rw [h.received, Chunk.marks, Mark.bytes_append, List.append_assoc, List.append_assoc]
  by_cases hl : f.remaining - piece.length = 0
  · rw [if_pos (hlen.mpr hl), if_pos (by rw [IncomingFrame.next, hl]; rfl)]
    rfl
  · rw [if_neg (mt hlen.mp hl), if_neg (by simpa [IncomingFrame.next] using hl)]
    rfl

theorem InFrame.text_of_binary (h : InFrame fs f part r) (hk : r.Kept fs)
    (hbin : f.kind.isBinary = true) : Mark.text (Frame.rowMarks false fs) = [] := by
  obtain ⟨u, k, hu, hacc⟩ := Sequencing.acceptAll_concat.mp h.order
  apply Frame.text_of_not_text (fun g hg => (hk.whole g hg).1) hu
  intro htext
  cases k with
  | none =>
    have hcontrol := (Sequencing.accept_eq_none hacc).1
    exact absurd (h.data.symm.trans hcontrol) Bool.false_ne_true
  | some k =>
    have hk : k.isBinary = true := by
      rw [Frame.isBinary_of_accept hu hacc, ← h.kind, hbin]
    rcases (Sequencing.accept_eq_some hacc).2.2 with ⟨-, hnone, -⟩ | ⟨-, hsome⟩
    · exact absurd (htext.symm.trans hnone) (by simp)
    · rw [htext] at hsome
      cases hsome
      cases hk

variable {r' : Reader} {c : Chunk} {cursor : Utf8.Cursor}

/-- The validator starts anew with a message: no text is left over where one begins. -/
theorem TextStands.begins {op : Opcode} {fin : Bool} {kind : MessageKind} {t : Sequencing}
    (h : r.TextStands) (hwhole : ∀ f ∈ fs, f.Whole) (hm : r.received = Frame.rowMarks false fs)
    (hq : Sequencing.initial.acceptAll (Frame.order fs) = .ok r.sequencing)
    (hacc : r.sequencing.accept op fin = .ok (some kind, t)) (hdata : op.isData = true)
    (hreads : r'.reads = r.reads) (htext : r'.text = .new) : r'.TextStands := by
  have hnone : r.sequencing.unfinished ≠ some .text := by
    rcases (Sequencing.accept_eq_some hacc).2.2 with ⟨-, hnone, -⟩ | ⟨hcont, -⟩
    · rw [hnone]
      rintro ⟨⟩
    · rw [hcont] at hdata
      cases hdata
  have hreceived : r'.received = r.received := by rw [received, hreads, received]
  refine ⟨hreceived ▸ h.1, .rest, ?_, htext⟩
  rw [hreceived, hm, Frame.text_of_not_text hwhole hq hnone]
  rfl

theorem TextStands.binary (h : r.TextStands) (hnone : Mark.text r.received = [])
    (hbin : c.binary = true) (hreceived : r'.received = r.received ++ c.marks)
    (htext : r'.text = r.text) : r'.TextStands := by
  obtain ⟨hsound, cursor, hrun, hstands⟩ := h
  rw [hnone] at hrun
  have hnext : Mark.text (r.received ++ Mark.bytes c.binary c.data) = [] := by
    rw [Mark.text_bytes, if_pos hbin, hnone]
  refine ⟨?_, cursor, ?_, htext.trans hstands⟩
  · rw [hreceived, Mark.textSound_chunk, hnext]
    exact ⟨hsound, ⟨[], ⟨[], rfl⟩⟩, fun _ => ⟨[], rfl⟩⟩
  · rw [hreceived, Mark.text_chunk, if_pos hbin, hnone, ite_self]
    exact hrun

theorem TextStands.text (h : r.TextStands) (hbin : c.binary = false)
    (hrun : Utf8.Cursor.rest.run (Mark.text r.received ++ c.data) = some cursor)
    (hends : c.completes = true → cursor.seen = [])
    (hreceived : r'.received = r.received ++ c.marks) (htext : r'.text = ⟨cursor.seen⟩) :
    r'.TextStands := by
  have hrest : c.completes = true → cursor = .rest := fun hc =>
    (Utf8.Cursor.Standing.run .between hrun).eq_rest (hends hc)
  have hplain : ¬ c.binary = true := by simp [hbin]
  refine ⟨?_, cursor, ?_, htext⟩
  · rw [hreceived, Mark.textSound_chunk, Mark.text_bytes, if_neg hplain, Utf8.begins_iff_run,
      Utf8.wellFormed_iff_run]
    exact ⟨h.1, ⟨cursor, hrun⟩, fun hc => hrest hc ▸ hrun⟩
  · rw [hreceived, Mark.text_chunk, if_neg hplain]
    split
    · next hc =>
      rw [hrest hc]
      rfl
    · exact hrun

end

end Reader

end WebSocket
