import WebSocket.Proofs.Endpoint.Jobs
import WebSocket.Proofs.Utf8.Prefixes

/-! What a stream of data frames carries, cut into its smallest parts: the bytes of the messages,
and the ends of frames. Parts that are read, frames and jobs that are handed in all come down to
such marks, however the frames are cut. -/

namespace WebSocket

/-- A byte of a message, or the end of a frame, which may be the last one of its message. -/
inductive Mark where
  | byte (b : UInt8) (binary : Bool)
  | frameEnd (last binary : Bool)
  deriving DecidableEq, Repr

def Mark.bytes (binary : Bool) (b : Bytes) : List Mark := b.map (.byte · binary)

@[simp] theorem Mark.bytes_append (binary : Bool) (a b : Bytes) :
    bytes binary (a ++ b) = bytes binary a ++ bytes binary b := List.map_append

@[simp] theorem Mark.bytes_nil (binary : Bool) : bytes binary [] = [] := rfl

def Chunk.marks (c : Chunk) : List Mark :=
  Mark.bytes c.binary c.data ++ if c.lastChunk then [.frameEnd c.lastFrame c.binary] else []

def ReadResult.marks : ReadResult → List Mark
  | chunk c => c.marks
  | ended | failed _ => []

/-- What one application has for another: messages, and the payloads of pings and pongs, each for
itself in order. -/
structure Traffic where
  marks : List Mark
  pings : List Bytes
  pongs : List Bytes
  deriving DecidableEq, Repr

structure Traffic.Front (a b : Traffic) : Prop where
  marks : a.marks <+: b.marks
  pings : a.pings <+: b.pings
  pongs : a.pongs <+: b.pongs

theorem Traffic.Front.trans {a b c : Traffic} (h : a.Front b) (h' : b.Front c) : a.Front c :=
  ⟨h.marks.trans h'.marks, h.pings.trans h'.pings, h.pongs.trans h'.pongs⟩

/-- Whether the message is binary to which a data frame of the given type belongs. -/
def Opcode.binaryAfter (before : Bool) : Opcode → Bool
  | text => false
  | binary => true
  | continuation | close | ping | pong => before

namespace Frame

/-- What a row of frames carries, the message before it being binary or not. -/
def rowMarks : Bool → List Frame → List Mark
  | _, [] => []
  | binary, f :: fs =>
    if f.header.opcode.isControl then rowMarks binary fs
    else
      Mark.bytes (f.header.opcode.binaryAfter binary) f.payload ++
        (if f.Whole then [.frameEnd f.header.fin (f.header.opcode.binaryAfter binary)] else []) ++
        rowMarks (f.header.opcode.binaryAfter binary) fs

def lastBinary (binary : Bool) (fs : List Frame) : Bool :=
  fs.foldl (fun b f => f.header.opcode.binaryAfter b) binary

def payloads (op : Opcode) (fs : List Frame) : List Bytes :=
  (fs.filter (·.header.opcode = op)).map (·.payload)

/-- What a row of frames says to an application. -/
def traffic (fs : List Frame) : Traffic :=
  ⟨rowMarks false fs, payloads .ping fs, payloads .pong fs⟩

theorem payloads_concat (op : Opcode) (fs : List Frame) (f : Frame) :
    payloads op (fs ++ [f]) =
      payloads op fs ++ if f.header.opcode = op then [f.payload] else [] := by
  by_cases h : f.header.opcode = op <;> simp [payloads, h]

theorem binaryAfter_control {op : Opcode} (h : op.isControl = true) (before : Bool) :
    op.binaryAfter before = before := by
  cases op with
  | text | binary => cases h
  | continuation | close | ping | pong => rfl

theorem rowMarks_append (binary : Bool) (fs gs : List Frame) :
    rowMarks binary (fs ++ gs) = rowMarks binary fs ++ rowMarks (lastBinary binary fs) gs := by
  induction fs generalizing binary with
  | nil => rfl
  | cons f fs ih =>
    rw [List.cons_append, rowMarks, rowMarks, lastBinary, List.foldl_cons, ← lastBinary]
    split
    · next hc => rw [ih, binaryAfter_control hc]
    · rw [ih, ← List.append_assoc]

theorem payloads_append (op : Opcode) (fs gs : List Frame) :
    payloads op (fs ++ gs) = payloads op fs ++ payloads op gs := by
  simp [payloads]

theorem traffic_front (fs gs : List Frame) : (traffic fs).Front (traffic (fs ++ gs)) := by
  refine ⟨?_, ?_, ?_⟩
  · show rowMarks false fs <+: rowMarks false (fs ++ gs)
    rw [rowMarks_append]
    exact List.prefix_append _ _
  · show payloads .ping fs <+: payloads .ping (fs ++ gs)
    rw [payloads_append]
    exact List.prefix_append _ _
  · show payloads .pong fs <+: payloads .pong (fs ++ gs)
    rw [payloads_append]
    exact List.prefix_append _ _

theorem lastBinary_concat (binary : Bool) (fs : List Frame) (f : Frame) :
    lastBinary binary (fs ++ [f]) = f.header.opcode.binaryAfter (lastBinary binary fs) := by
  simp [lastBinary]

theorem rowMarks_control {f : Frame} (h : f.header.opcode.isControl = true) (binary : Bool) :
    rowMarks binary [f] = [] := by
  rw [rowMarks, if_pos h, rowMarks]

theorem rowMarks_cons_data {f : Frame} (h : f.header.opcode.isControl = false) (binary : Bool)
    (fs : List Frame) :
    rowMarks binary (f :: fs) =
      Mark.bytes (f.header.opcode.binaryAfter binary) f.payload ++
        (if f.Whole then [.frameEnd f.header.fin (f.header.opcode.binaryAfter binary)] else []) ++
        rowMarks (f.header.opcode.binaryAfter binary) fs := by
  rw [rowMarks, if_neg (by simp [h])]

theorem rowMarks_data {f : Frame} (h : f.header.opcode.isControl = false) (binary : Bool) :
    rowMarks binary [f] = Mark.bytes (f.header.opcode.binaryAfter binary) f.payload ++
      if f.Whole then [.frameEnd f.header.fin (f.header.opcode.binaryAfter binary)] else [] := by
  rw [rowMarks_cons_data h, rowMarks, List.append_nil]

theorem frameEnd_mem_rowMarks {fs : List Frame} {f : Frame} (hf : f ∈ fs) (hw : f.Whole)
    {k : MessageKind} (hop : f.header.opcode = k.opcode) (binary : Bool) :
    .frameEnd f.header.fin k.isBinary ∈ rowMarks binary fs := by
  have hdata : f.header.opcode.isControl = false := by
    rw [hop]
    cases k <;> rfl
  have hkind (before : Bool) : f.header.opcode.binaryAfter before = k.isBinary := by
    rw [hop]
    cases k <;> rfl
  obtain ⟨front, rest, rfl⟩ := List.append_of_mem hf
  rw [rowMarks_append, rowMarks_cons_data hdata, if_pos hw, hkind]
  simp

end Frame

namespace Job

def isData (j : Job) : Bool := j.kind.control?.isNone

def place (now : Bool × Bool) (j : Job) : Bool × Bool :=
  match j.header with
  | some h => (h.opcode.binaryAfter now.1, h.fin)
  | none => now

/-- What data jobs carry. A job that leaves nothing of its frame to come ends the frame. -/
def marks : Bool × Bool → List Job → List Mark
  | _, [] => []
  | now, j :: js =>
    Mark.bytes (j.place now).1 j.data ++
      (if j.owed = 0 then [.frameEnd (j.place now).2 (j.place now).1] else []) ++
      marks (j.place now) js

theorem marks_append (now : Bool × Bool) (js ks : List Job) :
    marks now (js ++ ks) = marks now js ++ marks (js.foldl place now) ks := by
  induction js generalizing now with
  | nil => rfl
  | cons j js ih => rw [List.cons_append, marks, marks, ih, List.foldl_cons, ← List.append_assoc]

theorem marks_mono (now : Bool × Bool) {js ks : List Job} (h : js <+: ks) :
    marks now js <+: marks now ks := by
  obtain ⟨more, rfl⟩ := h
  rw [marks_append]
  exact List.prefix_append _ _

end Job

/-- Frames on the wire carry what the jobs carry that make them up. -/
structure Job.Carried (now : Bool × Bool) (js : List Job) (f : OutgoingFrame) : Prop where
  marks : Frame.rowMarks now.1 (frames js) = Job.marks now (js.filter isData)
  binary : ((js.filter isData).foldl place now).1 = Frame.lastBinary now.1 (frames js)
  fin : f.remaining ≠ 0 →
    (frames js).getLast?.map (·.header.fin) = some ((js.filter isData).foldl place now).2

section

variable {masked : Bool} {fits : Nat → Nat → Prop} {js : List Job} {f : OutgoingFrame}
  {now : Bool × Bool}

theorem Job.Carried.first (hc : Carried now js f) (n : Nat) (fin : Bool) {op : Opcode}
    {len : UInt64} (key : Option Key) {data : Bytes} (hop : op.isControl = false)
    (hlen : data.length ≤ len.toNat) :
    Carried now
      (js ++ [⟨n, .message, some (.plain fin op len key), data, key, 0, len.toNat - data.length,
        false⟩])
      ⟨len.toNat - data.length, data.length, key, !fin⟩ := by
  have hwhole : Frame.Whole ⟨.plain fin op len key, data⟩ ↔ len.toNat - data.length = 0 := by
    show data.length = len.toNat ↔ _
    omega
  refine ⟨?_, ?_, fun _ => ?_⟩ <;>
    rw [frames_concat, addTo_header rfl, List.filter_append]
  · rw [Frame.rowMarks_append, Frame.rowMarks_data hop, hc.marks, ← hc.binary]
    simp only [hwhole]
    show _ = Job.marks now (js.filter isData ++ [_])
    rw [Job.marks_append]
    simp [Job.marks, place, Header.plain]
  · show ((js.filter isData ++ [_]).foldl place now).1 = _
    rw [Frame.lastBinary_concat, ← hc.binary, List.foldl_append]
    rfl
  · show _ = some ((js.filter isData ++ [_]).foldl place now).2
    rw [List.getLast?_append, List.foldl_append]
    rfl

theorem Job.Carried.further (hc : Carried now js f) (hf : Framed masked fits js f) (n : Nat)
    {data : Bytes} (hopen : f.remaining ≠ 0) (hlen : data.length ≤ f.remaining) :
    Carried now
      (js ++ [⟨n, .continuation, none, data, f.mask, f.offset, f.remaining - data.length, false⟩])
      { f with remaining := f.remaining - data.length, offset := f.offset + data.length } := by
  have hends := hf.ends
  obtain ⟨hmarks, hbinary, hfin⟩ := hc
  have hfin := hfin hopen
  generalize hfs : frames js = fs at *
  cases hends with
  | whole h0 => exact absurd h0 hopen
  | @part fs g _ hwhole hdata hmask hoff hsum =>
    -- the mark that ends the frame comes with the part that completes it
    have hpart : ¬ g.Whole := by
      rw [Frame.Whole, hoff]
      omega
    have hend : Frame.Whole { g with payload := g.payload ++ data } ↔
        f.remaining - data.length = 0 := by
      rw [Frame.Whole, List.length_append, hoff]
      show f.offset + data.length = g.header.payloadLength.toNat ↔ _
      omega
    rw [Frame.lastBinary_concat] at hbinary
    rw [List.getLast?_concat, Option.map_some, Option.some.injEq] at hfin
    rw [Frame.rowMarks_append, Frame.rowMarks_data hdata, if_neg hpart, List.append_nil,
      ← hbinary] at hmarks
    refine ⟨?_, ?_, fun _ => ?_⟩ <;>
      rw [frames_concat, hfs, addTo_concat rfl, List.filter_append]
    · have hlast := Frame.rowMarks_data (f := ⟨g.header, g.payload ++ data⟩) hdata
        (Frame.lastBinary now.1 fs)
      rw [Frame.rowMarks_append, hlast]
      show _ = Job.marks now (js.filter isData ++ [_])
      rw [Job.marks_append, ← hmarks]
      simp only [hend, ← hbinary, hfin]
      simp [Job.marks, place]
    · show ((js.filter isData ++ [_]).foldl place now).1 = _
      rw [Frame.lastBinary_concat, ← hbinary, List.foldl_append]
      rfl
    · show _ = some ((js.filter isData ++ [_]).foldl place now).2
      rw [List.getLast?_concat, List.foldl_append, Option.map_some, hfin]
      rfl

theorem Job.Carried.control (hc : Carried now js f) (n : Nat) {kind : JobKind} {op : Opcode}
    (key : Option Key) (data : Bytes) (last : Bool) (hop : kind.control? = some op)
    (hf : f.remaining = 0) :
    Carried now
      (js ++ [⟨n, kind, some (.plain true op data.length.toUInt64 key), data, key, 0, 0, last⟩])
      f := by
  have hctl := JobKind.isControl_of_control? hop
  have hnot : isData ⟨n, kind, some (.plain true op data.length.toUInt64 key), data, key, 0, 0,
      last⟩ = false := by
    rw [isData, hop]
    rfl
  refine ⟨?_, ?_, fun hn => absurd hf hn⟩ <;>
    rw [frames_concat, addTo_header rfl, List.filter_append, List.filter_singleton, hnot]
  · rw [Frame.rowMarks_append, Frame.rowMarks_control hctl, hc.marks]
    simp
  · rw [Frame.lastBinary_concat]
    simpa [Header.plain, Frame.binaryAfter_control hctl] using hc.binary

theorem Laid.carried (h : Laid masked fits js f) (now : Bool × Bool) : Job.Carried now js f := by
  induction h with
  | nil => exact ⟨rfl, rfl, fun h => absurd rfl h⟩
  | @snoc f g js j hs hj hbetween hclose ih =>
    cases hj with
    | first n fin op len key data hdone hop hkey hlen hfits =>
      exact ih.first n fin key hop.not_control hlen
    | further n data hopen hlen => exact ih.further hs.framed n hopen hlen
    | control n kind op key data last hop =>
      refine ih.control n key data last hop (hbetween ?_)
      rintro rfl
      cases hop

theorem Laid.payloads (h : Laid masked fits js f) {k : JobKind} {op : Opcode}
    (hk : k.control? = some op) :
    Frame.payloads op (Job.frames js) = (js.filter (·.kind = k)).map (·.data) := by
  have hctl := JobKind.isControl_of_control? hk
  have hne : ∀ {op' : Opcode}, op'.isControl = false → op' ≠ op := by
    rintro op' h rfl
    exact absurd (h.symm.trans hctl) Bool.false_ne_true
  induction h with
  | nil => rfl
  | @snoc f g js j hs hj hbetween hclose ih =>
    cases hj with
    | first n fin op' len key data hdone hop =>
      have hkind : JobKind.message ≠ k := by
        rintro rfl
        cases hk
      rw [Job.frames_concat, Job.addTo_header rfl, Frame.payloads_concat, ih]
      simp [Header.plain, hkind, hne hop.not_control]
    | further n data hopen hlen =>
      have hkind : JobKind.continuation ≠ k := by
        rintro rfl
        cases hk
      have hends := hs.framed.ends
      generalize hfs : Job.frames js = fs at *
      cases hends with
      | whole h0 => exact absurd h0 hopen
      | @part fs g _ hwhole hdata =>
        rw [Frame.payloads_concat, if_neg (hne hdata), List.append_nil] at ih
        rw [Job.frames_concat, hfs, Job.addTo_concat rfl, Frame.payloads_concat, ih]
        simp [hkind, hne hdata]
    | control n kind op' key data last hop =>
      have hiff : op' = op ↔ kind = k := by
        cases kind <;> cases hop <;> cases k <;> cases hk <;> simp
      rw [Job.frames_concat, Job.addTo_header rfl, Frame.payloads_concat, ih]
      by_cases hkind : kind = k
      · simp [Header.plain, hkind, hiff.mpr hkind]
      · simp [Header.plain, hkind, mt hiff.mp hkind]

end

namespace Mark

/-- What has been read of the text of a message, after one more mark. A binary message has none. -/
def textAfter (before : Bytes) : Mark → Bytes
  | byte b false => before ++ [b]
  | byte _ true | frameEnd false _ => before
  | frameEnd true _ => []

def text (ms : List Mark) : Bytes := ms.foldl textAfter []

/-- The text of every message is well-formed, and that of the message that has not ended is the
front of well-formed text. -/
structure TextSound (ms : List Mark) : Prop where
  ended : ∀ front binary rest, ms = front ++ .frameEnd true binary :: rest →
    Utf8.WellFormed (text front)
  unended : ∃ more, Utf8.WellFormed (text ms ++ more)

theorem text_concat (ms : List Mark) (m : Mark) : text (ms ++ [m]) = m.textAfter (text ms) := by
  simp [text]

theorem text_bytes (ms : List Mark) (binary : Bool) (b : Bytes) :
    text (ms ++ bytes binary b) = if binary then text ms else text ms ++ b := by
  induction b using List.reverseRecOn with
  | nil => simp
  | append_singleton b x ih =>
    rw [bytes_append, ← List.append_assoc, bytes, bytes, List.map_singleton, text_concat, ← bytes,
      ih]
    cases binary <;> simp [textAfter]

theorem text_chunk (ms : List Mark) (c : Chunk) :
    text (ms ++ c.marks) =
      if c.completes then [] else if c.binary then text ms else text ms ++ c.data := by
  obtain ⟨data, lastChunk, lastFrame, binary⟩ := c
  rw [Chunk.marks, ← List.append_assoc]
  cases lastChunk with
  | false =>
    have := text_bytes ms binary data
    simpa [Chunk.completes] using this
  | true =>
    rw [if_pos rfl, text_concat, text_bytes]
    cases lastFrame <;> rfl

theorem TextSound.front {ms more : List Mark} (h : TextSound (ms ++ more)) : TextSound ms := by
  induction more generalizing ms with
  | nil => rwa [List.append_nil] at h
  | cons m more ih =>
    have hm : TextSound (ms ++ [m]) := ih (by rwa [List.append_assoc])
    refine ⟨fun front binary rest he => h.ended front binary (rest ++ m :: more) ?_, ?_⟩
    · rw [he, List.append_assoc, List.cons_append]
    · obtain ⟨tail, ht⟩ := hm.unended
      rw [text_concat] at ht
      cases m with
      | byte b binary =>
        cases binary with
        | false => exact ⟨b :: tail, by simpa [textAfter] using ht⟩
        | true => exact ⟨tail, ht⟩
      | frameEnd last binary =>
        cases last with
        | false => exact ⟨tail, ht⟩
        | true => exact ⟨[], by simpa using hm.ended ms binary [] rfl⟩

theorem TextSound.of_prefix {ms ns : List Mark} (h : TextSound ns) (hp : ms <+: ns) :
    TextSound ms := by
  obtain ⟨more, rfl⟩ := hp
  exact h.front

theorem TextSound.nil : TextSound [] := by
  refine ⟨fun front binary rest he => ?_, ⟨[], ⟨[], rfl⟩⟩⟩
  simp at he

theorem TextSound.concat {ms : List Mark} {m : Mark} (h : TextSound ms)
    (hend : ∀ binary, m = .frameEnd true binary → Utf8.WellFormed (text ms))
    (hmore : ∃ more, Utf8.WellFormed (m.textAfter (text ms) ++ more)) : TextSound (ms ++ [m]) := by
  refine ⟨?_, by rwa [text_concat]⟩
  intro front binary rest he
  induction rest using List.reverseRecOn with
  | nil =>
    obtain ⟨rfl, hm⟩ := List.append_inj' he rfl
    exact hend binary (List.cons.inj hm).1
  | append_singleton rest x =>
    rw [← List.cons_append, ← List.append_assoc] at he
    obtain ⟨hfront, -⟩ := List.append_inj' he rfl
    exact h.ended front binary rest hfront

theorem textSound_bytes {ms : List Mark} {binary : Bool} {b : Bytes} (h : TextSound ms)
    (hmore : Utf8.Begins (text (ms ++ bytes binary b))) : TextSound (ms ++ bytes binary b) := by
  refine ⟨?_, hmore⟩
  intro front binary' rest he
  have hnot : .frameEnd true binary' ∉ bytes binary b := by simp [bytes]
  rcases List.append_eq_append_iff.mp he with ⟨as, rfl, has⟩ | ⟨as, rfl, has⟩
  · exact absurd (by simp [has]) hnot
  · rcases as with - | ⟨m, as⟩
    · rw [List.nil_append] at has
      exact absurd (by simp [← has]) hnot
    · obtain ⟨rfl, -⟩ := List.cons.inj has
      exact h.ended front binary' as rfl

theorem TextSound.message {ms : List Mark} {b : Bytes} (h : TextSound ms) (hnone : text ms = [])
    (hb : Utf8.WellFormed b) : TextSound (ms ++ bytes false b ++ [.frameEnd true false]) := by
  have htext : text (ms ++ bytes false b) = b := by
    rw [text_bytes, hnone]
    rfl
  have hbytes : TextSound (ms ++ bytes false b) := by
    apply textSound_bytes h
    rw [htext]
    exact hb.begins
  apply hbytes.concat
  · intro _ _
    rwa [htext]
  · exact ⟨[], ⟨[], rfl⟩⟩

/-- A part of a message keeps the text sound if the text with it can be gone on with, or is
well-formed where the message ends. -/
theorem textSound_chunk {ms : List Mark} {c : Chunk} : TextSound (ms ++ c.marks) ↔
    TextSound ms ∧ Utf8.Begins (text (ms ++ bytes c.binary c.data)) ∧
      (c.completes = true → Utf8.WellFormed (text (ms ++ bytes c.binary c.data))) := by
  have hmarks : ms ++ c.marks = ms ++ bytes c.binary c.data ++
      if c.lastChunk then [.frameEnd c.lastFrame c.binary] else [] := by
    rw [Chunk.marks, List.append_assoc]
  rw [hmarks]
  constructor
  · intro h
    refine ⟨h.front.front, h.front.unended, fun hc => ?_⟩
    obtain ⟨hchunk, hframe⟩ := Bool.and_eq_true_iff.mp hc
    exact h.ended _ c.binary [] (by rw [hchunk, hframe]; rfl)
  · rintro ⟨h, hmore, hend⟩
    have hbytes := textSound_bytes h hmore
    cases hchunk : c.lastChunk with
    | false => simpa using hbytes
    | true =>
      have hcompletes : c.completes = c.lastFrame := by rw [Chunk.completes, hchunk, Bool.true_and]
      rw [if_pos rfl]
      apply hbytes.concat
      · intro binary hm
        exact hend (hcompletes.trans (Mark.frameEnd.inj hm).1)
      · cases c.lastFrame with
        | false => exact hmore
        | true => exact ⟨[], ⟨[], rfl⟩⟩

end Mark

end WebSocket
