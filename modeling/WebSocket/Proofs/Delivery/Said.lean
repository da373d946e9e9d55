import WebSocket.Proofs.Delivery.Submitted

/-! What an end has been given to say is what the calls say that it has accepted: calls of the
application, calls of its callbacks, and the pongs with which it answers pings. -/

namespace WebSocket

/-- What calls have said so far: the traffic, the kind of the message, whether the frame is its last
one, and how many bytes of the frame are left to come. -/
structure Said where
  traffic : Traffic
  binary : Bool
  fin : Bool
  remaining : Nat
  deriving DecidableEq, Repr

namespace Said

def data (t : Said) (binary fin : Bool) (b : Bytes) (remaining : Nat) : Said where
  traffic :=
    { t.traffic with
      marks := t.traffic.marks ++
        (Mark.bytes binary b ++ if remaining = 0 then [.frameEnd fin binary] else []) }
  binary
  fin
  remaining

/-- What has been said after one more call. The kind of a message is that of its first frame. -/
def after (t : Said) : WriteCall → Said
  | .firstChunk n b last binary =>
    t.data (if t.fin then binary else t.binary) last b (n.toNat - b.length)
  | .message b binary => t.data (if t.fin then binary else t.binary) true b 0
  | .continuation b => t.data t.binary t.fin b (t.remaining - b.length)
  | .ping b => { t with traffic := { t.traffic with pings := t.traffic.pings ++ [b] } }
  | .pong b => { t with traffic := { t.traffic with pongs := t.traffic.pongs ++ [b] } }
  | .close .. => t

def afterAll (t : Said) (cs : List WriteCall) : Said := cs.foldl after t

def nothing : Said := ⟨⟨[], [], []⟩, false, true, 0⟩

theorem afterAll_append (t : Said) (cs ds : List WriteCall) :
    t.afterAll (cs ++ ds) = (t.afterAll cs).afterAll ds := List.foldl_append

end Said

/-- Those of some calls that have been accepted, by the answers to them. -/
def WriteCall.granted (cs : List WriteCall) (answers : List (Except Refusal Nat)) :
    List WriteCall :=
  ((cs.zip answers).filter (·.2.isOk)).map (·.1)

theorem WriteCall.granted_cons (c : WriteCall) (cs : List WriteCall) (r : Except Refusal Nat)
    (rs : List (Except Refusal Nat)) :
    granted (c :: cs) (r :: rs) = granted [c] [r] ++ granted cs rs := by
  cases r <;> rfl

def Job.said (js : List Job) (f : OutgoingFrame) : Said :=
  let now := (js.filter isData).foldl place (false, true)
  ⟨traffic js, now.1, now.2, f.remaining⟩

section

variable {masked : Bool} {fits : Nat → Nat → Prop} {f g : OutgoingFrame} {js : List Job} {j : Job}

theorem Trail.messageOpen {now : Bool × Bool} (h : Trail masked fits f js g)
    (hf : f.messageOpen = !now.2) :
    g.messageOpen = !((js.filter Job.isData).foldl Job.place now).2 := by
  induction h generalizing now with
  | nil => exact hf
  | @cons f g _ j js hj _ ih =>
    rw [List.filter_cons]
    cases hj with
    | first n fin op len key data => exact ih rfl
    | further n data => exact ih hf
    | control n kind op key data last hop =>
      have hnot : Job.isData ⟨n, kind, some (.plain true op data.length.toUInt64 key), data, key, 0,
          0, last⟩ = false := by
        rw [Job.isData, hop]
        rfl
      rw [hnot]
      exact ih hf

theorem Job.filter_concat (js : List Job) (j : Job) (p : Job → Bool) :
    (js ++ [j]).filter p = js.filter p ++ if p j then [j] else [] := by
  rw [List.filter_append, List.filter_singleton]
  cases p j <;> rfl

theorem Job.said_data (h : j.isData = true) (f : OutgoingFrame) (howed : j.owed = g.remaining) :
    said (js ++ [j]) g =
      (said js f).data (j.place ((said js f).binary, (said js f).fin)).1
        (j.place ((said js f).binary, (said js f).fin)).2 j.data g.remaining := by
  have hkind (k : JobKind) (hk : k.control?.isSome = true) : decide (j.kind = k) = false := by
    rw [decide_eq_false_iff_not]
    rintro rfl
    rw [isData, Option.isNone_iff_eq_none] at h
    rw [h] at hk
    simp at hk
  simp only [said, traffic, Job.filter_concat, h, if_true, hkind .ping rfl, hkind .pong rfl,
    Said.data, marks_append, marks, List.foldl_append, List.foldl_cons, List.foldl_nil,
    List.append_nil, howed, Bool.false_eq_true, if_false]

theorem Job.said_control {op : Opcode} (h : j.kind.control? = some op) (f : OutgoingFrame) :
    said (js ++ [j]) f = { said js f with
      traffic := { (said js f).traffic with
        pings := (said js f).traffic.pings ++ if j.kind = .ping then [j.data] else []
        pongs := (said js f).traffic.pongs ++ if j.kind = .pong then [j.data] else [] } } := by
  have hdata : j.isData = false := by rw [isData, h]; rfl
  simp only [said, traffic, Job.filter_concat, hdata, Bool.false_eq_true, if_false, List.append_nil,
    decide_eq_true_eq, List.map_append]
  congr 2 <;> split <;> rfl

theorem Follows.said_opens (h : Follows masked fits f j g) {n : UInt64} {b : Bytes}
    {last binary : Bool} (hj : j.Opens n b last binary)
    (hopen : f.messageOpen = !(Job.said js f).fin) :
    Job.said (js ++ [j]) g = (Job.said js f).data
      (if (Job.said js f).fin then binary else (Job.said js f).binary) last b
      (n.toNat - b.length) := by
  obtain ⟨hk, hd, op, key, hh, hop⟩ := hj
  cases h with
  | further => simp at hk
  | control n kind op key data last hctl =>
    subst hk
    cases hctl
  | first k fin op' len key' data hdone hstarts =>
    cases hh
    subst hd
    rw [Job.said_data rfl f rfl]
    congr 1
    show op.binaryAfter (Job.said js f).binary = _
    unfold OutgoingFrame.Starts at hstarts
    rw [hopen] at hstarts
    cases hfin : (Job.said js f).fin with
    | true =>
      rw [hfin] at hstarts
      rcases hop with rfl | rfl
      · cases hstarts
      · cases binary <;> rfl
    | false =>
      rw [hfin] at hstarts
      rw [show op = .continuation from hstarts]
      rfl

theorem Follows.said_further (h : Follows masked fits f j g) (hk : j.kind = .continuation) :
    Job.said (js ++ [j]) g = (Job.said js f).data (Job.said js f).binary (Job.said js f).fin j.data
      ((Job.said js f).remaining - j.data.length) := by
  cases h with
  | first => cases hk
  | control n kind op key data last hctl =>
    cases hk
    cases hctl
  | further n data =>
    rw [Job.said_data rfl f rfl]
    rfl

theorem Follows.said_control (h : Follows masked fits f j g)
    (hk : j.kind.control?.isSome = true) :
    Job.said (js ++ [j]) g = { Job.said js f with
      traffic := { (Job.said js f).traffic with
        pings := (Job.said js f).traffic.pings ++ if j.kind = .ping then [j.data] else []
        pongs := (Job.said js f).traffic.pongs ++ if j.kind = .pong then [j.data] else [] } } := by
  cases h with
  | first | further => cases hk
  | control n kind op key data last hctl => exact Job.said_control hctl f

/-- The job that comes of a call says what the call does. -/
theorem Follows.said {c : WriteCall} (h : Follows masked fits f j g) (hc : c.Makes j)
    (hopen : f.messageOpen = !(Job.said js f).fin) :
    Job.said (js ++ [j]) g = (Job.said js f).after c := by
  cases c with
  | firstChunk n b last binary => exact h.said_opens hc hopen
  | message b binary =>
    have hnone : b.length.toUInt64.toNat - b.length = 0 := by
      rw [show b.length.toUInt64.toNat = b.length % 2 ^ 64 from UInt64.toNat_ofNat']
      exact Nat.sub_eq_zero_of_le (Nat.mod_le _ _)
    have hwhole := h.said_opens hc hopen
    rw [hnone] at hwhole
    exact hwhole
  | continuation b =>
    obtain ⟨hk, rfl⟩ := hc
    exact h.said_further hk
  | ping b =>
    obtain ⟨hk, rfl⟩ := hc
    rw [h.said_control (by rw [hk]; rfl)]
    simp [Said.after, hk]
  | pong b =>
    obtain ⟨hk, rfl⟩ := hc
    rw [h.said_control (by rw [hk]; rfl)]
    simp [Said.after, hk]
  | close code reason timed =>
    obtain ⟨hk, -⟩ := hc
    rw [h.said_control (by rw [hk]; rfl)]
    simp [Said.after, hk]

end

namespace Endpoint

open WriteCall

variable {ok : Event → Prop} {fits : Nat → Nat → Prop} {makes : Job → Prop} {e e' : Endpoint}
  {past : List Endpoint} {c : WriteCall} {cs : List WriteCall}

/-- What calls have said to the other application through an end. -/
def said (e : Endpoint) : Said := Job.said e.outgoing.handedIn e.outbox.frame

theorem said_congr (hw : e'.writer = e.writer) (ho : e'.outbox = e.outbox) : e'.said = e.said := by
  unfold said Outgoing.handedIn Outgoing.lineUp Outgoing.completions Outgoing.held Outgoing.inHand
    Outgoing.waiting
  rw [ho, show e'.outgoing.writer = e.outgoing.writer from hw,
    show e'.outgoing.outbox = e.outgoing.outbox from ho]

/-! Calls. -/

theorem Entered.said {a : Attempt} (hentered : Entered fits makes e a)
    (hmakes : ∀ j, makes j → c.Makes j) (h : e.Sending fits) (ht : e.OnTrail fits) :
    a.1.said = e.said.afterAll (granted [c] [a.2]) := by
  cases hentered with
  | refused => rfl
  | accepted j f keys timer hj hmade =>
    have hnext : (e.enter j f keys timer).outgoing.handedIn = e.outgoing.handedIn ++ [j] :=
      h.numbered.handedIn_enter hj
    have hopen : e.outbox.frame.messageOpen = !e.said.fin := ht.messageOpen rfl
    rw [Endpoint.said, hnext]
    exact hj.follows.said (hmakes j hmade) hopen

theorem Entered.said_close {a : Attempt} (hentered : Entered fits makes e a)
    (hmakes : ∀ j, makes j → j.kind = .close) (h : e.Sending fits) : a.1.said = e.said := by
  cases hentered with
  | refused => rfl
  | accepted j f keys timer hj hmade =>
    have hk := hmakes j hmade
    have hnext : (e.enter j f keys timer).outgoing.handedIn = e.outgoing.handedIn ++ [j] :=
      h.numbered.handedIn_enter hj
    rw [Endpoint.said, hnext]
    refine (hj.follows.said_control (by rw [hk]; rfl)).trans ?_
    rw [hk, if_neg (by decide), if_neg (by decide), List.append_nil, List.append_nil]
    rfl

theorem said_writeAll (h : e.Sending fits) (ht : e.OnTrail fits) (hcs : ∀ c ∈ cs, c.Within fits) :
    (e.writeAll cs).1.said = e.said.afterAll (granted cs (e.writeAll cs).2) := by
  induction cs generalizing e with
  | nil => rfl
  | cons c cs ih =>
    have hentered := write_entered h (hcs c List.mem_cons_self)
    have hacts := hentered.acts
    have hrest := ih (hacts.sending h) (hacts.reaction.toShift.trail h ht) fun d hd =>
      hcs d (List.mem_cons_of_mem c hd)
    rw [writeAll]
    dsimp only
    rw [hrest, hentered.said (fun _ hm => hm) h ht, granted_cons c cs, Said.afterAll_append]

/-! What the reader does without calls. -/

/-- Nothing is said, and no control frame is reported. -/
structure Wordless (e e' : Endpoint) : Prop where
  said : e'.said = e.said
  controls : e'.reader.controls = e.reader.controls

theorem Wordless.trans {d : Endpoint} (h : Wordless e e') (h' : Wordless e' d) : Wordless e d :=
  ⟨h'.said.trans h.said, h'.controls.trans h.controls⟩

theorem Wordless.endRead (h : Wordless e e') (r : ReadResult) : Wordless e (e'.endRead r) :=
  ⟨h.said, h.controls⟩

theorem Wordless.of_read {r : Reader} (h : Wordless { e with reader := r } e')
    (hr : r.controls = e.reader.controls) : Wordless e e' := ⟨h.said, h.controls.trans hr⟩

theorem Wordless.teardown (e : Endpoint) : Wordless e e.teardown :=
  ⟨said_congr (writer_teardown e) (outbox_teardown e), by rw [reader_teardown]⟩

theorem Wordless.report (e : Endpoint) (err : Error) : Wordless e (e.report err) :=
  ⟨said_congr (writer_report e err) (outbox_report e err), by rw [reader_report]⟩

theorem closeDown_wordless (h : e.Sending fits) (code : CloseCode) (reason : String)
    (hbusy : e.life.closed = false → e.life.closing = true →
      e.outbox.slots.isBusy .close = true) : Wordless e (e.closeDown code reason) := by
  have hsaid := (queueFinalClose_entered h code reason hbusy).said_close (fun _ hj => hj.1) h
  refine ⟨?_, by rw [reader_closeDown]⟩
  unfold closeDown
  split
  · next heq => rwa [heq] at hsaid
  · next heq =>
    rw [heq] at hsaid
    exact (Wordless.teardown _).said.trans hsaid

theorem failRead_wordless (e : Endpoint) (f : Fault) : Wordless e (e.failRead f) :=
  ((Wordless.report e (.fault f)).trans (.teardown _)).endRead _

theorem rejectPeer_wordless (h : e.Sending fits) (v : Violation) :
    Wordless e (e.rejectPeer v) := by
  have hreport := Wordless.report e v.toError
  have hsend : (e.report v.toError).Sending fits := (Acts.report e _).sending h
  unfold rejectPeer
  dsimp only
  split
  · exact (hreport.trans (.teardown _)).endRead _
  · next hcl =>
    have hdown := closeDown_wordless hsend v.code v.reason fun _ hc => absurd hc hcl
    exact (hreport.trans hdown).endRead _

theorem endOfStream_wordless (e : Endpoint) : Wordless e e.endOfStream := by
  unfold endOfStream
  split
  · exact failRead_wordless e _
  · split
    · exact failRead_wordless e _
    · exact (Wordless.teardown e).endRead _

theorem readHeaderPiece_wordless (h : e.Sending fits) (p : HeaderProgress) (piece : Bytes) :
    Wordless e (e.readHeaderPiece p piece) := by
  unfold readHeaderPiece
  split
  · exact rejectPeer_wordless h _
  · exact ⟨rfl, rfl⟩
  · unfold openFrame
    split
    · exact rejectPeer_wordless h _
    · exact ⟨rfl, rfl⟩
    · split
      · exact ⟨rfl, rfl⟩
      · exact rejectPeer_wordless h _

theorem deliverText_wordless (h : e.Sending fits) (c : Chunk) : Wordless e (e.deliverText c) := by
  have hreject (text : Utf8.Validator) (v : Violation) :
      Wordless e ({ e with reader := { e.reader with text } }.rejectPeer v) :=
    (rejectPeer_wordless ((Acts.read e _).sending h) v).of_read rfl
  unfold deliverText
  dsimp only
  split
  · exact hreject _ _
  · split
    · exact hreject _ _
    · exact ⟨rfl, rfl⟩

theorem readData_wordless (h : e.Sending fits) (f : IncomingFrame) (piece : Bytes) :
    Wordless e (e.readData f piece) := by
  have htext (stage : Stage) (c : Chunk) : Wordless e ((e.setStage stage).deliverText c) :=
    (deliverText_wordless ((Acts.read e _).sending h) c).of_read rfl
  unfold readData
  dsimp only
  by_cases hb : f.kind.isBinary = true
  · rw [if_pos hb]
    exact ⟨rfl, rfl⟩
  · rw [if_neg hb]
    exact htext _ _

/-! Steps. -/

/-- The calls that are accepted as the reader goes on: those of the callback, if a control frame is
reported, or the pong that answers a ping. -/
def readerCalls (e e' : Endpoint) : List WriteCall :=
  (e'.reader.controls.toList.drop e.reader.controls.size).flatMap
      (fun c => granted (e.callbacks.onControl.getD []) c.writes) ++
    match e.reader.stage, e'.reader.stage, e'.reader.lastPong with
    | .answer payload, .header _, some _ => [.pong payload]
    | _, _, _ => []

/-- The call that is accepted with an event. -/
def eventCalls : Event → Reply → List WriteCall
  | .write c, .accepted _ => [c]
  | _, _ => []

theorem readerCalls_of_same (hc : e'.reader.controls = e.reader.controls)
    (hs : (∀ payload, e.reader.stage ≠ .answer payload) ∨ e'.reader.stage = e.reader.stage) :
    e.readerCalls e' = [] := by
  have hnone : e'.reader.controls.toList.drop e.reader.controls.size = [] := by
    rw [hc, ← Array.length_toList, List.drop_length]
  rw [readerCalls, hnone]
  cases hstage : e.reader.stage with
  | answer payload =>
    rw [hs.resolve_left (by simp [hstage]), hstage]
    rfl
  | _ => rfl

theorem Wordless.calls (h : Wordless e e')
    (hs : (∀ payload, e.reader.stage ≠ .answer payload) ∨ e'.reader.stage = e.reader.stage) :
    e'.said = e.said.afterAll (e.readerCalls e') := by
  rw [readerCalls_of_same h.controls hs]
  exact h.said

theorem said_of_report {report : ControlReport}
    (hc : e'.reader.controls = e.reader.controls.push report)
    (hs : ∀ payload, e.reader.stage ≠ .answer payload)
    (hsaid : e'.said =
      e.said.afterAll (granted (e.callbacks.onControl.getD []) report.writes)) :
    e'.said = e.said.afterAll (e.readerCalls e') := by
  have hnew : e'.reader.controls.toList.drop e.reader.controls.size = [report] := by
    rw [hc, Array.toList_push, ← Array.length_toList, List.drop_left]
  rw [readerCalls, hnew, List.flatMap_singleton]
  cases hstage : e.reader.stage with
  | answer payload => exact absurd hstage (hs payload)
  | _ => rwa [List.append_nil]

theorem said_notify (h : e.InOrder fits) (ht : e.OnTrail fits) (c : Control) :
    ∃ report : ControlReport, (e.notify c).reader.controls = e.reader.controls.push report ∧
      (e.notify c).said =
        e.said.afterAll (granted (e.callbacks.onControl.getD []) report.writes) := by
  refine ⟨⟨c, (e.writeAll (e.callbacks.onControl.getD [])).2⟩, by simp [notify], ?_⟩
  exact said_writeAll h.sending ht fun d hd => h.calls d (List.mem_append_right _ hd)

theorem said_readControl (h : e.InOrder fits) (ht : e.OnTrail fits)
    (hs : ∀ payload, e.reader.stage ≠ .answer payload) (hd : Header) (piece : Bytes) :
    (e.readControl hd piece).said = e.said.afterAll (e.readerCalls (e.readControl hd piece)) := by
  unfold readControl
  split
  · exact (rejectPeer_wordless h.sending _).calls (.inl hs)
  · exact Wordless.calls ⟨rfl, rfl⟩ (.inl hs)
  · next c _ =>
    obtain ⟨report, hreport, hsaid⟩ := said_notify h ht c
    cases c with
    | close p =>
      unfold handleControl
      dsimp only
      split
      · exact ((Wordless.teardown e).endRead _).calls (.inl hs)
      · next hcl =>
        have hacts : Acts fits e (e.notify (.close p)) := notify_acts h.sending h.calls _
        have hbusy := close_busy_after_notify h.sending hacts.reaction.toShift
          (eq_false_of_ne_true hcl)
        have hdown := closeDown_wordless (hacts.sending h.sending) .goingAway "" hbusy
        exact said_of_report (hdown.controls.trans hreport) hs (hdown.said.trans hsaid)
    | ping payload | pong payload => exact said_of_report hreport hs hsaid

theorem said_answerPing (h : e.InOrder fits) (ht : e.OnTrail fits) {payload : Bytes}
    (hs : e.reader.stage = .answer payload) :
    (e.answerPing payload).said = e.said.afterAll (e.readerCalls (e.answerPing payload)) := by
  have hlen := h.stage
  rw [hs] at hlen
  have hsaid := (queuePong_entered h.sending hlen).said (c := .pong payload) (fun _ hm => hm)
    h.sending ht
  have hcontrols : (e.answerPing payload).reader.controls = e.reader.controls := by
    simp [answerPing]
  rw [readerCalls, hcontrols, ← Array.length_toList, List.drop_length, hs]
  unfold answerPing
  generalize e.queuePong payload = a at hsaid ⊢
  obtain ⟨d, r⟩ := a
  cases r <;> exact hsaid

theorem said_readerStep (h : e.InOrder fits) (ht : e.OnTrail fits)
    (hstep : e.readerStep = some e') : e'.said = e.said.afterAll (e.readerCalls e') := by
  cases (readerStep_cases hstep).2 with
  | leave => exact Wordless.calls ⟨rfl, rfl⟩ (.inr rfl)
  | fail f => exact (failRead_wordless e f).calls (.inr (by simp [endRead]))
  | finish _ hs => exact (endOfStream_wordless e).calls (.inl (by simp [hs]))
  | header p piece rest _ hs =>
    have hpiece : Wordless e ((e.setInput rest).readHeaderPiece p piece) :=
      (readHeaderPiece_wordless ((Acts.read e _).sending h.sending) p piece).of_read rfl
    exact hpiece.calls (.inl (by simp [hs]))
  | data f piece rest _ hs =>
    have hpiece : Wordless e ((e.setInput rest).readData f piece) :=
      (readData_wordless ((Acts.read e _).sending h.sending) f piece).of_read rfl
    exact hpiece.calls (.inl (by simp [hs]))
  | control c piece rest _ hs =>
    exact said_readControl (e := e.setInput rest)
      ⟨(Acts.read e _).sending h.sending, h.stage, h.calls⟩ ht (by simp [setInput, hs]) c piece
  | answer payload _ hs => exact said_answerPing h ht hs

theorem said_writerStep (h : e.Sending fits) (hstep : e.writerStep = some e') :
    e'.said = e.said := by
  have hm : Outgoing.Move e.masks fits e.outgoing e'.outgoing := writerStep_move hstep
  obtain ⟨hframe, hserial, -⟩ := writerStep_calls hstep
  rw [said, said, hframe, (Outgoing.LineMove.of_move h.phased hm).handedIn_eq h.numbered hserial]

theorem said_timerStep (hstep : e.timerStep = some e') : e'.said = e.said := by
  obtain ⟨t, -, -, rfl⟩ := timerStep_cases hstep
  exact (Wordless.teardown _).said

theorem said_accept (h : e.Sending fits) (ht : e.OnTrail fits) (ev : Event)
    (hc : ∀ c, ev = .write c → c.Within fits) :
    (e.accept ev).1.said = e.said.afterAll (eventCalls ev (e.accept ev).2) := by
  cases ev with
  | write c =>
    have hsaid := (write_entered h (hc c rfl)).said (fun _ hm => hm) h ht
    unfold accept
    dsimp only
    split
    · generalize e.write c = a at hsaid
      obtain ⟨d, r⟩ := a
      cases r <;> exact hsaid
    · rfl
  | read m =>
    unfold accept
    dsimp only
    split <;> rfl
  | _ => rfl

/-- A run to an end, and the calls that have been accepted on the way. -/
inductive Called (ok : Event → Prop) : List WriteCall → Endpoint → Prop where
  | start (config : Config) (callbacks : Callbacks) (keys : Nat → Key)
      (quota maxWrite : Option Nat) (hcalls : ∀ c ∈ callbacks.calls, ok (.write c)) :
      Called ok (granted (callbacks.onConnect.getD [])
          ((fresh config callbacks keys (.fresh quota maxWrite)).writeAll
            (callbacks.onConnect.getD [])).2)
        (opened config callbacks keys quota maxWrite)
  | event {cs : List WriteCall} {e : Endpoint} (h : Called ok cs e) (ev : Event) (hev : ok ev) :
      Called ok (cs ++ eventCalls ev (e.accept ev).2) (e.accept ev).1
  | reader {cs : List WriteCall} {e e' : Endpoint} (h : Called ok cs e)
      (hs : e.readerStep = some e') : Called ok (cs ++ e.readerCalls e') e'
  | writer {cs : List WriteCall} {e e' : Endpoint} (h : Called ok cs e)
      (hs : e.writerStep = some e') : Called ok cs e'
  | timer {cs : List WriteCall} {e e' : Endpoint} (h : Called ok cs e)
      (hs : e.timerStep = some e') : Called ok cs e'
  | turn {cs : List WriteCall} {e : Endpoint} (h : Called ok cs e) (t : Turn) :
      Called ok cs (e.giveTurn t)

theorem Called.run (h : Called ok cs e) : ∃ past, Run ok (e :: past) := by
  induction h with
  | start config callbacks keys quota maxWrite hcalls =>
    exact ⟨[], .start config callbacks keys quota maxWrite hcalls⟩
  | event _ ev hev ih => exact ih.elim fun past h => ⟨_, h.step (.event ev hev)⟩
  | reader _ hs ih => exact ih.elim fun past h => ⟨_, h.step (.reader hs)⟩
  | writer _ hs ih => exact ih.elim fun past h => ⟨_, h.step (.writer hs)⟩
  | timer _ hs ih => exact ih.elim fun past h => ⟨_, h.step (.timer hs)⟩
  | turn _ t ih => exact ih.elim fun past h => ⟨_, h.step (.turn _ t)⟩

theorem Run.called (h : Run ok (e :: past)) : ∃ cs, Called ok cs e := by
  generalize hs : e :: past = states at h
  induction h generalizing e past with
  | start config callbacks keys quota maxWrite hcalls =>
    cases hs
    exact ⟨_, .start config callbacks keys quota maxWrite hcalls⟩
  | step _ hstep ih =>
    cases hs
    obtain ⟨cs, h⟩ := ih rfl
    cases hstep with
    | event ev hev => exact ⟨_, h.event ev hev⟩
    | reader hr => exact ⟨_, h.reader hr⟩
    | writer hw => exact ⟨_, h.writer hw⟩
    | timer ht => exact ⟨_, h.timer ht⟩
    | turn t => exact ⟨_, h.turn t⟩

/-- All that is said is said by calls that are accepted. -/
theorem Called.said (h : Called ok cs e) : e.said = Said.nothing.afterAll cs := by
  have hok : ∀ c, ok (.write c) → c.Within fun _ _ => True := fun c _ => c.within_any
  induction h with
  | start config callbacks keys quota maxWrite =>
    have hsend : (fresh config callbacks keys (.fresh quota maxWrite)).Sending fun _ _ => True :=
      initial_sending config callbacks keys quota maxWrite
    exact said_writeAll hsend .nil fun c _ => c.within_any
  | event h ev _ ih =>
    obtain ⟨past, hrun⟩ := h.run
    rw [said_accept (hrun.inOrder hok).sending (hrun.trail hok) ev fun c _ => c.within_any, ih,
      Said.afterAll_append]
  | reader h hs ih =>
    obtain ⟨past, hrun⟩ := h.run
    rw [said_readerStep (hrun.inOrder hok) (hrun.trail hok) hs, ih, Said.afterAll_append]
  | writer h hs ih =>
    obtain ⟨past, hrun⟩ := h.run
    rw [said_writerStep (hrun.inOrder hok).sending hs, ih]
  | timer _ hs ih => rw [said_timerStep hs, ih]
  | turn _ t ih => exact ih

end Endpoint

end WebSocket
