import WebSocket.Proofs.Delivery.Reading
import WebSocket.Proofs.Delivery.Submitted
import WebSocket.Proofs.Endpoint.Driven

/-! Answers to pings. There is one pong on its way at most, and the reader goes on to the next ping
when that has been written. So pongs are handed in for the pings in their order, and each has the
payload of its ping. -/

namespace WebSocket

def WriteCall.NoPong (c : WriteCall) : Prop := ∀ payload, c ≠ .pong payload

def Stage.unanswered : Stage → List Bytes
  | .answer payload => [payload]
  | .header _ | .data _ | .control _ => []

namespace Frame

/-- Filling up the last frame of a row adds nothing to its control frames. -/
theorem payloads_filled {masked : Bool} {fs : List Frame} (h : ∀ f ∈ fs, f.Fit masked fits)
    {op : Opcode} (hop : op.isControl = true) :
    payloads op (fs.map filled) = payloads op fs := by
  induction fs with
  | nil => rfl
  | cons f fs ih =>
    have hrest := ih fun g hg => h g (List.mem_cons_of_mem f hg)
    unfold payloads at hrest ⊢
    rw [List.map_cons, List.filter_cons, List.filter_cons,
      show f.filled.header = f.header from rfl]
    by_cases hf : f.header.opcode = op
    · have hwhole := ((h f List.mem_cons_self).control (hf ▸ hop)).2.1
      rw [if_pos (decide_eq_true hf), if_pos (decide_eq_true hf), List.map_cons, List.map_cons,
        hrest, filled_of_whole hwhole]
    · rw [if_neg (by simpa using hf), if_neg (by simpa using hf), hrest]

theorem payloads_prefix {fs gs : List Frame} (h : fs <+: gs) (op : Opcode) :
    payloads op fs <+: payloads op gs :=
  (h.filter _).map _

/-- The whole frames at the front of those that jobs make up have all control frames among them. -/
theorem EndsAt.whole_front {f : OutgoingFrame} {fs : List Frame} (h : EndsAt f fs)
    (op : Opcode) (hop : op.isControl = true) :
    ∃ gs rest, rowBytes fs = rowBytes gs ++ rest ∧ (∀ g ∈ gs, g.Whole) ∧ gs <+: fs ∧
      payloads op gs = payloads op fs := by
  cases h with
  | whole hf hs => exact ⟨fs, [], (List.append_nil _).symm, hs, List.prefix_rfl, rfl⟩
  | @part fs g hf hs hdata =>
    refine ⟨fs, g.bytes, by simp, hs, List.prefix_append _ _, ?_⟩
    have hne : g.header.opcode ≠ op := by
      rintro rfl
      exact absurd (hdata.symm.trans hop) Bool.false_ne_true
    rw [payloads_concat, if_neg hne, List.append_nil]

end Frame

namespace Endpoint

/-- The payloads of the pongs that are whole on the wire. -/
def pongsOnWire (e : Endpoint) : List Bytes :=
  Frame.payloads .pong (Frame.parseAll e.transport.wire.toList)

/-- The pongs handed in answer the pings taken, the first of them at least. -/
structure Answers (e : Endpoint) : Prop where
  silent : ∀ c ∈ e.callbacks.calls, c.NoPong
  front : e.submitted.pongs <+: e.reader.told .ping
  /-- All pings but the last have been answered while this end is not closing. -/
  all : e.life.closing = false →
    e.submitted.pongs ++ e.reader.stage.unanswered = e.reader.told .ping
  last : ∀ j ∈ e.outgoing.held, j.kind = .pong → e.reader.lastPong = some j.serial

structure Pongless (e e' : Endpoint) : Prop where
  pongs : e'.submitted.pongs = e.submitted.pongs
  held : ∀ j ∈ e'.outgoing.held, j.kind = .pong → j ∈ e.outgoing.held
  closing : e'.life.closing = false → e.life.closing = false
  callbacks : e'.callbacks = e.callbacks

/-- The pings taken are still to be answered. -/
structure Asks (r r' : Reader) : Prop where
  pings : ∃ new, r'.told .ping = r.told .ping ++ new ∧
    r'.stage.unanswered = r.stage.unanswered ++ new
  lastPong : r'.lastPong = r.lastPong

variable {ok : Event → Prop} {fits : Nat → Nat → Prop} {e e' d : Endpoint} {past : List Endpoint}

theorem Answers.pongless (h : Answers e) (hq : Pongless e e') (ha : Asks e.reader e'.reader) :
    Answers e' := by
  obtain ⟨new, htold, hunanswered⟩ := ha.pings
  refine ⟨hq.callbacks ▸ h.silent, ?_, fun hcl => ?_, fun j hj hk => ?_⟩
  · rw [hq.pongs, htold]
    exact h.front.trans (List.prefix_append _ _)
  · rw [hq.pongs, htold, hunanswered, ← List.append_assoc, h.all (hq.closing hcl)]
  · exact ha.lastPong.trans (h.last j (hq.held j hj hk) hk)

theorem Asks.refl (r : Reader) : Asks r r :=
  ⟨⟨[], (List.append_nil _).symm, (List.append_nil _).symm⟩, rfl⟩

theorem Asks.of_same {r r' : Reader} (hc : r'.controls = r.controls) (hs : r'.stage = r.stage)
    (hl : r'.lastPong = r.lastPong) : Asks r r' := by
  refine ⟨⟨[], ?_, ?_⟩, hl⟩
  · rw [Reader.told, Reader.told, hc, List.append_nil]
  · rw [hs, List.append_nil]

theorem Shift.pongless (hs : Shift fits e e') (h : e.Sending fits)
    (hgains : Gains (·.kind ≠ .pong) e e') : Pongless e e' := by
  have hnew : ∀ j ∈ e'.outbox.queue, j.kind = .pong → j ∈ e.outbox.queue := fun j hj hk =>
    (hgains j hj).resolve_right fun hne => hne hk
  refine ⟨?_, ?_, hs.closing, hs.callbacks⟩
  · obtain ⟨more, hmore⟩ := hs.handedIn_mono h
    have hnone : more.filter (·.kind = .pong) = [] := by
      apply List.filter_eq_nil_iff.mpr
      intro j hj
      rw [decide_eq_true_eq]
      intro hk
      have hold : j ∈ e.outgoing.handedIn := by
        apply (Outgoing.handedIn_perm e.outgoing).mem_iff.mpr
        have hline := (Outgoing.handedIn_perm e'.outgoing).mem_iff.mp
          (hmore ▸ List.mem_append_right _ hj)
        rcases hs.mem_lineUp hline with hline | hqueue
        · exact hline
        · exact Outgoing.mem_lineUp_of_held (Outgoing.mem_held_of_queue (hnew j hqueue hk))
      have hsorted : e'.outgoing.handedIn.Pairwise fun a b => a.serial < b.serial :=
        Outgoing.Numbered.handedIn_pairwise (h.shift hs).numbered
      rw [← hmore] at hsorted
      exact absurd ((List.pairwise_append.mp hsorted).2.2 j hold j hj) (Nat.lt_irrefl _)
    show ((e'.outgoing.handedIn).filter _).map _ = ((e.outgoing.handedIn).filter _).map _
    rw [← hmore, List.filter_append, hnone, List.append_nil]
  · intro j hj hk
    rw [Outgoing.held, Outgoing.waiting, hs.inHand_eq,
      show e'.outgoing.writer = e.outgoing.writer from hs.writer] at hj
    rw [Outgoing.held, Outgoing.waiting]
    simp only [List.mem_append] at hj ⊢
    exact hj.imp_right fun hj => hj.imp_right fun hj => hnew j hj hk

theorem pongless_writerStep (h : e.Sending fits) (hstep : e.writerStep = some e') :
    Pongless e e' := by
  have hm : Outgoing.Move e.masks fits e.outgoing e'.outgoing := writerStep_move hstep
  have hline := Outgoing.LineMove.of_move h.phased hm
  obtain ⟨-, hserial, hclosing⟩ := writerStep_calls hstep
  refine ⟨?_, ?_, hclosing ▸ id, (writerStep_settings hstep).2.1⟩
  · exact congrArg (fun js => (Job.traffic js).pongs) (hline.handedIn_eq h.numbered hserial)
  · obtain ⟨cs, hcs⟩ := hm.completions_prefix
    have hperm := h.phased.held_perm hm hserial cs hcs.symm
    exact fun j hj _ => hperm.symm.subset (List.mem_append_right _ hj)

/-! What the reader hands in when it does not answer a ping. -/

section

variable {P : Job → Prop}

theorem closeDown_gains (h : e.Sending fits) (code : CloseCode) (reason : String)
    (hbusy : e.life.closed = false → e.life.closing = true →
      e.outbox.slots.isBusy .close = true) (hclose : ∀ j, j.kind = .close → j.last = true → P j) :
    Gains P e (e.closeDown code reason) := by
  have hentered := queueFinalClose_entered h code reason hbusy
  have hgains := hentered.gains (P := P) fun _ _ j _ hj => hclose j hj.1 hj.2.1
  unfold closeDown
  split
  · next heq => rwa [heq] at hgains
  · next heq =>
    rw [heq] at hgains
    exact hgains.trans (.of_same (by rw [outbox_teardown]))

theorem rejectPeer_gains (h : e.Sending fits) (v : Violation)
    (hclose : ∀ j, j.kind = .close → j.last = true → P j) : Gains P e (e.rejectPeer v) := by
  have hreport : Gains P e (e.report v.toError) := .of_same (by rw [outbox_report])
  have hsend : (e.report v.toError).Sending fits := (Acts.report e _).sending h
  unfold rejectPeer
  dsimp only
  split
  · exact hreport.trans (.of_same (by rw [endRead, outbox_teardown]))
  · next hcl => exact hreport.trans (closeDown_gains hsend _ _ (fun _ hc => absurd hc hcl) hclose)

theorem readHeaderPiece_gains (h : e.Sending fits) (p : HeaderProgress) (piece : Bytes)
    (hclose : ∀ j, j.kind = .close → j.last = true → P j) :
    Gains P e (e.readHeaderPiece p piece) := by
  unfold readHeaderPiece
  split
  · exact rejectPeer_gains h _ hclose
  · exact .of_same rfl
  · unfold openFrame
    split
    · exact rejectPeer_gains h _ hclose
    · exact .of_same rfl
    · split
      · exact .of_same rfl
      · exact rejectPeer_gains h _ hclose

theorem deliverText_gains (h : e.Sending fits) (c : Chunk)
    (hclose : ∀ j, j.kind = .close → j.last = true → P j) : Gains P e (e.deliverText c) := by
  have hreject : ∀ r v, Gains P e ({ e with reader := r }.rejectPeer v) := fun r v =>
    rejectPeer_gains (e := { e with reader := r }) ((Acts.read e r).sending h) v hclose
  unfold deliverText
  dsimp only
  split
  · exact hreject _ _
  · split
    · exact hreject _ _
    · exact .of_same rfl

theorem readData_gains (h : e.Sending fits) (f : IncomingFrame) (piece : Bytes)
    (hclose : ∀ j, j.kind = .close → j.last = true → P j) : Gains P e (e.readData f piece) := by
  have htext : ∀ stage c, Gains P e ((e.setStage stage).deliverText c) := fun stage c =>
    deliverText_gains (e := e.setStage stage) ((Acts.read e _).sending h) c hclose
  unfold readData
  dsimp only
  by_cases hb : f.kind.isBinary = true
  · rw [if_pos hb]
    exact .of_same rfl
  · rw [if_neg hb]
    exact htext _ _

theorem notify_gains (h : e.Sending fits) (hcalls : ∀ c ∈ e.callbacks.calls, c.Within fits)
    (hP : ∀ c ∈ e.callbacks.calls, ∀ masked f g j, Follows masked fits f j g → c.Makes j → P j)
    (c : Control) : Gains P e (e.notify c) :=
  writeAll_gains h (e.callbacks.onControl.getD [])
    (fun c hc => hcalls c (List.mem_append_right _ hc))
    fun c hc => hP c (List.mem_append_right _ hc)

theorem readControl_gains (h : e.Sending fits) (hcalls : ∀ c ∈ e.callbacks.calls, c.Within fits)
    (hP : ∀ c ∈ e.callbacks.calls, ∀ masked f g j, Follows masked fits f j g → c.Makes j → P j)
    (hclose : ∀ j, j.kind = .close → j.last = true → P j) (hd : Header) (piece : Bytes) :
    Gains P e (e.readControl hd piece) := by
  unfold readControl
  split
  · exact rejectPeer_gains h _ hclose
  · exact .of_same rfl
  · next c _ =>
    have hnote : Gains P e (e.notify c) := notify_gains h hcalls hP c
    cases c with
    | close p =>
      unfold handleControl
      dsimp only
      split
      · exact .of_same (by rw [endRead, outbox_teardown])
      · next hcl =>
        have hacts : Acts fits e (e.notify (.close p)) := notify_acts h hcalls _
        have hbusy := close_busy_after_notify h hacts.reaction.toShift (eq_false_of_ne_true hcl)
        exact hnote.trans (closeDown_gains (hacts.sending h) _ _ hbusy hclose)
    | ping payload => exact hnote
    | pong payload => exact hnote

/-- A step of the reader hands in the calls of callbacks and close frames, or answers a ping. -/
theorem readerStep_gains (h : e.Sending fits) (hcalls : ∀ c ∈ e.callbacks.calls, c.Within fits)
    (hP : ∀ c ∈ e.callbacks.calls, ∀ masked f g j, Follows masked fits f j g → c.Makes j → P j)
    (hclose : ∀ j, j.kind = .close → j.last = true → P j) (hstep : e.readerStep = some e')
    (hnot : ∀ payload, e.Listens → e.reader.stage = .answer payload → e.pongOutstanding = false →
      e' ≠ e.answerPing payload) : Gains P e e' := by
  have hinput : ∀ rest, (e.setInput rest).Sending fits := fun rest => (Acts.read e _).sending h
  cases (readerStep_cases hstep).2 with
  | leave => exact .of_same rfl
  | fail f => exact .of_same (by rw [failRead, endRead, outbox_teardown, outbox_report])
  | finish =>
    unfold endOfStream
    split
    · exact .of_same (by rw [failRead, endRead, outbox_teardown, outbox_report])
    · split
      · exact .of_same (by rw [failRead, endRead, outbox_teardown, outbox_report])
      · exact .of_same (by rw [endRead, outbox_teardown])
  | header p piece rest => exact readHeaderPiece_gains (hinput rest) p piece hclose
  | data f piece rest => exact readData_gains (hinput rest) f piece hclose
  | control c piece rest => exact readControl_gains (hinput rest) hcalls hP hclose c piece
  | answer payload hopen hs hp => exact absurd rfl (hnot payload hopen hs hp)

theorem readerStep_gains_all (h : e.InOrder fits)
    (hP : ∀ c ∈ e.callbacks.calls, ∀ masked f g j, Follows masked fits f j g → c.Makes j → P j)
    (hclose : ∀ j, j.kind = .close → j.last = true → P j) (hpong : ∀ j, j.kind = .pong → P j)
    (hstep : e.readerStep = some e') : Gains P e e' := by
  by_cases hanswer : ∃ payload, e.reader.stage = .answer payload ∧ e' = e.answerPing payload
  · obtain ⟨payload, hs, rfl⟩ := hanswer
    have hlen := h.stage
    rw [hs] at hlen
    exact (queuePong_entered h.sending hlen).gains fun _ _ j _ hj => hpong j hj.1
  · exact readerStep_gains h.sending h.calls hP hclose hstep fun payload _ hs _ hd =>
      hanswer ⟨payload, hs, hd⟩

end

/-! What becomes of the pings taken. -/

theorem Asks.of_none {r r' : Reader} (hc : r'.controls = r.controls)
    (hs : r.stage.unanswered = []) (hs' : r'.stage.unanswered = [])
    (hl : r'.lastPong = r.lastPong) : Asks r r' := by
  refine ⟨⟨[], ?_, ?_⟩, hl⟩
  · rw [Reader.told, Reader.told, hc, List.append_nil]
  · rw [hs, hs', List.append_nil]

theorem rejectPeer_asks (d : Endpoint) (v : Violation) : Asks d.reader (d.rejectPeer v).reader := by
  rw [reader_rejectPeer]
  exact .of_same rfl rfl rfl

theorem readHeaderPiece_asks (hs : e.reader.stage.unanswered = []) (p : HeaderProgress)
    (piece : Bytes) : Asks e.reader (e.readHeaderPiece p piece).reader := by
  unfold readHeaderPiece
  split
  · exact rejectPeer_asks e _
  · exact .of_none rfl hs rfl rfl
  · unfold openFrame
    split
    · exact rejectPeer_asks e _
    · exact .of_none rfl hs rfl rfl
    · split
      · exact .of_none rfl hs rfl rfl
      · exact rejectPeer_asks e _

theorem deliverText_asks (e : Endpoint) (c : Chunk) : Asks e.reader (e.deliverText c).reader := by
  have hreject : ∀ text v, Asks e.reader
      ({ e with reader := { e.reader with text } }.rejectPeer v).reader := by
    intro text v
    rw [reader_rejectPeer]
    exact .of_same rfl rfl rfl
  unfold deliverText
  dsimp only
  split
  · exact hreject _ _
  · split
    · exact hreject _ _
    · exact .of_same rfl rfl rfl

theorem readData_asks (hs : e.reader.stage.unanswered = []) (f : IncomingFrame) (piece : Bytes) :
    Asks e.reader (e.readData f piece).reader := by
  have hstage : ∀ b g, (if b = true then Stage.header .start else .data g).unanswered = [] := by
    intro b g
    split <;> rfl
  have htext : ∀ stage c, stage.unanswered = [] →
      Asks e.reader ((e.setStage stage).deliverText c).reader := by
    intro stage c hnone
    obtain ⟨⟨new, htold, hnew⟩, hlast⟩ := deliverText_asks (e.setStage stage) c
    refine ⟨⟨new, htold, hnew.trans ?_⟩, hlast⟩
    rw [hs, show (e.setStage stage).reader.stage.unanswered = [] from hnone]
  unfold readData
  dsimp only
  by_cases hb : f.kind.isBinary = true
  · rw [if_pos hb]
    exact .of_none rfl hs (hstage _ _) rfl
  · rw [if_neg hb]
    exact htext _ _ (hstage _ _)

theorem notify_asks (e : Endpoint) (c : Control) {r : Reader}
    (hc : r.controls = (e.notify c).reader.controls)
    (hl : r.lastPong = (e.notify c).reader.lastPong)
    (hstage : r.stage.unanswered = e.reader.stage.unanswered ++ (c.payloadOf .ping).toList) :
    Asks e.reader r := by
  obtain ⟨report, rfl, hr⟩ := reader_notify e c
  rw [hr] at hc hl
  exact ⟨⟨_, Reader.told_push hc .ping, hstage⟩, hl⟩

theorem readControl_asks (hs : e.reader.stage.unanswered = []) (hd : Header) (piece : Bytes) :
    Asks e.reader (e.readControl hd piece).reader := by
  unfold readControl
  split
  · exact rejectPeer_asks e _
  · exact .of_none rfl hs rfl rfl
  · next c _ =>
    cases c with
    | close p =>
      unfold handleControl
      dsimp only
      split
      · rw [endRead, reader_teardown]
        exact .of_same rfl rfl rfl
      · rw [endRead, reader_closeDown]
        refine notify_asks e (.close p) rfl rfl ?_
        show (e.notify (.close p)).reader.stage.unanswered = _ ++ []
        obtain ⟨report, -, hr⟩ := reader_notify e (.close p)
        rw [hr, List.append_nil]
    | ping payload => exact notify_asks e (.ping payload) rfl rfl (by rw [hs]; rfl)
    | pong payload => exact notify_asks e (.pong payload) rfl rfl (by rw [hs]; rfl)

theorem readerStep_asks (hstep : e.readerStep = some e')
    (hnot : ∀ payload, e.Listens → e.reader.stage = .answer payload → e.pongOutstanding = false →
      e' ≠ e.answerPing payload) : Asks e.reader e'.reader := by
  have hinput : ∀ rest {r}, Asks (e.setInput rest).reader r → Asks e.reader r := fun _ _ h =>
    ⟨h.pings, h.lastPong⟩
  cases (readerStep_cases hstep).2 with
  | leave => exact .of_same rfl rfl rfl
  | fail f => exact reader_failRead e f ▸ .of_same rfl rfl rfl
  | finish =>
    unfold endOfStream
    split
    · exact reader_failRead e _ ▸ .of_same rfl rfl rfl
    · split
      · exact reader_failRead e _ ▸ .of_same rfl rfl rfl
      · rw [endRead, reader_teardown]
        exact .of_same rfl rfl rfl
  | header p piece rest _ hs =>
    exact hinput rest
      (readHeaderPiece_asks (e := e.setInput rest) (congrArg Stage.unanswered hs) p piece)
  | data f piece rest _ hs =>
    exact hinput rest
      (readData_asks (e := e.setInput rest) (congrArg Stage.unanswered hs) f piece)
  | control c piece rest _ hs =>
    exact hinput rest
      (readControl_asks (e := e.setInput rest) (congrArg Stage.unanswered hs) c piece)
  | answer payload hopen hs hp => exact absurd rfl (hnot payload hopen hs hp)

/-! Answering a ping. -/

/-- The pong before has been written when the next ping is answered. -/
theorem Answers.free (h : Answers e) (hp : e.pongOutstanding = false) :
    ∀ j ∈ e.outgoing.held, j.kind ≠ .pong := by
  intro j hj hk
  rw [pongOutstanding, h.last j hj hk, Option.any_some, isOutstanding_iff.mpr ⟨j, hj, rfl⟩] at hp
  cases hp

theorem Answers.ready (h : Answers e) (hsend : e.Sending fits) (hopen : e.life.closed = false)
    (hp : e.pongOutstanding = false) : e.Ready .pong := by
  refine hsend.ready hopen ?_
  rw [← Bool.not_eq_true]
  intro hbusy
  obtain ⟨j, hj, hk⟩ := List.mem_map.mp ((hsend.slotted.busy .pong).mp hbusy)
  exact h.free hp j hj hk

theorem queuePong_eq (h : e.Ready .pong) (hcl : e.life.closing = false) (payload : Bytes) :
    ∃ key keys, key.isSome = e.masks ∧ e.queuePong payload =
      ({ e with
          outbox :=
            e.outbox.enter (.control e.outbox.nextSerial .pong .pong payload key false)
              e.outbox.frame keys },
        .ok e.outbox.nextSerial) := by
  obtain ⟨key, keys, hkey, hjob⟩ := enqueueControl_eq h .pong payload false e.life
  refine ⟨key, keys, hkey, ?_⟩
  unfold queuePong
  rw [unwritable, if_neg (by simp [h.opened]), if_neg (by simp [hcl])]
  dsimp only
  rw [if_neg (by simp [h.free])]
  exact hjob

theorem Answers.answer (h : Answers e) (hsend : e.Sending fits) (hopen : e.Listens)
    {payload : Bytes} (hs : e.reader.stage = .answer payload)
    (hlen : payload.length ≤ maxControlPayload) (hp : e.pongOutstanding = false) :
    Answers (e.answerPing payload) := by
  -- the answer is not refused for its slot, as no pong is outstanding
  have hfree := h.free hp
  have hentered := queuePong_entered hsend hlen
  have haccepted : e.life.closing = false → ∃ n, (e.queuePong payload).2 = .ok n := by
    intro hcl
    obtain ⟨key, keys, -, heq⟩ := queuePong_eq (h.ready hsend hopen.2 hp) hcl payload
    exact ⟨_, congrArg Prod.snd heq⟩
  unfold answerPing
  generalize e.queuePong payload = a at hentered haccepted ⊢
  cases hentered with
  | refused r =>
    refine ⟨h.silent, h.front, fun hcl => ?_, fun j hj hk => absurd hk (hfree j hj)⟩
    obtain ⟨n, hn⟩ := haccepted hcl
    cases hn
  | accepted j f keys timer hj hmakes =>
    have hpongs : (e.enter j f keys timer).submitted.pongs = e.submitted.pongs ++ [payload] := by
      have hnext : (e.enter j f keys timer).outgoing.handedIn = e.outgoing.handedIn ++ [j] :=
        hsend.numbered.handedIn_enter hj
      rw [submitted, hnext]
      simp [Job.traffic, submitted, hmakes.1, hmakes.2]
    have hcl : e.life.closing = false := by
      rw [← Bool.not_eq_true]
      intro hc
      exact absurd (hmakes.1.symm.trans (hj.closing hc)) (by simp)
    have hall := h.all hcl
    rw [hs] at hall
    refine ⟨h.silent, ?_, fun _ => ?_, fun i hi hk => ?_⟩
    · exact (hpongs.trans hall) ▸ List.prefix_rfl
    · exact (List.append_nil _).trans (hpongs.trans hall)
    · have hi : i ∈ (e.enter j f keys timer).outgoing.held := hi
      rw [show (e.enter j f keys timer).outgoing.held = e.outgoing.held ++ [j] from
        Outgoing.held_enter e.outgoing j f keys _] at hi
      rcases List.mem_append.mp hi with hi | hi
      · exact absurd hk (hfree i hi)
      · rw [List.mem_singleton.mp hi]
        rfl

/-! What a run keeps. -/

theorem kind_ne_pong {c : WriteCall} (h : c.NoPong) {j : Job} (hj : c.Makes j) :
    j.kind ≠ .pong := by
  cases c with
  | pong payload => exact absurd rfl (h payload)
  | _ => exact fun hk => absurd (hk.symm.trans hj.1) (by simp)

theorem asks_accept (e : Endpoint) (ev : Event) : Asks e.reader (e.accept ev).1.reader := by
  cases ev with
  | write c =>
    rw [fst_accept_write]
    split
    · rw [reader_write]
      exact .refl _
    · exact .refl _
  | read m =>
    unfold accept
    dsimp only
    split
    · exact .of_same rfl rfl rfl
    · exact .refl _
  | _ => exact .of_same rfl rfl rfl

theorem gains_accept (h : e.Sending fits) {ev : Event}
    (hev : ∀ c, ev = .write c → c.Within fits ∧ c.NoPong) :
    Gains (·.kind ≠ .pong) e (e.accept ev).1 := by
  cases ev with
  | write c =>
    rw [fst_accept_write]
    split
    · obtain ⟨hc, hno⟩ := hev c rfl
      exact (write_entered h hc).gains fun _ _ _ _ hj => kind_ne_pong hno hj
    · exact .of_same rfl
  | read m =>
    unfold accept
    dsimp only
    split <;> exact .of_same rfl
  | _ => exact .of_same rfl

theorem Answers.step (h : Answers e) (hin : e.InOrder fits)
    (hok : ∀ c, ok (.write c) → c.Within fits ∧ c.NoPong) (hs : Step ok e e') : Answers e' := by
  have hsend := hin.sending
  cases hs with
  | event ev hev =>
    have hev : ∀ c, ev = .write c → c.Within fits ∧ c.NoPong := fun c hc => hok c (hc ▸ hev)
    have hshift := accept_shift hsend fun c hc => (hev c hc).1
    exact h.pongless (hshift.pongless hsend (gains_accept hsend hev)) (asks_accept e ev)
  | reader hr =>
    -- only the step that answers a ping hands in a pong
    by_cases hanswer : ∃ payload, e.Listens ∧ e.reader.stage = .answer payload ∧
        e.pongOutstanding = false ∧ e' = e.answerPing payload
    · obtain ⟨payload, hopen, hstage, hp, rfl⟩ := hanswer
      have hlen := hin.stage
      rw [hstage] at hlen
      exact h.answer hsend hopen hstage hlen hp
    · have hnot : ∀ payload, e.Listens → e.reader.stage = .answer payload →
          e.pongOutstanding = false → e' ≠ e.answerPing payload :=
        fun payload hopen hstage hp he => hanswer ⟨payload, hopen, hstage, hp, he⟩
      have hgains : Gains (·.kind ≠ .pong) e e' := readerStep_gains hsend hin.calls
        (fun c hc _ _ _ _ _ hj => kind_ne_pong (h.silent c hc) hj) (fun j hk _ => by simp [hk])
        hr hnot
      have hshift := (readerStep_acts hsend hin.stage hin.calls hr).reaction.toShift
      exact h.pongless (hshift.pongless hsend hgains) (readerStep_asks hr hnot)
  | writer hw =>
    refine h.pongless (pongless_writerStep hsend hw) ?_
    rw [(sendingWork_writerStep hw).1]
    exact .refl _
  | timer ht =>
    have hreaction : Reaction fits e e' := timerStep_reaction ht
    have hsame : e'.outbox.queue = e.outbox.queue := by
      obtain ⟨t, -, -, rfl⟩ := timerStep_cases ht
      rw [outbox_teardown]
    refine h.pongless (hreaction.toShift.pongless hsend (.of_same hsame)) ?_
    rw [(sendingWork_timerStep ht).1]
    exact .refl _
  | turn t => exact ⟨h.silent, h.front, h.all, h.last⟩

theorem Answers.opened (config : Config) (callbacks : Callbacks) (keys : Nat → Key)
    (quota maxWrite : Option Nat) (hcalls : ∀ c ∈ callbacks.calls, c.Within fits ∧ c.NoPong) :
    Answers (opened config callbacks keys quota maxWrite) := by
  have hsend : (fresh config callbacks keys (.fresh quota maxWrite)).Sending fits :=
    initial_sending config callbacks keys quota maxWrite
  have hfresh : Answers (fresh config callbacks keys (.fresh quota maxWrite)) :=
    ⟨fun c hc => (hcalls c hc).2, List.prefix_rfl, fun _ => rfl, List.forall_mem_nil _⟩
  have hcs : ∀ c ∈ callbacks.onConnect.getD [], c.Within fits ∧ c.NoPong := fun c hc =>
    hcalls c (List.mem_append_left _ hc)
  have hgains : Gains (·.kind ≠ .pong) (fresh config callbacks keys (.fresh quota maxWrite))
      (Endpoint.opened config callbacks keys quota maxWrite) :=
    writeAll_gains hsend _ (fun c hc => (hcs c hc).1) fun c hc _ _ _ _ _ hj =>
      kind_ne_pong (hcs c hc).2 hj
  have hshift := (opened_acts config callbacks keys quota maxWrite fun c hc =>
    (hcalls c hc).1).reaction.toShift
  refine hfresh.pongless (hshift.pongless hsend hgains) ?_
  rw [Endpoint.opened, reader_writeAll]
  exact .refl _

theorem Run.answers (h : Run ok (e :: past)) (hok : ∀ c, ok (.write c) → c.NoPong) :
    Answers e := by
  have hok' : ∀ c, ok (.write c) → c.Within (fun _ _ => True) ∧ c.NoPong := fun c hc =>
    ⟨c.within_any, hok c hc⟩
  generalize hs : e :: past = states at h
  induction h generalizing e past with
  | start config callbacks keys quota maxWrite hcalls =>
    cases hs
    exact .opened config callbacks keys quota maxWrite fun c hc => hok' c (hcalls c hc)
  | step h hstep ih =>
    cases hs
    exact (ih rfl).step (h.inOrder fun c hc => (hok' c hc).1) hok' hstep

/-! What is on the wire. -/

/-- The pongs on the wire have been handed in, in this order. -/
theorem pongsOnWire_front (hsend : e.Sending fits) {heldBack : Job → Prop}
    (ho : e.outgoing.Ordered heldBack) : e.pongsOnWire <+: e.submitted.pongs := by
  obtain ⟨js, f, hlaid, hwire, -, hfront⟩ := hsend.jobs_on_wire
  have hframed := hlaid.framed
  have hrow := hframed.ends.row
  rw [← hframed.bytes] at hwire
  have hfilled : ∀ w ∈ (Job.frames js).map Frame.filled, w.Whole ∧ w.header.rsv < 8 := by
    intro w hw
    obtain ⟨g, hg, rfl⟩ := List.mem_map.mp hw
    refine ⟨Frame.whole_filled (hrow.length_le g hg), ?_⟩
    rw [show g.filled.header = g.header from rfl, (hframed.fit g hg).rsv]
    decide
  have hparsed := Frame.parseAll_prefix hfilled (hwire.trans hrow.prefix_filled)
  have hsubmitted : (Job.traffic e.outgoing.lineUp).pongs = e.submitted.pongs :=
    congrArg Traffic.pongs (ho.traffic_handedIn hsend.numbered).symm
  have hrows : Frame.payloads .pong ((Job.frames js).map Frame.filled) = (Job.traffic js).pongs :=
    (Frame.payloads_filled hframed.fit rfl).trans (congrArg Traffic.pongs hlaid.traffic)
  rw [← hsubmitted]
  exact (hrows ▸ Frame.payloads_prefix hparsed .pong).trans (Job.traffic_mono hfront).pongs

theorem prefix_pongsOnWire (hsend : e.Sending fits) {heldBack : Job → Prop}
    (ho : e.outgoing.Ordered heldBack)
    (hall : ∀ j ∈ e.outgoing.lineUp, j.kind = .pong → j ∈ e.outgoing.written) :
    e.submitted.pongs <+: e.pongsOnWire := by
  obtain ⟨part, tail, f, hwire, hlaid, -⟩ := hsend.wired
  obtain ⟨g, hlaid, -⟩ := hlaid.split
  have hframed := hlaid.framed
  obtain ⟨gs, rest, hrow, hwhole, hfront, hpongs⟩ := hframed.ends.whole_front .pong rfl
  have hparsed : Frame.parseAll e.transport.wire.toList = gs ++ Frame.parseAll (rest ++ tail) := by
    rw [show e.transport.wire = e.outgoing.wire from rfl, hwire, ← hframed.bytes, hrow,
      List.append_assoc]
    refine Frame.parseAll_rowBytes_append gs (fun w hw => ⟨hwhole w hw, ?_⟩) _
    rw [(hframed.fit w (hfront.subset hw)).rsv]
    decide
  have hline : (Job.traffic e.outgoing.lineUp).pongs = (Job.traffic e.outgoing.written).pongs := by
    obtain ⟨js, _, -, -, hjs, hpre⟩ := hsend.jobs_on_wire
    obtain ⟨later, hlater⟩ := hjs.trans hpre
    have hdistinct := hsend.numbered.nodup
    rw [← hlater, List.map_append, List.nodup_append] at hdistinct
    have hnone : later.filter (·.kind = .pong) = [] := by
      apply List.filter_eq_nil_iff.mpr
      intro j hj
      rw [decide_eq_true_eq]
      intro hk
      have hwritten := hall j (hlater ▸ List.mem_append_right _ hj) hk
      exact hdistinct.2.2 _ (List.mem_map_of_mem hwritten) _ (List.mem_map_of_mem hj) rfl
    rw [← hlater, Job.traffic, Job.traffic]
    simp only [List.filter_append, hnone, List.append_nil]
  have hsame : e.submitted.pongs = Frame.payloads .pong (Job.frames e.outgoing.written) := calc
    e.submitted.pongs = (Job.traffic e.outgoing.lineUp).pongs :=
      congrArg Traffic.pongs (ho.traffic_handedIn hsend.numbered)
    _ = (Job.traffic e.outgoing.written).pongs := hline
    _ = Frame.payloads .pong (Job.frames e.outgoing.written) :=
      congrArg Traffic.pongs hlaid.traffic.symm
  rw [pongsOnWire, hparsed, Frame.payloads_append, hpongs, hsame]
  exact List.prefix_append _ _

end Endpoint

end WebSocket
