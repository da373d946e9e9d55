import WebSocket.Proofs.Clearing
import WebSocket.Proofs.Deadline
import WebSocket.Proofs.Handshake
import WebSocket.Proofs.Pongs
import WebSocket.Proofs.Rejection

/-! Every ping is answered. An end that does not close by itself, on a stream that takes what it is
given, has written the pongs for all pings by the time that it is at rest, unless a data frame has
been handed in in part. When the peer's close or a violation of the peer's ends the connection, the
close frame goes out behind them. -/

namespace WebSocket

namespace Endpoint

/-- Nothing keeps the end from answering: the stream below is in order and takes what it is given,
and the application keeps the connection and does not close it. -/
structure Undisturbed (e : Endpoint) : Prop where
  quota : e.transport.quota ≠ some 0
  maxWrite : e.transport.maxWrite ≠ some 0
  writeFault : e.transport.writeFault = none
  takes : e.transport.takesNothing = false
  flushFault : e.transport.flushFault = none
  fault : e.reader.input.fault = none
  ended : e.reader.input.ended = false
  held : e.held = true
  closing : e.life.closing = false

/-- All pongs handed in have been written, unless a data frame has been handed in in part. -/
def PongsOut (e : Endpoint) : Prop :=
  e.outbox.frame.remaining = 0 →
    ∀ j ∈ e.outgoing.lineUp, j.kind = .pong → j ∈ e.outgoing.written

/-- As long as reading goes on, the connection is not torn down, nor is it about to be. -/
def Unclosed (e : Endpoint) : Prop :=
  e.reader.finished = false → e.life.closed = false ∧ e.life.timer = none

/-- The connection does not end before the pongs are out. -/
structure Secure (e : Endpoint) : Prop where
  unfinished : e.Unclosed
  asks : ∀ payload, e.reader.stage = .answer payload →
    e.reader.finished = false ∧ e.reader.reading.isSome = true
  closed : e.life.closed = true → e.PongsOut
  /-- A timer that does not wait for the writer. -/
  due : ∀ t, e.life.timer = some t → t.afterWriter = false → t.deadline ≤ e.life.clock →
    e.PongsOut
  /-- The close frame is handed in last. -/
  order : ∀ i ∈ e.outgoing.lineUp, i.kind = .close →
    ∀ j ∈ e.outgoing.lineUp, j.kind = .pong → j.serial < i.serial

variable {ok : Event → Prop} {fits : Nat → Nat → Prop} {e e' d : Endpoint} {past : List Endpoint}

instance (e : Endpoint) : Decidable e.Undisturbed :=
  decidable_of_iff
    (e.transport.quota ≠ some 0 ∧ e.transport.maxWrite ≠ some 0 ∧
      e.transport.writeFault = none ∧ e.transport.takesNothing = false ∧
      e.transport.flushFault = none ∧ e.reader.input.fault = none ∧
      e.reader.input.ended = false ∧ e.held = true ∧ e.life.closing = false)
    ⟨fun ⟨h1, h2, h3, h4, h5, h6, h7, h8, h9⟩ => ⟨h1, h2, h3, h4, h5, h6, h7, h8, h9⟩,
        fun ⟨h1, h2, h3, h4, h5, h6, h7, h8, h9⟩ => ⟨h1, h2, h3, h4, h5, h6, h7, h8, h9⟩⟩

theorem Undisturbed.taking (h : e.Undisturbed) : e.transport.Taking :=
  ⟨h.quota, h.maxWrite, h.writeFault, h.takes, h.flushFault⟩

/-! When the pongs are out. -/

theorem lineUp_of_waits (hsend : e.Sending fits) (hopen : e.life.closed = false)
    (hcl : e.life.closing = false) (hquota : e.transport.quota ≠ some 0)
    (hwait : e.writerStep = none) (hdone : e.outbox.frame.remaining = 0) :
    e.outgoing.lineUp = e.outgoing.written := by
  obtain ⟨hidle, hqueue, hdeferred⟩ := idle_of_waits hsend hopen hquota hwait
  have hsent := hsend.unsent hcl
  have hflows := flowsFrom_of_waits hsend hidle hqueue hsent
  have hnone : e.writer.deferred = [] :=
    hdeferred.resolve_left fun hframe => hflows.open_iff.mp hframe hdone
  rw [Outgoing.lineUp, Outgoing.held_idle hidle, show e.outgoing.writer.deferred = [] from hnone,
    show e.outgoing.outbox.queue = [] from hqueue, List.append_nil, List.append_nil]
  exact jobs_settled hsend (by simp [hidle]) hsent

theorem pongsOut_of_waits (hsend : e.Sending fits) (hopen : e.life.closed = false)
    (hcl : e.life.closing = false) (hquota : e.transport.quota ≠ some 0)
    (hwait : e.writerStep = none) : e.PongsOut := by
  intro hdone j hj _
  rwa [lineUp_of_waits hsend hopen hcl hquota hwait hdone] at hj

theorem PongsOut.of_line (h : e.PongsOut) (hframe : e'.outbox.frame = e.outbox.frame)
    (hline : ∀ j ∈ e'.outgoing.lineUp, j.kind = .pong → j ∈ e.outgoing.lineUp)
    (hwritten : ∀ j ∈ e.outgoing.written, j ∈ e'.outgoing.written) : e'.PongsOut := by
  intro hdone j hj hk
  rw [hframe] at hdone
  exact hwritten j (h hdone j (hline j hj hk) hk)

theorem PongsOut.of_same (h : e.PongsOut) (ho : e'.outgoing = e.outgoing) : e'.PongsOut := by
  refine h.of_line (congrArg (·.outbox.frame) ho) (fun j hj _ => ?_) fun j hj => ?_
  · rwa [ho] at hj
  · rwa [ho]

theorem PongsOut.writerStep (h : e.PongsOut) (hsend : e.Sending fits)
    (hstep : e.writerStep = some e') : e'.PongsOut := by
  have hm : Outgoing.Move e.masks fits e.outgoing e'.outgoing := writerStep_move hstep
  exact h.of_line (writerStep_calls hstep).1
    (fun j hj _ => (lineUp_writerStep hsend hstep).mem_iff.mp hj)
    (Outgoing.written_mono hm.completions_prefix)

theorem written_of_sending (hsend : e.Sending fits) {heldBack : Job → Prop}
    (hordered : e.outgoing.Ordered heldBack) {i j : Job} {u : Bytes}
    (hs : e.writer.state = .sending i u) (hk : i.kind = .close)
    (hj : j ∈ e.outgoing.lineUp) (hlt : j.serial < i.serial) : j ∈ e.outgoing.written := by
  have hsent : e.outgoing.writer.closeSent = false := hsend.phased.unsent hs
  have hwritten := hsend.all_written (by simp [show e.outgoing.writer.state = _ from hs]) hsent
  rw [Outgoing.Ordered, Outgoing.lineUp_sending hs] at hordered
  rw [Outgoing.lineUp_sending hs, hwritten] at hj
  rcases List.mem_append.mp hj with hj | hj
  · simpa [Function.comp_def] using hj
  · rcases List.mem_cons.mp hj with rfl | hj
    · exact absurd hlt (Nat.lt_irrefl _)
    · have hbehind := (List.pairwise_cons.mp (List.pairwise_append.mp hordered).2.1).1 j hj
      rcases hbehind with hbefore | ⟨hcont, -⟩
      · exact absurd hlt (Nat.lt_asymm hbefore)
      · exact absurd (hk.symm.trans hcont) (by simp)

/-! The writer. -/

/-- On a stream that is in order the writer ends the connection with the last job only. -/
theorem last_of_closed (h : e.transport.Taking) (hheld : e.held = true)
    (hopen : e.life.closed = false) (hstep : e.writerStep = some e')
    (hc : e'.life.closed = true) :
    ∃ job, e.writer.state = .sending job [] ∧ job.last = true ∧ job ∈ e'.outgoing.written := by
  cases writerStep_cases hstep with
  | cut job unsent hs hshut => exact absurd (hopen.symm.trans hshut) Bool.false_ne_true
  | fail job unsent f hs _ hf =>
    rcases hf with hf | ⟨hne, hf⟩
    · exact absurd (h.flushFault.symm.trans hf) (by simp)
    · exact absurd hf (h.write hne f)
  | complete job hs =>
    have ho := outgoing_complete e job
    by_cases hl : job.last = true
    · rw [if_pos hl] at ho
      refine ⟨job, hs, hl, ?_⟩
      rw [ho, Outgoing.written_stop, Outgoing.written_complete]
      simp
    · have hc' := congrArg Outgoing.closed ho
      rw [if_neg hl] at hc'
      have hopen' : (e.complete job).life.closed = false := by
        split at hc'
        · exact hc'.trans hopen
        · exact hc'.trans hopen
      exact absurd (hopen'.symm.trans hc) Bool.false_ne_true
  | put => exact absurd (hopen.symm.trans hc) Bool.false_ne_true
  | takeHeld job | takeNew job =>
    rw [life_takeUp] at hc
    exact absurd (hopen.symm.trans hc) Bool.false_ne_true
  | stop hs hwhy =>
    rcases hwhy with hshut | ⟨hlet, -⟩
    · exact absurd (hopen.symm.trans hshut) Bool.false_ne_true
    · exact absurd (hheld.symm.trans hlet) (by simp)

theorem close_of_closed (hu : e.Undisturbed) (hsend : e.Sending fits)
    (hopen : e.life.closed = false) (hstep : e.writerStep = some e')
    (hc : e'.life.closed = true) :
    ∃ job ∈ e.outgoing.lineUp, job.kind = .close ∧ e.writer.state = .sending job [] := by
  obtain ⟨job, hs, hl, -⟩ := last_of_closed hu.taking hu.held hopen hstep hc
  refine ⟨job, ?_, hsend.kind_of_last hs hl, hs⟩
  rw [Outgoing.lineUp_sending hs]
  simp

theorem Unclosed.writer (h : Unclosed e) (hu : e.Undisturbed) (hsend : e.Sending fits)
    (hfresh : e.Fresh) (hstep : e.writerStep = some e') : Unclosed e' := by
  intro hfin
  rw [(sendingWork_writerStep hstep).1] at hfin
  obtain ⟨hopen, htimer⟩ := h hfin
  constructor
  · rw [← Bool.not_eq_true]
    intro hc
    obtain ⟨job, hjob, hk, -⟩ := close_of_closed hu hsend hopen hstep hc
    exact hfresh hu.closing hfin job hjob hk
  · rcases (writerStep_time hstep).timer with ht | ht
    · exact ht.trans htimer
    · exact ht

theorem Secure.writer (h : Secure e) (hu : e.Undisturbed) (hsend : e.Sending fits)
    {heldBack : Job → Prop} (hordered : e.outgoing.Ordered heldBack) (hfresh : e.Fresh)
    (hstep : e.writerStep = some e') : Secure e' := by
  have hreader : e'.reader = e.reader := (sendingWork_writerStep hstep).1
  have hline := lineUp_writerStep hsend hstep
  have htime := writerStep_time hstep
  have hm : Outgoing.Move e.masks fits e.outgoing e'.outgoing := writerStep_move hstep
  have hmono := Outgoing.written_mono hm.completions_prefix
  refine ⟨h.unfinished.writer hu hsend hfresh hstep, ?_, ?_, ?_, ?_⟩
  · rw [hreader]
    exact h.asks
  · intro hc
    cases hopen : e.life.closed with
    | true => exact (h.closed hopen).writerStep hsend hstep
    | false =>
      obtain ⟨job, hjob, hk, hs⟩ := close_of_closed hu hsend hopen hstep hc
      intro _ j hj hpong
      have hj := hline.mem_iff.mp hj
      exact hmono j (written_of_sending hsend hordered hs hk hj (h.order job hjob hk j hj hpong))
  · intro t ht hafter hdue
    rw [htime.clock] at hdue
    rcases htime.timer with hsame | hnone
    · exact (h.due t (hsame.symm.trans ht) hafter hdue).writerStep hsend hstep
    · exact absurd (hnone.symm.trans ht) (by simp)
  · intro i hi hk j hj
    exact h.order i (hline.mem_iff.mp hi) hk j (hline.mem_iff.mp hj)

/-! The close timer. -/

/-- The timer goes off when the writer waits, or it does not wait for the writer. -/
theorem tick_cases_timer (h : e.tick = some e') :
    (∃ w, e.writerStep = some w ∧ e' = w.giveTurn .writer) ∨
      (∃ r, e.readerStep = some r ∧ (e' = r ∨ e' = r.giveTurn .reader)) ∨
      ∃ r t, e.timerStep = some r ∧ e' = r ∧ e.life.timer = some t ∧
        (t.afterWriter = false ∨ e.writerStep = none) := by
  unfold tick at h
  split at h
  · next hturn =>
    simp only [Option.orElse_eq_orElse, Option.orElse_eq_or, Option.or_eq_some_iff,
      Option.map_eq_some_iff, Option.map_eq_none_iff] at h
    obtain h | ⟨-, h | ⟨-, ⟨w, h, rfl⟩ | ⟨hw, h⟩⟩⟩ := h
    · exact .inr (.inl ⟨e', h, .inl rfl⟩)
    · obtain ⟨t, ht, -⟩ := timerStep_cases (timerStep_of_prompt h)
      refine .inr (.inr ⟨e', t, timerStep_of_prompt h, rfl, ht, .inl ?_⟩)
      rw [← Bool.not_eq_true]
      intro hafter
      rw [promptTimerStep, ht, Option.any_some, if_pos hafter] at h
      cases h
    · exact .inl ⟨w, h, rfl⟩
    · obtain ⟨t, ht, -⟩ := timerStep_cases h
      exact .inr (.inr ⟨e', t, h, rfl, ht, .inr hw⟩)
  · next hturn =>
    simp only [Option.orElse_eq_orElse, Option.orElse_eq_or, Option.or_eq_some_iff,
      Option.map_eq_some_iff] at h
    obtain h | ⟨hw, h | ⟨-, r, h, rfl⟩⟩ := h
    · exact .inl ⟨e', h, (giveTurn_eq ((writerStep_settings h).2.2.1.trans hturn)).symm⟩
    · obtain ⟨t, ht, -⟩ := timerStep_cases h
      exact .inr (.inr ⟨e', t, h, rfl, ht, .inr hw⟩)
    · exact .inr (.inl ⟨r, h, .inr rfl⟩)

theorem Unclosed.timer (h : Unclosed e) (hstep : e.timerStep = some e') : Unclosed e' := by
  intro hfin
  rw [(sendingWork_timerStep hstep).1] at hfin
  obtain ⟨t, ht, -⟩ := timerStep_cases hstep
  exact absurd ((h hfin).2.symm.trans ht) (by simp)

theorem Secure.timer (h : Secure e) (hu : e.Undisturbed) (hsend : e.Sending fits)
    (hdisarmed : e.Disarmed) {t : Timer} (ht : e.life.timer = some t)
    (hwhen : t.afterWriter = false ∨ e.writerStep = none) (hstep : e.timerStep = some e') :
    Secure e' := by
  have hreader : e'.reader = e.reader := (sendingWork_timerStep hstep).1
  obtain ⟨t', ht', hdue, he'⟩ := timerStep_cases hstep
  obtain rfl := Option.some.inj (ht.symm.trans ht')
  have ho : e'.outgoing = { e.outgoing with closed := true } := by
    rw [he', outgoing_teardown]
    rfl
  have hopen : e.life.closed = false := by
    rw [← Bool.not_eq_true]
    intro hc
    exact absurd ((hdisarmed hc).symm.trans ht) (by simp)
  have hout : e.PongsOut := by
    rcases hwhen with hafter | hwait
    · exact h.due t ht hafter hdue
    · exact pongsOut_of_waits hsend hopen hu.closing hu.quota hwait
  have hout' : e'.PongsOut := by
    refine hout.of_line (congrArg (·.outbox.frame) ho) (fun j hj _ => ?_) fun j hj => ?_
    · rw [ho] at hj
      exact hj
    · rw [ho]
      exact hj
  refine ⟨h.unfinished.timer hstep, ?_, fun _ => hout', fun _ _ _ _ => hout', ?_⟩
  · rw [hreader]
    exact h.asks
  · rw [ho]
    exact h.order

/-! The reader. -/

inductive Ends (fits : Nat → Nat → Prop) (e : Endpoint) : Endpoint → Prop where
  | mk (x : Endpoint) (code : CloseCode) (reason : String) (payload : Bytes) (r : ReadResult)
      (hx : Acts fits e x) (hgo : GoesOn e x) (hfin : x.reader.finished = e.reader.finished)
      (hopen : x.life.closed = e.life.closed) (hstage : x.reader.stage.unanswered = [])
      (hbusy : x.life.closed = false → x.life.closing = true →
        x.outbox.slots.isBusy .close = true)
      (henc : ClosePayload.encode code reason = .ok payload) :
      Ends fits e ((x.closeDown code reason).endRead r)

/-- What a step of the reader comes to while the stream below is in order. -/
inductive Goes (fits : Nat → Nat → Prop) (e d : Endpoint) : Prop where
  | on (hfin : d.reader.finished = e.reader.finished) (hopen : d.life.closed = e.life.closed)
      (hasks : d.reader.stage.unanswered = [] ∨ d.reader.reading = e.reader.reading)
      (hall : e.reader.reading = some .all → d.reader.reading = some .all)
  | ends (h : Ends fits e d)

theorem Goes.after {r : Reader} (h : Goes fits { e with reader := r } d)
    (hfin : r.finished = e.reader.finished) (hreading : r.reading = e.reader.reading) :
    Goes fits e d := by
  cases h with
  | on hfin' hopen hasks hall =>
    exact .on (hfin'.trans hfin) hopen (hasks.imp_right (·.trans hreading)) fun h =>
      hall (hreading.trans h)
  | ends h =>
    obtain ⟨x, code, reason, payload, r', hx, hgo, hfin', hopen, hstage, hbusy, henc⟩ := h
    refine .ends ⟨x, code, reason, payload, r', (Acts.read e r).trans hx, ?_, hfin'.trans hfin,
      hopen, hstage, hbusy, henc⟩
    exact hgo.imp_right fun ⟨hsame, hplain⟩ => ⟨hsame.trans hfin, hplain⟩

theorem rejectPeer_goes (hcl : e.life.closing = false) (hs : e.reader.stage.unanswered = [])
    (v : Violation) : Goes fits e (e.rejectPeer v) := by
  have ho := outgoing_report e v.toError
  have hreader := reader_report e v.toError
  have hcl' : ¬ (e.report v.toError).life.closing = true := by
    rw [show (e.report v.toError).life.closing = e.life.closing from congrArg Outgoing.closing ho,
      hcl]
    exact Bool.false_ne_true
  rw [rejectPeer, if_neg hcl']
  refine .ends ⟨_, _, _, _, _, .report e _, .of_same ?_ ?_, ?_, congrArg Outgoing.closed ho, ?_,
    fun _ hc => absurd hc hcl', v.encode_eq⟩
  · rw [hreader]
  · exact congrArg Outgoing.outbox ho
  · rw [hreader]
  · rw [hreader]
    exact hs

theorem readHeaderPiece_goes (hcl : e.life.closing = false) (hs : e.reader.stage.unanswered = [])
    (p : HeaderProgress) (piece : Bytes) : Goes fits e (e.readHeaderPiece p piece) := by
  unfold readHeaderPiece
  split
  · exact rejectPeer_goes hcl hs _
  · exact .on rfl rfl (.inl rfl) id
  · unfold openFrame
    split
    · exact rejectPeer_goes hcl hs _
    · exact .on rfl rfl (.inl rfl) id
    · split
      · exact .on rfl rfl (.inl rfl) id
      · exact rejectPeer_goes hcl hs _

theorem deliverText_goes (hcl : e.life.closing = false) (hs : e.reader.stage.unanswered = [])
    (c : Chunk) : Goes fits e (e.deliverText c) := by
  have hreject : ∀ text v,
      Goes fits e ({ e with reader := { e.reader with text } }.rejectPeer v) := fun text v =>
    (rejectPeer_goes (e := { e with reader := { e.reader with text } }) hcl hs v).after rfl rfl
  unfold deliverText
  dsimp only
  split
  · exact hreject _ _
  · split
    · exact hreject _ _
    · exact .on rfl rfl (.inl hs) fun hall => if_pos hall

theorem readData_goes (hcl : e.life.closing = false) (f : IncomingFrame) (piece : Bytes) :
    Goes fits e (e.readData f piece) := by
  have hstage : ∀ b g, (if b = true then Stage.header .start else .data g).unanswered = [] := by
    intro b g
    split <;> rfl
  have htext : ∀ stage c, stage.unanswered = [] →
      Goes fits e ((e.setStage stage).deliverText c) := fun stage c hs =>
    (deliverText_goes (e := e.setStage stage) hcl hs c).after rfl rfl
  unfold readData
  dsimp only
  by_cases hb : f.kind.isBinary = true
  · rw [if_pos hb]
    exact .on rfl rfl (.inl (hstage _ _)) fun hall => if_pos hall
  · rw [if_neg hb]
    exact htext _ _ (hstage _ _)

theorem readControl_goes (h : e.Sending fits) (hcalls : ∀ c ∈ e.callbacks.calls, c.Within fits)
    (hcl : e.life.closing = false) (hs : e.reader.stage.unanswered = []) (hd : Header)
    (piece : Bytes) : Goes fits e (e.readControl hd piece) := by
  unfold readControl
  split
  · exact rejectPeer_goes hcl hs _
  · exact .on rfl rfl (.inl rfl) id
  · next c _ =>
    obtain ⟨hplain, hopen⟩ := notify_plain h hcalls c
    obtain ⟨report, -, hreader⟩ := reader_notify e c
    have hfin : (e.notify c).reader.finished = e.reader.finished := by rw [hreader]
    have hreading : (e.notify c).reader.reading = e.reader.reading := by rw [hreader]
    cases c with
    | close p =>
      rw [handleControl, if_neg (by simp [hcl])]
      have hacts : Acts fits e (e.notify (.close p)) := notify_acts h hcalls _
      refine .ends ⟨_, _, _, _, _, hacts, .inr ⟨hfin, hplain⟩, hfin, hopen, ?_,
        close_busy_after_notify h hacts.reaction.toShift hcl, rfl⟩
      rw [hreader]
      exact hs
    | ping payload => exact .on hfin hopen (.inr hreading) hreading.trans
    | pong payload => exact .on hfin hopen (.inr hreading) hreading.trans

theorem readerStep_goes (h : e.InOrder fits) (hu : e.Undisturbed) (hopen : e.Listens)
    (hstep : e.readerStep = some d) : Goes fits e d := by
  have hinput : ∀ rest, (e.setInput rest).Sending fits := fun rest =>
    (Acts.read e _).sending h.sending
  have hclean := Input.take_clean hu.fault hu.ended
  cases (readerStep_cases hstep).2 with
  | leave hover =>
    obtain ⟨hfin, hc⟩ := hopen
    rw [hfin, hc] at hover
    cases hover
  | fail f n _ ht =>
    rcases ht with ht | ht
    · exact absurd ht ((hclean n).1 f)
    · exact absurd ht (hclean n).2
  | finish _ _ ht => exact absurd ht (hclean _).2
  | header p piece rest _ hs =>
    exact (readHeaderPiece_goes (e := e.setInput rest) hu.closing
      (congrArg Stage.unanswered hs) p piece).after rfl rfl
  | data f piece rest =>
    exact (readData_goes (e := e.setInput rest) hu.closing f piece).after rfl rfl
  | control c piece rest _ hs =>
    exact (readControl_goes (e := e.setInput rest) (hinput rest) h.calls hu.closing
      (congrArg Stage.unanswered hs) c piece).after rfl rfl
  | answer payload _ hs =>
    have hlen := h.stage
    rw [hs] at hlen
    have hreader : (e.queuePong payload).1.reader = e.reader := reader_queuePong e payload
    refine .on ?_ (queuePong_entered h.sending hlen).closed (.inl rfl) fun hall => ?_
    · rw [answerPing]
      dsimp only
      rw [hreader]
    · rw [answerPing]
      dsimp only
      rwa [hreader]

theorem Shift.serial_lt (hs : Shift fits e e') (h : e.Sending fits) {i j : Job}
    (hj : j ∈ e.outgoing.lineUp) (hi : i ∈ e'.outgoing.lineUp) (hnew : i ∉ e.outgoing.lineUp) :
    j.serial < i.serial := by
  obtain ⟨more, hmore⟩ := hs.handedIn_mono h
  have hsorted := Outgoing.Numbered.handedIn_pairwise (h.shift hs).numbered
  have hi := (Outgoing.handedIn_perm e'.outgoing).mem_iff.mpr hi
  rw [← hmore] at hsorted hi
  refine (List.pairwise_append.mp hsorted).2.2 j
    ((Outgoing.handedIn_perm e.outgoing).mem_iff.mpr hj) i
    ((List.mem_append.mp hi).resolve_left fun hold => ?_)
  exact hnew ((Outgoing.handedIn_perm e.outgoing).mem_iff.mp hold)

theorem Secure.order_shift (h : Secure e) (hsend : e.Sending fits) (hs : Shift fits e e')
    (hfresh : e'.Fresh) (hcl : e'.life.closing = false)
    (hgains : e'.reader.finished = true → Gains (·.kind ≠ .pong) e e') :
    ∀ i ∈ e'.outgoing.lineUp, i.kind = .close →
      ∀ j ∈ e'.outgoing.lineUp, j.kind = .pong → j.serial < i.serial := by
  intro i hi hk j hj hpong
  cases hfin : e'.reader.finished with
  | false => exact absurd hk (hfresh hcl hfin i hi)
  | true =>
    have hold : j ∈ e.outgoing.lineUp := by
      rcases hs.mem_lineUp hj with hj | hj
      · exact hj
      · rcases hgains hfin j hj with hj | hne
        · exact Outgoing.mem_lineUp_of_held (Outgoing.mem_held_of_queue hj)
        · exact absurd hpong hne
    by_cases hnew : i ∈ e.outgoing.lineUp
    · exact h.order i hnew hk j hold hpong
    · exact hs.serial_lt hsend hold hi hnew

theorem Secure.of_same (h : Secure e) (ho : e'.outgoing = e.outgoing) (hl : e'.life = e.life)
    (hfin : e'.reader.finished = false → e.reader.finished = false)
    (hasks : ∀ payload, e'.reader.stage = .answer payload →
      e'.reader.finished = false ∧ e'.reader.reading.isSome = true) : Secure e' := by
  refine ⟨fun hf => ?_, hasks, ?_, ?_, ?_⟩
  · rw [hl]
    exact h.unfinished (hfin hf)
  · rw [hl]
    exact fun hc => (h.closed hc).of_same ho
  · rw [hl]
    exact fun t ht hafter hdue => (h.due t ht hafter hdue).of_same ho
  · rw [ho]
    exact h.order

theorem Ends.hands_in (h : Ends fits e d) (hsend : e.Sending fits) (hfresh : e.Fresh)
    (hgo : e.Listens) (hcl : d.life.closing = false) : ∃ x payload key keys r,
      Acts fits e x ∧ x.life.closed = false ∧ x.life.closing = false ∧
        x.reader.stage.unanswered = [] ∧
        d =
          ({ x with
              life := x.armTimer.life
              outbox :=
                x.outbox.enter (.control x.outbox.nextSerial .close .close payload key true)
                  x.outbox.frame keys } : Endpoint).endRead r := by
  obtain ⟨x, code, reason, payload, r, hx, hgoes, hfin', hopen, hstage, hbusy, henc⟩ := h
  have hxopen := hopen.trans hgo.2
  have hxsend := hx.sending hsend
  have hacts : Acts fits x (x.closeDown code reason) := closeDown_acts hxsend code reason hbusy
  have hxcl := hacts.reaction.toShift.closing hcl
  have hslot := (hfresh.shift hx.reaction.toShift hgoes hxsend).free hxsend hxcl
    (hfin'.trans hgo.1)
  obtain ⟨key, keys, -, heq⟩ := closeDown_eq (hxsend.ready hxopen hslot) henc
  exact ⟨x, payload, key, keys, r, hx, hxopen, hxcl, hstage, by rw [heq]⟩

/-- Reading ends. A timer that does not wait for the writer is armed when the writer has nothing to
write. -/
theorem Secure.ends (h : Secure e) (hsend : e.Sending fits) (hfresh : e.Fresh)
    (hfin : e.reader.finished = false) (hquota : e.transport.quota ≠ some 0)
    (hends : Ends fits e d) (hcl : d.life.closing = false)
    (horder : ∀ i ∈ d.outgoing.lineUp, i.kind = .close →
      ∀ j ∈ d.outgoing.lineUp, j.kind = .pong → j.serial < i.serial) : Secure d := by
  obtain ⟨x, payload, key, keys, r, hx, hxopen, hxcl, hstage, rfl⟩ :=
    hends.hands_in hsend hfresh ⟨hfin, (h.unfinished hfin).1⟩ hcl
  have hxsend := hx.sending hsend
  refine ⟨fun hf => ?_, fun p hs => ?_, fun hc => ?_, fun t ht hafter _ => ?_, horder⟩
  · cases hf
  · have hs : x.reader.stage = .answer p := hs
    rw [hs] at hstage
    cases hstage
  · exact absurd (hxopen.symm.trans hc) Bool.false_ne_true
  · -- the writer was waiting when the timer was armed
    obtain rfl := Option.some.inj ht
    have hwait : x.writerStep = none :=
      Option.isNone_iff_eq_none.mp (Option.isSome_eq_false_iff.mp hafter)
    have hout : x.PongsOut := by
      refine pongsOut_of_waits hxsend hxopen hxcl ?_ hwait
      rwa [hx.reaction.transport]
    refine hout.of_line rfl (fun i hi hpong => ?_) fun i hi => hi
    have hline := Outgoing.lineUp_enter x.outgoing
      (.control x.outbox.nextSerial .close .close payload key true) x.outbox.frame keys
      x.life.closing
    refine (List.mem_append.mp (hline ▸ hi)).resolve_right fun hi => ?_
    rw [List.mem_singleton.mp hi] at hpong
    cases hpong

theorem Unclosed.reader (h : Unclosed e) (hin : e.InOrder fits) (hu : e.Undisturbed)
    (hcl : d.life.closing = false) (hfresh : d.Fresh) (hstep : e.readerStep = some d) :
    Unclosed d := by
  intro hfin
  by_cases hover : (e.reader.finished || e.life.closed) = true
  · obtain rfl := readerStep_of_over hover hstep
    cases hfin
  · obtain ⟨hgo, hopen⟩ := Bool.or_eq_false_iff.mp (eq_false_of_ne_true hover)
    cases readerStep_goes hin hu ⟨hgo, hopen⟩ hstep with
    | on _ hsame =>
      refine ⟨hsame.trans hopen, ?_⟩
      -- only a close frame comes with a timer
      cases (readerStep_acts hin.sending hin.stage hin.calls hstep).times hin.sending with
      | shut hc => exact absurd ((hsame.trans hopen).symm.trans hc) Bool.false_ne_true
      | kept htimer => exact htimer.trans (h hgo).2
      | armed j _ _ hj =>
        obtain ⟨hline, hk⟩ := Outgoing.mem_closes.mp (hj ▸ List.mem_singleton_self j)
        exact absurd hk (hfresh hcl hfin j hline)
    | ends hends =>
      obtain ⟨x, code, reason, payload, r, -, -, -, -, -, -, -⟩ := hends
      cases hfin

theorem Secure.reader (h : Secure e) (hin : e.InOrder fits) (hu : e.Undisturbed)
    (hcl : d.life.closing = false) (hfresh : e.Fresh) (hfresh' : d.Fresh)
    (hsilent : ∀ c ∈ e.callbacks.calls, c.NoPong) (hstep : e.readerStep = some d) : Secure d := by
  have hreading := (readerStep_cases hstep).1
  by_cases hover : (e.reader.finished || e.life.closed) = true
  · obtain rfl := readerStep_of_over hover hstep
    -- a reader that leaves has no ping to answer
    have hfin : e.reader.finished = true := by
      by_contra hfin
      rw [Bool.not_eq_true] at hfin
      rw [hfin, (h.unfinished hfin).1] at hover
      cases hover
    refine h.of_same rfl rfl (fun hf => ?_) fun p hs => ?_
    · cases hf
    · exact absurd ((h.asks p hs).1.symm.trans hfin) Bool.false_ne_true
  · obtain ⟨hfin, hopen⟩ := Bool.or_eq_false_iff.mp (eq_false_of_ne_true hover)
    have hacts := readerStep_acts hin.sending hin.stage hin.calls hstep
    have hgains : d.reader.finished = true → Gains (·.kind ≠ .pong) e d := by
      intro hfin'
      refine readerStep_gains hin.sending hin.calls
        (fun c hc _ _ _ _ _ hj => kind_ne_pong (hsilent c hc) hj) (fun j hk _ => by simp [hk]) hstep
        fun payload _ _ _ hd => ?_
      rw [hd, answerPing] at hfin'
      dsimp only at hfin'
      rw [reader_queuePong, hfin] at hfin'
      cases hfin'
    have horder := h.order_shift hin.sending hacts.reaction.toShift hfresh' hcl hgains
    cases readerStep_goes hin hu ⟨hfin, hopen⟩ hstep with
    | on hfin' hopen' hasks hall =>
      have hfin' := hfin'.trans hfin
      have hunclosed := h.unfinished.reader hin hu hcl hfresh' hstep
      refine ⟨hunclosed, fun p hs => ⟨hfin', ?_⟩, fun hc => ?_, fun t ht => ?_, horder⟩
      · rw [hs] at hasks
        rw [hasks.resolve_left (by simp [Stage.unanswered])]
        exact hreading
      · exact absurd ((hopen'.trans hopen).symm.trans hc) Bool.false_ne_true
      · exact absurd ((hunclosed hfin').2.symm.trans ht) (by simp)
    | ends hends => exact h.ends hin.sending hfresh hfin hu.quota hends hcl horder

/-! Events, and the run as a whole. -/

theorem Secure.pongsOut (h : Secure e) (hsend : e.Sending fits) (hu : e.Undisturbed)
    (hrest : e.tick = none) : e.PongsOut := by
  cases hopen : e.life.closed with
  | true => exact h.closed hopen
  | false => exact pongsOut_of_waits hsend hopen hu.closing hu.quota (waits_of_tick hrest).2.1

theorem reading_accept {ev : Event} (hheld : (e.accept ev).1.held = true)
    (hreading : e.reader.reading.isSome = true) :
    (e.accept ev).1.reader.reading.isSome = true := by
  cases ev with
  | write c =>
    rw [fst_accept_write]
    split
    · rwa [reader_write]
    · exact hreading
  | read m =>
    unfold accept
    dsimp only
    split
    · rfl
    · exact hreading
  | drop => cases hheld
  | _ => exact hreading

/-- The timer is armed only by a call that starts to close. -/
theorem timer_of_accept (hsend : e.Sending fits) {ev : Event}
    (hev : ∀ c, ev = .write c → c.Within fits) (hcl : (e.accept ev).1.life.closing = false) :
    (e.accept ev).1.life.closed = e.life.closed ∧
      (e.accept ev).1.life.timer = e.life.timer := by
  by_cases hw : ∃ c, ev = .write c
  · obtain ⟨c, rfl⟩ := hw
    have hentered := write_entered hsend (hev c rfl)
    rw [fst_accept_write] at hcl ⊢
    split at hcl
    · next hheld =>
      rw [if_pos hheld]
      generalize e.write c = a at *
      cases hentered with
      | refused => exact ⟨rfl, rfl⟩
      | accepted j f keys timer hj hmakes htimer =>
        have hstays : (e.life.closing || (j.kind == .close && !j.last)) = false := hcl
        refine ⟨rfl, ?_⟩
        cases htimer with
        | kept => rfl
        | armed hk => simp [hk, last_of_makes hmakes hk] at hstays
    · next hheld =>
      rw [if_neg hheld]
      exact ⟨rfl, rfl⟩
  · obtain ⟨hc, ht, -⟩ := life_accept e fun c hc => hw ⟨c, hc⟩
    exact ⟨hc, ht⟩

theorem Unclosed.event (h : Unclosed e) (hsend : e.Sending fits) {ev : Event}
    (hev : ∀ c, ev = .write c → c.Within fits) (hcl : (e.accept ev).1.life.closing = false) :
    Unclosed (e.accept ev).1 := by
  intro hfin
  obtain ⟨hc, ht⟩ := timer_of_accept hsend hev hcl
  rw [hc, ht]
  exact h ((reads_accept e ev).2.symm.trans hfin)

theorem Secure.event (h : Secure e) (hin : e.InOrder fits) (hu : e.Undisturbed)
    (hrest : e.tick = none) {ev : Event} (hev : ∀ c, ev = .write c → c.Within fits ∧ c.NoPong)
    (hu' : (e.accept ev).1.Undisturbed) (hfresh : (e.accept ev).1.Fresh) :
    Secure (e.accept ev).1 := by
  have hout := h.pongsOut hin.sending hu hrest
  have hshift := accept_shift hin.sending fun c hc => (hev c hc).1
  have horder := h.order_shift hin.sending hshift hfresh hu'.closing fun _ =>
    gains_accept hin.sending hev
  have hfin : (e.accept ev).1.reader.finished = e.reader.finished := (reads_accept e ev).2
  have hasks : ∀ p, (e.accept ev).1.reader.stage = .answer p →
      (e.accept ev).1.reader.finished = false ∧
        (e.accept ev).1.reader.reading.isSome = true := by
    intro p hs
    rw [stage_accept] at hs
    obtain ⟨hunfinished, hreading⟩ := h.asks p hs
    exact ⟨hfin.trans hunfinished, reading_accept hu'.held hreading⟩
  have hunclosed := h.unfinished.event hin.sending (fun c hc => (hev c hc).1) hu'.closing
  obtain ⟨hclosed, htimer⟩ :=
    timer_of_accept hin.sending (fun c hc => (hev c hc).1) hu'.closing
  -- a call may hand in a job; no other event changes what has been handed in
  by_cases hw : ∃ c, ev = .write c
  · obtain ⟨c, rfl⟩ := hw
    have hentered := write_entered hin.sending (hev c rfl).1
    rw [fst_accept_write, if_pos hu.held] at horder hasks hunclosed htimer ⊢
    generalize e.write c = a at *
    cases hentered with
    | refused r => exact h
    | accepted j f keys timer hj hmakes =>
      refine ⟨hunclosed, hasks, fun hc => ?_, fun t ht _ hdue => ?_, horder⟩
      · exact absurd (hj.opened.symm.trans hc) Bool.false_ne_true
      · have hearly : e.life.clock < t.deadline :=
          lt_deadline_of_rest (waits_of_tick hrest).2.2 (htimer.symm.trans ht)
        exact absurd hdue (Nat.not_le.mpr hearly)
  · obtain ⟨-, -, hl⟩ := life_accept e fun c hc => hw ⟨c, hc⟩
    have hsame : (e.accept ev).1.outbox = e.outbox := by
      cases ev with
      | write c => exact absurd ⟨c, rfl⟩ hw
      | read m =>
        unfold accept
        dsimp only
        split <;> rfl
      | _ => rfl
    have hout' : (e.accept ev).1.PongsOut := by
      refine hout.of_line (congrArg Outbox.frame hsame) (fun j hj _ => hl ▸ hj) fun j hj => ?_
      unfold Outgoing.written Outgoing.completions at hj ⊢
      rwa [show (e.accept ev).1.outgoing.writer = e.outgoing.writer from hshift.writer]
    exact ⟨hunclosed, hasks, fun _ => hout', fun _ _ _ _ => hout', horder⟩

theorem Secure.giveTurn (h : Secure e) (t : Turn) : Secure (e.giveTurn t) :=
  ⟨h.unfinished, h.asks, h.closed, h.due, h.order⟩

theorem Unclosed.opened (config : Config) (callbacks : Callbacks) (keys : Nat → Key)
    (quota maxWrite : Option Nat) (hcalls : ∀ c ∈ callbacks.calls, c.Within fits)
    (hcl : (opened config callbacks keys quota maxWrite).life.closing = false) :
    Unclosed (opened config callbacks keys quota maxWrite) := by
  have hsend : (Endpoint.fresh config callbacks keys (.fresh quota maxWrite)).Sending fits :=
    initial_sending config callbacks keys quota maxWrite
  have hacts := opened_acts config callbacks keys quota maxWrite hcalls
  have hopen : (Endpoint.opened config callbacks keys quota maxWrite).life.closed = false :=
    (writeAll_plain hsend (callbacks.onConnect.getD []) fun c hc =>
      hcalls c (List.mem_append_left _ hc)).2
  intro hfin
  refine ⟨hopen, ?_⟩
  cases hacts.times hsend with
  | shut hc => exact absurd (hopen.symm.trans hc) Bool.false_ne_true
  | kept htimer => exact htimer
  | armed j _ _ hj =>
    obtain ⟨hline, hk⟩ := Outgoing.mem_closes.mp (hj ▸ List.mem_singleton_self j)
    exact absurd hk (Fresh.opened config callbacks keys quota maxWrite hcalls hcl hfin j hline)

/-- Nothing tears the connection down before reading ends. -/
theorem Run.unclosed (h : Run ok (e :: past)) (hu : ∀ d ∈ e :: past, d.Undisturbed) :
    e.Unclosed := by
  have hok : ∀ c : WriteCall, ok (.write c) → c.Within fun _ _ => True := fun c _ => c.within_any
  generalize hs : e :: past = states at h
  induction h generalizing e past with
  | start config callbacks keys quota maxWrite hcalls =>
    cases hs
    exact .opened config callbacks keys quota maxWrite (fun c hc => hok c (hcalls c hc))
      (hu _ List.mem_cons_self).closing
  | @step c c' earlier h hstep ih =>
    cases hs
    have hc : c.Unclosed := ih (fun d hd => hu d (List.mem_cons_of_mem _ hd)) rfl
    have huc : c.Undisturbed := hu c (by simp)
    have hcl : c'.life.closing = false := (hu c' List.mem_cons_self).closing
    have hin := h.inOrder hok
    cases hstep with
    | event ev hev => exact hc.event hin.sending (fun c hc => hok c (hc ▸ hev)) hcl
    | reader hr => exact hc.reader hin huc hcl ((h.step (.reader hr)).fresh hok) hr
    | writer hw => exact hc.writer huc hin.sending (h.fresh hok) hw
    | timer ht => exact hc.timer ht
    | turn t => exact hc

theorem Secure.opened (config : Config) (callbacks : Callbacks) (keys : Nat → Key)
    (quota maxWrite : Option Nat) (hcalls : ∀ c ∈ callbacks.calls, c.Within fits)
    (hcl : (opened config callbacks keys quota maxWrite).life.closing = false) :
    Secure (opened config callbacks keys quota maxWrite) := by
  have hfresh := Fresh.opened config callbacks keys quota maxWrite hcalls
  have hunclosed := Unclosed.opened config callbacks keys quota maxWrite hcalls hcl
  have hreader : (Endpoint.opened config callbacks keys quota maxWrite).reader =
      (Endpoint.fresh config callbacks keys (.fresh quota maxWrite)).reader := by
    rw [Endpoint.opened, reader_writeAll]
  generalize Endpoint.opened config callbacks keys quota maxWrite = e at *
  have hfin : e.reader.finished = false := by
    rw [hreader]
    rfl
  obtain ⟨hopen, htimer⟩ := hunclosed hfin
  have hnone := hfresh hcl hfin
  refine ⟨hunclosed, fun p hs => ?_, fun hc => ?_, fun t ht => ?_,
    fun i hi hk => absurd hk (hnone i hi)⟩
  · rw [hreader] at hs
    cases hs
  · exact absurd (hopen.symm.trans hc) Bool.false_ne_true
  · exact absurd (htimer.symm.trans ht) (by simp)

theorem Driven.secure (h : Driven ok (e :: past)) (hok : ∀ c, ok (.write c) → c.NoPong)
    (hu : ∀ d ∈ e :: past, d.Undisturbed) : Secure e := by
  have hok' : ∀ c : WriteCall, ok (.write c) → c.Within fun _ _ => True := fun c _ => c.within_any
  have hev : ∀ {ev}, ok ev → ∀ c, ev = .write c → c.Within (fun _ _ => True) ∧ c.NoPong :=
    fun hev c hc => ⟨c.within_any, hok c (hc ▸ hev)⟩
  generalize hs : e :: past = states at h
  induction h generalizing e past with
  | start config callbacks keys quota maxWrite hcalls =>
    cases hs
    exact .opened config callbacks keys quota maxWrite (fun c hc => hok' c (hcalls c hc))
      (hu _ List.mem_cons_self).closing
  | @tick c c' earlier h hgo ih =>
    cases hs
    have hc : Secure c := ih (fun d hd => hu d (List.mem_cons_of_mem _ hd)) rfl
    have huc : c.Undisturbed := hu c (by simp)
    have hcl : c'.life.closing = false := (hu c' List.mem_cons_self).closing
    have hin := h.inOrder hok'
    obtain ⟨_, hrun⟩ := h.run
    obtain ⟨_, hrun'⟩ := (h.tick hgo).run
    have hfresh := hrun.fresh hok'
    have hfresh' := hrun'.fresh hok'
    rcases tick_cases_timer hgo with
      ⟨w, hstep, rfl⟩ | ⟨r, hstep, hr⟩ | ⟨r, t, hstep, rfl, ht, hwhen⟩
    · exact (hc.writer huc hin.sending (hrun.ordered hok') hfresh hstep).giveTurn .writer
    · have hsilent := (hrun.answers hok).silent
      rcases hr with rfl | rfl
      · exact hc.reader hin huc hcl hfresh hfresh' hsilent hstep
      · have hnext : Secure r := hc.reader hin huc hcl hfresh hfresh' hsilent hstep
        exact hnext.giveTurn .reader
    · exact hc.timer huc hin.sending (hrun.disarmed hok') ht hwhen hstep
  | @event c earlier h hrest ev hok'' ih =>
    cases hs
    have hc : Secure c := ih (fun d hd => hu d (List.mem_cons_of_mem _ hd)) rfl
    have huc : c.Undisturbed := hu c (by simp)
    have hu' := hu _ List.mem_cons_self
    obtain ⟨_, hrun'⟩ := (h.event hrest ev hok'').run
    have hnext : (c.accept ev).1.Undisturbed :=
      ⟨hu'.quota, hu'.maxWrite, hu'.writeFault, hu'.takes, hu'.flushFault, hu'.fault, hu'.ended,
        hu'.held, hu'.closing⟩
    have hfresh : (c.accept ev).1.Fresh := hrun'.fresh hok'
    exact (hc.event (h.inOrder hok') huc hrest (hev hok'') hnext hfresh).giveTurn .reader

/-- At rest all pings have been answered, unless a data frame has been handed in in part. -/
theorem pongsOnWire_at_rest (h : Driven ok (e :: past)) (hok : ∀ c, ok (.write c) → c.NoPong)
    (hu : ∀ d ∈ e :: past, d.Undisturbed) (hrest : e.tick = none)
    (hdone : e.outbox.frame.remaining = 0) : e.pongsOnWire = e.reader.told .ping := by
  have hok' : ∀ c : WriteCall, ok (.write c) → c.Within fun _ _ => True := fun c _ => c.within_any
  have hsecure := h.secure hok hu
  have hue : e.Undisturbed := hu e List.mem_cons_self
  obtain ⟨_, hrun⟩ := h.run
  have hin := hrun.inOrder hok'
  have hsend := hin.sending
  have hordered := hrun.ordered hok'
  have hanswers := hrun.answers hok
  have hfront := pongsOnWire_front hsend hordered
  have hback := prefix_pongsOnWire hsend hordered (hsecure.pongsOut hsend hue hrest hdone)
  have hsame : e.pongsOnWire = e.submitted.pongs :=
    hfront.eq_of_length (Nat.le_antisymm hfront.length_le hback.length_le)
  have hnone : e.reader.stage.unanswered = [] := by
    cases hs : e.reader.stage with
    | header | data | control => rfl
    | answer payload =>
      -- the reader would go on, as there is no pong that it waits for
      obtain ⟨hfin, hreading⟩ := hsecure.asks payload hs
      have hease : AtEase e := ⟨hrest, (hsecure.unfinished hfin).1, hue.quota⟩
      have hheld : e.outgoing.held = [] := (hease.cleared hsend hdone).outstanding
      exact absurd hs ((awaitsInput_of_held hrest hreading hheld).unanswered payload)
  have hall := hanswers.all hue.closing
  rw [hnone, List.append_nil] at hall
  exact hsame.trans hall

/-- Every ping is answered once and in order, if the application does not send pongs itself: at any
moment the pongs on the wire have the payloads of the pings taken, from the first of them on. At
rest they have the payloads of all of them, if nothing keeps the end from answering and no data
frame has been handed in in part. -/
theorem pings_answered_of_run (hok : ∀ c, ok (.write c) → c.NoPong) :
    (Run ok (e :: past) → e.pongsOnWire <+: e.reader.told .ping) ∧
      (Driven ok (e :: past) → (∀ d ∈ e :: past, d.Undisturbed) → e.tick = none →
        e.outbox.frame.remaining = 0 → e.pongsOnWire = e.reader.told .ping) := by
  refine ⟨fun h => ?_, fun h => pongsOnWire_at_rest h hok⟩
  have hok' : ∀ c : WriteCall, ok (.write c) → c.Within fun _ _ => True := fun c _ => c.within_any
  exact (pongsOnWire_front (h.inOrder hok').sending (h.ordered hok')).trans (h.answers hok).front

/-- A server that takes three bytes at a time is given two pings, a pong and a frame with a reserved
bit set, while the first message of its application is on the way. -/
theorem pings_answered_of_run_burst :
    ∃ (e : Endpoint) (past : List Endpoint),
      Driven (∀ c, · ≠ .write (.pong c)) (e :: past) ∧
      (∀ d ∈ e :: past, d.Undisturbed) ∧ e.tick = none ∧ e.life.closed = true ∧
      e.reader.told .ping = [[0x31], []] ∧ e.pongsOnWire = e.reader.told .ping := by
  have h0 : Driven (∀ c, · ≠ .write (.pong c))
      [opened .server .none (fun _ => .zero) none (some 3)] := .start _ _ _ _ _ nofun
  obtain ⟨e, past, h, hrest, hy⟩ := h0.drive (n := 60)
    (f := fun states => (states.all fun d => decide d.Undisturbed) && states.head?.any fun e =>
      e.outbox.frame.remaining == 0 && e.life.closed && e.reader.told .ping == [[0x31], []])
    (Option.isNone_iff_eq_none.mp (by decide +kernel))
    (show ∀ ev ∈ [Event.write (.message [0x61] true), .read .all,
      .feed [0x89, 0x81, 0, 0, 0, 0, 0x31, 0x89, 0x80, 0, 0, 0, 0, 0x8a, 0x80, 0, 0, 0, 0, 0xf0]],
      ∀ c, ev ≠ .write (.pong c) by simp) (y := true) (by decide +kernel)
  obtain ⟨hall, hlast⟩ := Bool.and_eq_true_iff.mp hy
  have hu : ∀ d ∈ e :: past, d.Undisturbed := fun d hd =>
    of_decide_eq_true (List.all_eq_true.mp hall d hd)
  obtain ⟨⟨hdone, hclosed⟩, htold⟩ := by
    simpa only [List.head?_cons, Option.any_some, Bool.and_eq_true, beq_iff_eq] using hlast
  have hsilent : ∀ c, (∀ b, Event.write c ≠ .write (.pong b)) → c.NoPong :=
    fun c hc b he => hc b (congrArg Event.write he)
  exact ⟨e, past, h, hu, hrest, hclosed, htold,
    (pings_answered_of_run hsilent).2 h hu hrest hdone⟩

end Endpoint

end WebSocket
