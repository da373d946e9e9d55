import WebSocket.Proofs.Completions
import WebSocket.Proofs.Endpoint.Driven
import WebSocket.Proofs.Endpoint.Timer

/-! After a teardown. Whatever was going on, the connection stays closed: nothing more is written,
calls are refused, reads come to their end, and at rest nothing is left undone. -/

namespace WebSocket.Endpoint

/-- The connection is closed in the state `d`, and the state `e` comes later. -/
structure Final (d e : Endpoint) : Prop where
  closed : e.life.closed = true
  wire : e.transport.wire = d.transport.wire
  refuses : ∀ c, e.write c = (e, .error .connectionClosed)
  accepted : e.outbox.nextSerial = d.outbox.nextSerial
  timer : e.life.timer = none
  /-- Reads that come to an end do so without a message or an error. One that is outstanding stays
  so or ends, unless the application lets go of the connection. -/
  reads : ∃ n, e.reader.reads.toList = d.reader.reads.toList ++ List.replicate n .ended ∧
    (d.reader.reading.isSome = true → e.held = true → e.reader.reading.isSome = true ∨ 0 < n)
  ends : e.reader.reading.isSome = true → e.readerStep = some (e.endRead .ended)
  input : d.reader.input.bytes <+: e.reader.input.bytes

structure WoundUp (e : Endpoint) : Prop where
  resolved : (e.ended.map (·.job.serial)).Perm (List.range e.outbox.nextSerial)
  outstanding : e.outstanding = []
  free : e.pending = []
  shutDown : e.transport.shutDown = true
  reading : e.reader.reading = none

structure TornDown (states : List Endpoint) (e : Endpoint) : Prop where
  final : ∀ d ∈ states, d.life.closed = true → Final d e
  rest : e.life.closed = true → e.tick = none → WoundUp e
  /-- As the connection is closed no read ends but one that is the cause of it. -/
  cause : ∀ d d', Passes states d d' → d.life.closed = false → d'.life.closed = true →
    d'.reader.reads = d.reader.reads ∨ d.readerStep = some d' ∧
      ∃ r, (r = .ended ∨ ∃ err, r = .failed err) ∧ d'.reader.reads = d.reader.reads.push r

variable {ok : Event → Prop} {fits : Nat → Nat → Prop} {e e' d d' : Endpoint}
  {past : List Endpoint}

theorem readerStep_of_closed (hc : e.life.closed = true) (hr : e.reader.reading.isSome = true) :
    e.readerStep = some (e.endRead .ended) := by
  obtain ⟨m, hm⟩ := Option.isSome_iff_exists.mp hr
  simp [readerStep, hm, hc]

/-! What a step does after a teardown. -/

/-- What becomes of a closed connection. -/
structure Ebbs (d e : Endpoint) : Prop where
  closed : e.life.closed = true
  wire : e.transport.wire = d.transport.wire
  accepted : e.outbox.nextSerial = d.outbox.nextSerial
  held : e.held = true → d.held = true
  reads : ∃ n, e.reader.reads.toList = d.reader.reads.toList ++ List.replicate n .ended ∧
    (d.reader.reading.isSome = true → e.held = true → e.reader.reading.isSome = true ∨ 0 < n)
  input : d.reader.input.bytes <+: e.reader.input.bytes

theorem Ebbs.of_reader (hc : e.life.closed = true) (hw : e.transport.wire = d.transport.wire)
    (hn : e.outbox.nextSerial = d.outbox.nextSerial) (hh : e.held = d.held)
    (hr : e.reader = d.reader) : Ebbs d e := by
  refine ⟨hc, hw, hn, fun h => hh ▸ h, ⟨0, by simp [hr], ?_⟩, hr ▸ List.prefix_rfl⟩
  intro hreading _
  exact .inl (hr ▸ hreading)

theorem Ebbs.trans {e'' : Endpoint} (h : Ebbs e e') (h' : Ebbs e' e'') : Ebbs e e'' := by
  obtain ⟨n, hreads, hread⟩ := h.reads
  obtain ⟨n', hreads', hread'⟩ := h'.reads
  refine ⟨h'.closed, h'.wire.trans h.wire, h'.accepted.trans h.accepted,
    fun hh => h.held (h'.held hh), ⟨n + n', ?_, ?_⟩, h.input.trans h'.input⟩
  · rw [hreads', hreads, List.append_assoc, List.replicate_append_replicate]
  · intro hr hh
    rcases hread hr (h'.held hh) with hr' | hpos
    · rcases hread' hr' hh with hr'' | hpos
      · exact .inl hr''
      · exact .inr (by omega)
    · exact .inr (by omega)

theorem accept_ebbs (hc : e.life.closed = true) (ev : Event) : Ebbs e (e.accept ev).1 := by
  cases ev with
  | write c =>
    rw [fst_accept_write, write_of_closed hc]
    split <;> exact .of_reader hc rfl rfl rfl rfl
  | read m =>
    unfold accept
    dsimp only
    split
    · exact ⟨hc, rfl, rfl, id, ⟨0, by simp, fun _ _ => .inl rfl⟩, List.prefix_rfl⟩
    · exact .of_reader hc rfl rfl rfl rfl
  | feed b =>
    exact ⟨hc, rfl, rfl, id, ⟨0, by simp [accept, onInput], fun hr _ => .inl hr⟩,
      List.prefix_append _ _⟩
  | endInput | failInput =>
    exact ⟨hc, rfl, rfl, id, ⟨0, by simp [accept, onInput], fun hr _ => .inl hr⟩, List.prefix_rfl⟩
  | drop =>
    refine ⟨hc, rfl, rfl, fun h => absurd h Bool.false_ne_true, ⟨0, by simp [accept], ?_⟩,
      List.prefix_rfl⟩
    exact fun _ h => absurd h Bool.false_ne_true
  | _ => exact .of_reader hc rfl rfl rfl rfl

theorem endRead_ebbs (hc : e.life.closed = true) : Ebbs e (e.endRead .ended) :=
  ⟨hc, rfl, rfl, id, ⟨1, by simp [endRead], fun _ _ => .inr Nat.one_pos⟩, List.prefix_rfl⟩

theorem writerStep_of_closed (hc : e.life.closed = true) (h : e.writerStep = some e') :
    ∃ d : Endpoint, e' = d.stop ∧ d.transport = e.transport := by
  have hshut : ¬ e.life.closed = false := by simp [hc]
  cases writerStep_cases h with
  | cut job => exact ⟨_, rfl, rfl⟩
  | stop => exact ⟨e, rfl, rfl⟩
  | fail _ _ _ _ hopen | complete _ _ hopen => exact absurd hopen hshut
  | put _ _ _ _ _ hopen => exact absurd hopen hshut
  | takeHeld _ _ _ hopen | takeNew _ _ _ hopen => exact absurd hopen hshut

theorem Step.ebbs (hs : Step ok e e') (h : e.InOrder fits)
    (hok : ∀ c, ok (.write c) → c.Within fits) (hc : e.life.closed = true) : Ebbs e e' := by
  have hclosed := hs.closed h hok hc
  have hserial := hs.nextSerial_of_closed h hok hc
  cases hs with
  | event ev => exact accept_ebbs hc ev
  | reader hr =>
    obtain rfl := readerStep_of_over (by simp [hc]) hr
    exact endRead_ebbs hc
  | writer hw =>
    obtain ⟨d, rfl, hd⟩ := writerStep_of_closed hc hw
    have hwire : d.stop.transport.wire = d.transport.wire :=
      congrArg Outgoing.wire (outgoing_stop d)
    exact .of_reader hclosed (by rw [hwire, hd]) hserial (writerStep_settings hw).2.2.2
      (sendingWork_writerStep hw).1
  | timer ht =>
    have hreaction : Reaction fits e e' := timerStep_reaction ht
    exact .of_reader hclosed hreaction.wire hserial hreaction.held (sendingWork_timerStep ht).1
  | turn => exact .of_reader hc rfl rfl rfl rfl

/-! The stream is shut down as the writer ends. -/

theorem writerStep_stopped (h : e.writerStep = some e') (hs : e'.writer.state = .stopped) :
    e'.transport.shutDown = true := by
  cases writerStep_cases h with
  | cut | fail | stop => rfl
  | complete job =>
    unfold Endpoint.complete at hs ⊢
    dsimp only at hs ⊢
    split at hs
    · next hl =>
      rw [if_pos hl]
      rfl
    · split at hs <;> cases hs
  | put => cases hs
  | takeHeld job rest hidle | takeNew job rest hidle =>
    unfold takeUp at hs
    split at hs
    · exact absurd (hidle.symm.trans hs) (by simp)
    · split at hs
      · exact absurd (hidle.symm.trans hs) (by simp)
      · cases hs

theorem shutDown_accept (h : e.Sending fits) {ev : Event}
    (hev : ∀ c, ev = .write c → c.Within fits) :
    (e.accept ev).1.transport.shutDown = e.transport.shutDown := by
  cases ev with
  | write c => rw [(accept_write_acts h (hev c rfl)).reaction.transport]
  | read m =>
    unfold accept
    dsimp only
    split <;> rfl
  | _ => rfl

theorem Run.shutDown (h : Run ok (e :: past)) (hok : ∀ c, ok (.write c) → c.Within fits) :
    e.writer.state = .stopped → e.transport.shutDown = true := by
  refine h.always (Q := fun _ c => c.writer.state = .stopped → c.transport.shutDown = true) hok
    ?_ ?_
  · intro config callbacks keys quota maxWrite hcalls hstopped
    have hwriter := (opened_acts config callbacks keys quota maxWrite hcalls).reaction.writer
    cases (congrArg Writer.state hwriter).symm.trans hstopped
  · intro d d' past' _ hin hstep hshut
    have hkept : ∀ {c : Endpoint}, c.writer = d.writer →
        c.transport.shutDown = d.transport.shutDown → c.writer.state = .stopped →
        c.transport.shutDown = true := by
      intro c hw hsame hstopped
      rw [hsame]
      exact hshut (hw ▸ hstopped)
    cases hstep with
    | event ev hev =>
      have hev : ∀ c, ev = .write c → c.Within fits := fun c hc => hok c (hc ▸ hev)
      exact hkept (accept_shift hin.sending hev).writer (shutDown_accept hin.sending hev)
    | reader hr =>
      have hreaction := (readerStep_acts hin.sending hin.stage hin.calls hr).reaction
      exact hkept hreaction.writer (congrArg Transport.shutDown hreaction.transport)
    | writer hw => exact writerStep_stopped hw
    | timer ht =>
      have hreaction : Reaction fits d d' := timerStep_reaction ht
      exact hkept hreaction.writer (congrArg Transport.shutDown hreaction.transport)
    | turn => exact hkept rfl rfl

/-! A read that tears the connection down comes to an end. -/

def EndsRead (e e' : Endpoint) : Prop :=
  ∃ r, (r = .ended ∨ ∃ err, r = .failed err) ∧ e'.reader.reads = e.reader.reads.push r

/-- A step of the reader that tears the connection down ends the read. -/
def Owns (e e' : Endpoint) : Prop := e'.life.closed = e.life.closed ∨ EndsRead e e'

theorem rejectPeer_owns (d : Endpoint) (v : Violation) (hr : d.reader.reads = e.reader.reads) :
    Owns e (d.rejectPeer v) := by
  refine .inr ⟨.failed v.toError, .inr ⟨_, rfl⟩, ?_⟩
  rw [reader_rejectPeer, ← hr]
  rfl

theorem failRead_owns (e : Endpoint) (f : Fault) : Owns e (e.failRead f) := by
  refine .inr ⟨.failed (.fault f), .inr ⟨_, rfl⟩, ?_⟩
  rw [reader_failRead]
  rfl

theorem endOfStream_owns (e : Endpoint) : Owns e e.endOfStream := by
  unfold endOfStream
  split
  · exact failRead_owns e _
  · split
    · exact failRead_owns e _
    · exact .inr ⟨.ended, .inl rfl, by simp [endRead]⟩

theorem readHeaderPiece_owns (e : Endpoint) (p : HeaderProgress) (piece : Bytes) :
    Owns e (e.readHeaderPiece p piece) := by
  unfold readHeaderPiece
  split
  · exact rejectPeer_owns e _ rfl
  · exact .inl rfl
  · unfold openFrame
    split
    · exact rejectPeer_owns e _ rfl
    · exact .inl rfl
    · split
      · exact .inl rfl
      · exact rejectPeer_owns e _ rfl

theorem deliverText_owns (e : Endpoint) (c : Chunk) : Owns e (e.deliverText c) := by
  unfold deliverText
  dsimp only
  split
  · exact rejectPeer_owns _ _ rfl
  · split
    · exact rejectPeer_owns _ _ rfl
    · exact .inl rfl

theorem readData_owns (e : Endpoint) (f : IncomingFrame) (piece : Bytes) :
    Owns e (e.readData f piece) := by
  have htext : ∀ stage c, Owns e ((e.setStage stage).deliverText c) := fun stage c =>
    deliverText_owns (e.setStage stage) c
  unfold readData
  dsimp only
  by_cases hb : f.kind.isBinary = true
  · rw [if_pos hb]
    exact .inl rfl
  · rw [if_neg hb]
    exact htext _ _

theorem readControl_owns (h : e.Sending fits) (hcalls : ∀ c ∈ e.callbacks.calls, c.Within fits)
    (hd : Header) (piece : Bytes) : Owns e (e.readControl hd piece) := by
  unfold readControl
  split
  · exact rejectPeer_owns e _ rfl
  · exact .inl rfl
  · next c _ =>
    cases c with
    | close p =>
      unfold handleControl
      dsimp only
      split
      · exact .inr ⟨.ended, .inl rfl, by simp [endRead]⟩
      · exact .inr ⟨.ended, .inl rfl, by simp [endRead, notify]⟩
    | ping payload => exact .inl (notify_plain h hcalls (.ping payload)).2
    | pong payload => exact .inl (notify_plain h hcalls (.pong payload)).2

theorem readerStep_owns (h : e.InOrder fits) (hstep : e.readerStep = some e') : Owns e e' := by
  have hsame : ∀ rest {c}, Owns (e.setInput rest) c → Owns e c := fun _ _ hc => hc
  cases (readerStep_cases hstep).2 with
  | leave => exact .inl rfl
  | fail f => exact failRead_owns e f
  | finish => exact endOfStream_owns e
  | header p piece rest => exact hsame rest (readHeaderPiece_owns _ p piece)
  | data f piece rest => exact hsame rest (readData_owns _ f piece)
  | control c piece rest =>
    have hinput : Shift fits e (e.setInput rest) := .of_same rfl rfl rfl
    exact hsame rest (readControl_owns (h.sending.shift hinput) h.calls c piece)
  | answer payload hopen hs =>
    have hlen : payload.length ≤ maxControlPayload := by
      have := h.stage
      rwa [hs] at this
    exact .inl (queuePong_entered h.sending hlen).closed

theorem stopped_of_rest (hc : e.life.closed = true) (h : e.writerStep = none) :
    e.writer.state = .stopped := by
  unfold writerStep at h
  split at h
  · next hs => exact hs
  · rw [if_pos hc] at h
    cases h
  · rw [if_pos hc] at h
    cases h

theorem Run.woundUp (h : Run ok (e :: past)) (hok : ∀ c, ok (.write c) → c.Within fits)
    (hc : e.life.closed = true) (hrest : e.tick = none) : WoundUp e := by
  have hsend := (h.inOrder hok).sending
  obtain ⟨hread, hwrite, -⟩ := waits_of_tick hrest
  have hstopped := stopped_of_rest hc hwrite
  have hnone : e.outstanding = [] := by
    rw [outstanding, Outgoing.held, Outgoing.inHand_stopped hstopped,
      (hsend.phased.stopped hstopped).2]
    rfl
  refine ⟨resolved_of_outstanding hsend hnone, hnone, pending_of_outstanding hsend hnone,
    h.shutDown hok hstopped, ?_⟩
  by_contra hne
  rw [readerStep_of_closed hc (Option.ne_none_iff_isSome.mp hne)] at hread
  cases hread

/-- In every run a teardown is final, whatever was the cause of it and whatever was under way. No
byte is written from then on, calls are refused, reads end, the timer is off, and at rest all writes
have ended and the stream is shut down. -/
theorem tornDown_of_run (h : Run (fun _ => True) (e :: past)) : TornDown (e :: past) e := by
  have hok : ∀ c : WriteCall, True → c.Within fun _ _ => True := fun c _ => c.within_any
  refine ⟨?_, h.woundUp hok, ?_⟩
  · intro d hd hc
    have hebbs : Ebbs d e := by
      refine h.onward (Q := fun c => Ebbs d c) hd (.of_reader hc rfl rfl rfl rfl) ?_
      intro c c' earlier hrun _ hs hebbs
      exact hebbs.trans (hs.ebbs (hrun.inOrder hok) hok hebbs.closed)
    exact ⟨hebbs.closed, hebbs.wire, write_of_closed hebbs.closed, hebbs.accepted,
      h.disarmed hok hebbs.closed, hebbs.reads, readerStep_of_closed hebbs.closed, hebbs.input⟩
  · intro d d' hp hopen hclosed
    obtain ⟨-, hs, earlier, hrun⟩ := h.of_passes hp
    cases hs with
    | event ev => exact .inl (reads_accept d ev).1
    | reader hr =>
      rcases readerStep_owns (hrun.inOrder hok) hr with hsame | hends
      · exact absurd (hopen.symm.trans (hsame.symm.trans hclosed)) Bool.false_ne_true
      · exact .inr ⟨hr, hends⟩
    | writer hw => exact .inl (by rw [(sendingWork_writerStep hw).1])
    | timer ht => exact .inl (by rw [(sendingWork_timerStep ht).1])
    | turn => exact .inl rfl

/-- A server that is torn down by its timer with a part of a message on the wire, a job stalled on
the stream, others held back or queued, and a read outstanding. The stream then takes everything. -/
theorem tornDown_of_run_stalled :
    ∃ (e : Endpoint) (past : List Endpoint), Run (fun _ => True) (e :: past) ∧
      e.life.closed = true ∧ e.tick = none ∧
      e.transport.wire.toList = [0x82, 0x04, 0x61, 0x62, 0x63] ∧
      e.ended.map (·.job.kind) = [.message, .continuation, .ping, .pong, .close] ∧
      e.ended.map (·.outcome) = [.written, .aborted, .aborted, .aborted, .aborted] ∧
      e.reader.reads.toList = [.ended, .ended] ∧ TornDown (e :: past) e := by
  have h : Run (fun _ => True) [opened .server .none (fun _ => .zero) (some 5) none] :=
    .start _ _ _ _ _ fun _ _ => trivial
  obtain ⟨e, past, h, hy⟩ := h.handleAll (n := 16)
    (f := fun e => ((e.life.closed, e.tick.isNone, e.transport.wire.toList),
      e.ended.map (·.job.kind), e.ended.map (·.outcome), e.reader.reads.toList))
    [.write (.firstChunk 4 [0x61, 0x62] true true), .write (.ping []),
      .write (.continuation [0x63, 0x64]), .write (.pong []), .read .all,
      .write (.close .normal "" true), .advance 5000, .allow none, .read .once]
    (fun _ _ => trivial)
    (y := ((true, true, [0x82, 0x04, 0x61, 0x62, 0x63]),
      [.message, .continuation, .ping, .pong, .close],
      [.written, .aborted, .aborted, .aborted, .aborted], [.ended, .ended]))
    (by decide +kernel)
  obtain ⟨⟨hclosed, hrest, hwire⟩, hkinds, houtcomes, hreads⟩ := by
    simpa only [Prod.mk.injEq] using hy
  exact ⟨e, past, h, hclosed, Option.isNone_iff_eq_none.mp hrest, hwire, hkinds, houtcomes, hreads,
    tornDown_of_run h⟩

end WebSocket.Endpoint
