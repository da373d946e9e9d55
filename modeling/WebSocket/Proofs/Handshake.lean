import WebSocket.Proofs.CloseReply
import WebSocket.Proofs.Delivery.Reading
import WebSocket.Proofs.Delivery.Submitted
import WebSocket.Proofs.Reports

/-! The close handshake at one end. The stream takes every write at once, the callbacks make no
calls, and the close timer is never due. Such an end has nothing to read while a close frame of its
own is unsent. So it is torn down with a close frame written, whichever end was the first to
close. -/

namespace WebSocket

/-- The application makes calls, reads, or time goes by, or something comes in. The stream below
stays as it is, and the application keeps its hold. -/
def Event.Ordinary (fits : Nat → Nat → Prop) : Event → Prop
  | write c => c.Within fits
  | read _ | feed _ | advance _ => True
  | endInput | failInput _ | allow _ | failWrites _ | takeNothing | failFlushes _ | drop => False

/-- A data frame that is handed in whole and that another end takes. -/
def HeaderRules.FitsWhole (r : HeaderRules) (n given : Nat) : Prop :=
  Entire n given ∧ r.Fits n given

def Config.rules (c : Config) : HeaderRules := ⟨c.role, c.maxFrameSize⟩

theorem WriteCall.Within.mono {fits fits' : Nat → Nat → Prop} (h : ∀ n k, fits n k → fits' n k)
    {c : WriteCall} (hc : c.Within fits) : c.Within fits' := by
  cases c with
  | firstChunk | message => exact fun hlen => h _ _ (hc hlen)
  | continuation | ping | pong | close => trivial

namespace Endpoint

open Reader

variable {fits : Nat → Nat → Prop} {e e' d : Endpoint} {ev : Event}

theorem accept_reaction (h : e.Sending fits) (hev : ev.Ordinary fits) :
    Reaction fits e (e.accept ev).1 ∨ ∃ n, ev = .advance n := by
  cases ev with
  | write c =>
    left
    rw [fst_accept_write]
    split
    · exact (write_entered h hev).acts.reaction
    · exact .refl e
  | read m =>
    left
    unfold accept
    dsimp only
    split
    · exact .of_same rfl rfl
    · exact .refl e
  | feed => exact .inl (.of_same rfl rfl)
  | advance n => exact .inr ⟨n, rfl⟩
  | endInput | failInput | allow | failWrites | takeNothing | failFlushes | drop => exact hev.elim

theorem within_of_ordinary (hev : ev.Ordinary fits) (c : WriteCall) (hc : ev = .write c) :
    c.Within fits := by
  subst hc
  exact hev

theorem closed_accept (h : e.Sending fits) (hev : ev.Ordinary fits) :
    (e.accept ev).1.life.closed = e.life.closed := by
  cases ev with
  | write c =>
    rw [fst_accept_write]
    split
    · exact (write_entered h hev).closed
    · rfl
  | read m =>
    unfold accept
    dsimp only
    split <;> rfl
  | feed | advance => rfl
  | endInput | failInput | allow | failWrites | takeNothing | failFlushes | drop => exact hev.elim

theorem feed_or_reader_eq (hev : ev.Ordinary fits) (hreading : e.reader.reading.isSome = true) :
    (∃ b, ev = .feed b) ∨ (e.accept ev).1.reader = e.reader := by
  cases ev with
  | write c =>
    right
    rw [fst_accept_write]
    split
    · exact reader_write e c
    · rfl
  | read m =>
    have hnot : e.isAtHand = false := by
      obtain ⟨m', hm⟩ := Option.isSome_iff_exists.mp hreading
      simp [isAtHand, hm]
    right
    unfold accept
    dsimp only
    rw [if_neg (by simp [hnot])]
  | feed b => exact .inl ⟨b, rfl⟩
  | advance => exact .inr rfl
  | endInput | failInput | allow | failWrites | takeNothing | failFlushes | drop => exact hev.elim

/-! When the callbacks make no calls, the reader hands in the answers to pings and the close frame
that ends the connection. -/

theorem opened_silent {config : Config} {callbacks : Callbacks} {keys : Nat → Key}
    {quota maxWrite : Option Nat} (hsilent : callbacks.calls = []) :
    opened config callbacks keys quota maxWrite =
      fresh config callbacks keys (.fresh quota maxWrite) := by
  have hnone : callbacks.onConnect.getD [] = [] := (List.append_eq_nil_iff.mp hsilent).1
  rw [opened, hnone]
  rfl

theorem notify_silent (hsilent : e.callbacks.calls = []) (c : Control) : e.notify c =
    { e with reader := { e.reader with controls := e.reader.controls.push ⟨c, []⟩ } } := by
  have hnone : e.callbacks.onControl.getD [] = [] := (List.append_eq_nil_iff.mp hsilent).2
  rw [notify, hnone]
  rfl

theorem told_silent (hsilent : d.callbacks.calls = []) (p : ClosePayload) (rest : Bytes) :
    (d.told p rest).outgoing = d.outgoing := by
  unfold told
  split
  · rfl
  · rw [notify_silent (e := d.setInput rest) hsilent]
    rfl

theorem readControl_mute (hsilent : e.callbacks.calls = []) (h : Header) (piece : Bytes) :
    Mute e (e.readControl h piece) := by
  unfold readControl
  split
  · exact rejectPeer_mute _ _
  · exact .inr ⟨rfl, rfl⟩
  · next c _ =>
    have hc := notify_silent hsilent c
    cases c with
    | close p =>
      unfold handleControl
      dsimp only
      split <;> exact .inl rfl
    | ping payload | pong payload =>
      unfold handleControl
      dsimp only
      rw [hc]
      exact .inr ⟨rfl, rfl⟩

theorem readerStep_mute (hsilent : e.callbacks.calls = []) (hstep : e.readerStep = some e') :
    Mute e e' ∨ ∃ payload, e.reader.stage = .answer payload ∧ e' = e.answerPing payload := by
  have hsame : ∀ rest {d}, Mute (e.setInput rest) d → Mute e d := fun _ _ hd => hd
  cases (readerStep_cases hstep).2 with
  | leave | fail => exact .inl (.inl rfl)
  | finish =>
    unfold endOfStream
    split
    · exact .inl (.inl rfl)
    · split <;> exact .inl (.inl rfl)
  | header p piece rest => exact .inl (hsame rest (readHeaderPiece_mute _ _ _))
  | data f piece rest => exact .inl (hsame rest (readData_mute _ _ _))
  | control c piece rest =>
    exact .inl (hsame rest (readControl_mute (e := e.setInput rest) hsilent _ _))
  | answer payload hopen hs => exact .inr ⟨payload, hs, rfl⟩

/-- No close frame is handed in, and the connection is not torn down. -/
structure Steady (e e' : Endpoint) : Prop where
  closed : e'.life.closed = e.life.closed
  closing : e'.life.closing = e.life.closing
  busy : e'.outbox.slots.isBusy .close = e.outbox.slots.isBusy .close

theorem Steady.of_same (h : e'.outgoing = e.outgoing) : Steady e e' :=
  ⟨congrArg Outgoing.closed h, congrArg Outgoing.closing h,
    congrArg (fun o => o.outbox.slots.isBusy .close) h⟩

theorem Entered.steady {makes : Job → Prop} {a : Attempt} (h : Entered fits makes e a)
    (hmakes : ∀ j, makes j → j.kind ≠ .close) : Steady e a.1 := by
  cases h with
  | refused => exact .of_same rfl
  | accepted j f keys timer hj hm =>
    have hk : j.kind ≠ .close := hmakes j hm
    refine ⟨rfl, ?_, ?_⟩
    · show (e.life.closing || (j.kind == .close && !j.last)) = e.life.closing
      simp [hk]
    · show (e.outbox.slots.set j.kind true).isBusy .close = _
      rw [Slots.isBusy_set, if_neg hk.symm]

/-- As long as reading goes on, the reader hands in answers to pings only. -/
theorem readerStep_steady (h : e.InOrder fits) (hsilent : e.callbacks.calls = [])
    (hstep : e.readerStep = some e') (hfin : e'.reader.finished = false) : Steady e e' := by
  rcases readerStep_mute hsilent hstep with (hend | ⟨-, ho⟩) | ⟨payload, hs, rfl⟩
  · exact absurd (hfin.symm.trans hend) Bool.false_ne_true
  · exact .of_same ho
  · have hlen := h.stage
    rw [hs] at hlen
    have hentered := (queuePong_entered h.sending hlen).steady fun j hj => by simp [hj.1]
    exact ⟨hentered.closed, hentered.closing, hentered.busy⟩

structure AwaitsInput (e : Endpoint) : Prop where
  waits : ReaderWaits e
  unanswered : ∀ payload, e.reader.stage ≠ .answer payload

theorem AwaitsInput.congr (h : AwaitsInput e) (hr : e'.reader = e.reader)
    (hc : e'.config = e.config) : AwaitsInput e' := by
  refine ⟨?_, by rw [hr]; exact h.unanswered⟩
  cases h.waits with
  | header p hs ht => exact .header p (by rw [hr, hs]) (by rw [hr, ht])
  | data f hs ht => exact .data f (by rw [hr, hs]) (by rw [hr, hc, ht])
  | control c hs ht => exact .control c (by rw [hr, hs]) (by rw [hr, ht])
  | answer payload hs => exact absurd hs (h.unanswered payload)

/-! Time. -/

/-- So much time may go by before the close timer is due, be it armed by now or later. From the last
moment on a timer is due as soon as it is armed. -/
def Spares (e : Endpoint) (n : Nat) : Prop :=
  e.life.clock + n < Timer.latest ∧ ∀ t, e.life.timer = some t → e.life.clock + n < t.deadline

theorem Spares.early (h : e.Spares 0) : e.Early := h.2

theorem Spares.rearm (h : e.Spares 0) (htimeout : e.config.closeTimeout.toNat ≠ 0)
    (hclock : e'.life.clock = e.life.clock) (htimer : e.Rearmed e'.life.timer) : e'.Spares 0 := by
  rw [Spares, hclock]
  generalize e'.life.timer = timer at htimer
  refine ⟨h.1, ?_⟩
  intro t ht
  subst ht
  generalize hs : some t = timer at htimer
  cases htimer with
  | kept => exact h.2 t hs.symm
  | off => simp at hs
  | armed afterWriter =>
    cases hs
    exact lt_deadline htimeout h.1 afterWriter

theorem Spares.keep (h : e.Spares 0) (ht : KeepsTime e.life e'.life) : e'.Spares 0 := by
  rw [Spares, ht.clock]
  refine ⟨h.1, ?_⟩
  rcases ht.timer with ht | ht
  · rw [ht]
    exact h.2
  · rw [ht]
    intro t hnone
    simp at hnone

/-! What holds at such an end throughout. -/

theorem pongOutstanding_of_held (h : e.outgoing.held = []) : e.pongOutstanding = false := by
  have hout : ∀ n, e.isOutstanding n = false := by
    intro n
    rw [← Bool.not_eq_true, isOutstanding_iff, h]
    simp
  unfold pongOutstanding
  cases e.reader.lastPong with
  | none => rfl
  | some n => exact hout n

theorem awaitsInput_of_held (hrest : e.tick = none) (hreading : e.reader.reading.isSome = true)
    (hheld : e.outgoing.held = []) : AwaitsInput e := by
  have hwaits := (waits_of_readerStep (waits_of_tick hrest).1 hreading).2
  refine ⟨hwaits, fun payload hs => ?_⟩
  cases hwaits with
  | header p hs' | data f hs' | control c hs' => exact absurd (hs'.symm.trans hs) (by simp)
  | answer q hs' hp =>
    exact absurd (hp.symm.trans (pongOutstanding_of_held hheld)) (by simp)

/-- An end on a stream that takes every write at once. Its application hands in whole frames that
the peer takes, its callbacks make no calls, and the close timer is not due. -/
structure Engaged (own peer : Config) (e : Endpoint) : Prop where
  driven : ∃ past, Driven (Event.Ordinary peer.rules.FitsWhole) (e :: past) ∧
    ∀ d ∈ e :: past, d.transport.Willing
  config : e.config = own
  held : e.held = true
  silent : e.callbacks.calls = []
  timeout : own.closeTimeout.toNat ≠ 0
  time : e.Spares 0

namespace Engaged

variable {own peer : Config}

theorem inOrder (h : Engaged own peer e) (hfits : ∀ n k, peer.rules.FitsWhole n k → fits n k) :
    e.InOrder fits := by
  obtain ⟨past, hd, -⟩ := h.driven
  exact hd.inOrder fun c hc => WriteCall.Within.mono hfits hc

theorem whole (h : Engaged own peer e) : e.InOrder Entire := h.inOrder fun _ _ => And.left

theorem willing (h : Engaged own peer e) : e.transport.Willing := by
  obtain ⟨past, -, hw⟩ := h.driven
  exact hw e List.mem_cons_self

theorem prompt (h : Engaged own peer e) : e.Prompt := by
  obtain ⟨past, hd, hw⟩ := h.driven
  exact hd.prompt (fun c hc => WriteCall.Within.mono (fun _ _ => And.left) hc) hw

theorem early (h : Engaged own peer e) : e.Early := h.time.early

theorem tick (h : Engaged own peer e) (ht : e.tick = some e') : Engaged own peer e' := by
  obtain ⟨past, hd, hw⟩ := h.driven
  have htimeout : e.config.closeTimeout.toNat ≠ 0 := h.config ▸ h.timeout
  suffices e'.transport.Willing ∧ e'.config = e.config ∧ e'.held = e.held ∧
      e'.callbacks = e.callbacks ∧ e'.Spares 0 by
    obtain ⟨hwilling, hconfig, hheld, hcallbacks, htime⟩ := this
    refine ⟨⟨e :: past, hd.tick ht, ?_⟩, hconfig.trans h.config, hheld.trans h.held,
      by rw [hcallbacks, h.silent], h.timeout, htime⟩
    intro d hm
    rcases List.mem_cons.mp hm with rfl | hm
    · exact hwilling
    · exact hw d hm
  rcases tick_cases ht with ⟨w, hstep, rfl⟩ | ⟨d, hstep, hsame, -⟩
  · obtain ⟨hconfig, hcallbacks, -, hheld⟩ := writerStep_settings hstep
    have hwilling : w.transport.Willing := writerStep_willing h.willing hstep
    have htime : w.Spares 0 := h.time.keep (writerStep_time hstep)
    exact ⟨hwilling, hconfig, hheld, hcallbacks, htime⟩
  · have hreaction := h.whole.reaction hstep
    have hwilling : d.transport.Willing := hreaction.transport ▸ h.willing
    have htime : d.Spares 0 := h.time.rearm htimeout hreaction.clock hreaction.timer
    rcases hsame with rfl | rfl
    · exact ⟨hwilling, hreaction.config, hreaction.held, hreaction.callbacks, htime⟩
    · exact ⟨hwilling, hreaction.config, hreaction.held, hreaction.callbacks, htime⟩

theorem event (h : Engaged own peer e) (hrest : e.tick = none)
    (hev : ev.Ordinary peer.rules.FitsWhole) (htime : ∀ n, ev = .advance n → e.Spares n) :
    Engaged own peer ((e.accept ev).1.giveTurn .reader) := by
  obtain ⟨past, hd, hw⟩ := h.driven
  have htimeout : e.config.closeTimeout.toNat ≠ 0 := h.config ▸ h.timeout
  suffices (e.accept ev).1.transport = e.transport ∧ (e.accept ev).1.config = e.config ∧
      (e.accept ev).1.held = e.held ∧ (e.accept ev).1.callbacks = e.callbacks ∧
      (e.accept ev).1.Spares 0 by
    obtain ⟨htransport, hconfig, hheld, hcallbacks, hspares⟩ := this
    refine ⟨⟨e :: past, hd.event hrest ev hev, ?_⟩, hconfig.trans h.config, hheld.trans h.held,
      (congrArg Callbacks.calls hcallbacks).trans h.silent, h.timeout, hspares⟩
    intro d hm
    rcases List.mem_cons.mp hm with rfl | hm
    · exact htransport ▸ h.willing
    · exact hw d hm
  rcases accept_reaction (h.inOrder fun _ _ => id).sending hev with hreaction | ⟨n, rfl⟩
  · exact ⟨hreaction.transport, hreaction.config, hreaction.held, hreaction.callbacks,
      h.time.rearm htimeout hreaction.clock hreaction.timer⟩
  · exact ⟨rfl, rfl, rfl, rfl, htime n rfl⟩

theorem held_eq_nil (h : Engaged own peer e) (hrest : e.tick = none)
    (hopen : e.life.closed = false) : e.outgoing.held = [] :=
  held_of_waits h.whole.sending h.willing h.prompt.deferred hopen (waits_of_tick hrest).2.1

theorem not_answering (h : Engaged own peer e) (hrest : e.tick = none) : ¬ Answering e := by
  intro ha
  obtain ⟨j, hj, -⟩ := ha.answer
  rw [h.held_eq_nil hrest ha.opened] at hj
  simp at hj

theorem awaitsInput (h : Engaged own peer e) (hrest : e.tick = none) (hopen : e.life.closed = false)
    (hreading : e.reader.reading.isSome = true) : AwaitsInput e :=
  awaitsInput_of_held hrest hreading (h.held_eq_nil hrest hopen)

theorem over_of_write (h : Engaged own peer e) (hopen : e.life.closed = false)
    (hstep : e.writerStep = some e') (hclosed : e'.life.closed = true) : Over true e' := by
  have hstays : e'.life = e.life → Over true e' := fun hl =>
    absurd ((congrArg Life.closed hl).symm.trans hclosed) (by simp [hopen])
  cases writerStep_cases hstep with
  | cut job unsent hs hshut => exact absurd (hopen.symm.trans hshut) Bool.false_ne_true
  | fail job unsent f hs _ hf =>
    rcases hf with hf | ⟨hne, hf⟩
    · exact absurd (h.willing.flushFault.symm.trans hf) (by simp)
    · exact absurd ((h.willing.write hne).symm.trans hf) (by simp)
  | complete job hs =>
    have ho := outgoing_complete e job
    by_cases hl : job.last = true
    · rw [if_pos hl] at ho
      have hwritten : (e.complete job).outgoing.written = e.outgoing.written ++ [job] := by
        rw [ho, Outgoing.written_stop, Outgoing.written_complete]
      refine ⟨hclosed, by rw [ho]; exact Outgoing.inHand_stopped rfl, fun _ => ?_, fun _ => rfl⟩
      exact ⟨job, by simp [hwritten], h.whole.sending.kind_of_last hs hl⟩
    · rw [if_neg hl] at ho
      have hsame : (e.complete job).outgoing.closed = e.life.closed := by
        rw [ho]
        split <;> rfl
      exact absurd (hsame.symm.trans hclosed) (by simp [hopen])
  | put => exact hstays rfl
  | takeHeld job | takeNew job => exact hstays (life_takeUp _ job)
  | stop hs hwhy =>
    rcases hwhy with hshut | ⟨hlet, -⟩
    · exact absurd (hopen.symm.trans hshut) Bool.false_ne_true
    · exact absurd (h.held.symm.trans hlet) (by simp)

end Engaged

theorem nextClose_of_step (hstep : e.readerStep = some e') (hopen : e.Listens) {h : Header}
    (hs : e.reader.stage = .control h) (hop : h.opcode = .close)
    (hreads : ∀ err, .failed err ∉ e'.reader.reads) :
    ∃ p rest, e.nextClose = some (p, rest) := by
  have hstage : ∀ {s : Stage}, e.reader.stage = s → s = .control h := fun h' => h'.symm.trans hs
  cases (readerStep_cases hstep).2 with
  | leave hover =>
    rw [hopen.1, hopen.2] at hover
    cases hover
  | fail f => exact absurd (by simp [endRead]) (hreads (.fault f))
  | finish _ hs' => exact absurd (hstage hs') (by simp)
  | header p piece rest _ hs' => exact absurd (hstage hs') (by simp)
  | data f piece rest _ hs' => exact absurd (hstage hs') (by simp)
  | answer payload _ hs' => exact absurd (hstage hs') (by simp)
  | control c piece rest _ hs' ht =>
    obtain rfl := Stage.control.inj (hstage hs')
    cases hparse : ClosePayload.parse (maskWith c.mask 0 piece) with
    | error v =>
      have hreject : (e.setInput rest).readControl c piece = (e.setInput rest).rejectPeer v := by
        rw [readControl, hop, Control.parse, hparse]
        rfl
      rw [hreject, reader_rejectPeer] at hreads
      exact absurd (by simp [endRead]) (hreads v.toError)
    | ok p =>
      refine ⟨p, rest, ?_⟩
      rw [nextClose, hs]
      dsimp only
      rw [ht]
      dsimp only
      rw [hop, Control.parse, hparse]
      rfl

theorem busy_of_writerStep {fits : Nat → Nat → Prop} {kind : JobKind} (hsend : e.Sending fits)
    (hstep : e.writerStep = some e') (hbusy : e'.outbox.slots.isBusy kind = true) :
    e.outbox.slots.isBusy kind = true := by
  have hm : Outgoing.Move e.masks fits e.outgoing e'.outgoing := writerStep_move hstep
  obtain ⟨cs, hcs⟩ := hm.completions_prefix
  have hperm := hsend.phased.held_perm hm (writerStep_calls hstep).2.1 cs hcs.symm
  obtain ⟨j, hj, hk⟩ := List.mem_map.mp (((hsend.move hm).slotted.busy kind).mp hbusy)
  have hheld : j ∈ e.outgoing.held := hperm.mem_iff.mpr (List.mem_append_right _ hj)
  exact (hsend.slotted.busy kind).mpr (List.mem_map.mpr ⟨j, hheld, hk⟩)

/-- The close handshake so far: nothing has failed, the reader has nothing to do while a close frame
of this end is unsent, and it has ended only to answer a close frame or because that has been
done. -/
structure Orderly (e : Endpoint) : Prop where
  reading : e.reader.finished = false → e.reader.reading = some .all
  reads : ∀ err, .failed err ∉ e.reader.reads
  ended : ∀ j f, ⟨j, .failed f⟩ ∉ e.ended
  awaits : e.life.closed = false → e.ownCloseUnsent = true → AwaitsInput e
  ceased : (e.reader.finished || e.life.closed) = true → Answering e ∨ Over true e

namespace Orderly

variable {own peer : Config} {rules : HeaderRules} {size : Nat} {ws fs : List Frame} {fed : Bytes}

theorem giveTurn (h : Orderly e) (t : Turn) : Orderly (e.giveTurn t) := by
  refine ⟨h.reading, h.reads, h.ended, ?_, ?_⟩
  · intro hopen hunsent
    exact (h.awaits hopen hunsent).congr rfl rfl
  · intro hover
    exact (h.ceased hover).imp (·.giveTurn t) (·.giveTurn t)

theorem write (h : Orderly e) (he : Engaged own peer e) (ht : e.tick = some (e'.giveTurn .writer))
    (hstep : e.writerStep = some e') : Orderly (e'.giveTurn .writer) := by
  have hreader : e'.reader = e.reader := (sendingWork_writerStep hstep).1
  have hsend := he.whole.sending
  have hb := writerStep_brisk hsend he.willing he.prompt.deferred
    (fun j u hs => (he.prompt.turn j u hs).2) hstep
  have hopen (hc : e'.life.closed = false) : e.life.closed = false := by
    rw [← Bool.not_eq_true]
    intro hshut
    have hs : Step (fun _ => False) e e' := .writer hstep
    exact absurd (hc.symm.trans (hs.closed he.whole (fun _ h => h.elim) hshut)) Bool.false_ne_true
  refine ⟨?_, ?_, ?_, ?_, ?_⟩
  · show e'.reader.finished = false → e'.reader.reading = some .all
    rw [hreader]
    exact h.reading
  · intro err hr
    exact h.reads err (hreader ▸ hr)
  · obtain ⟨cs, hcs, hnone⟩ := hb.completions_eq
    intro j f hf
    have hf : ⟨j, .failed f⟩ ∈ e.ended ++ cs := hcs ▸ hf
    rcases List.mem_append.mp hf with hf | hf
    · exact h.ended j f hf
    · exact hnone _ hf f rfl
  · intro hc hunsent
    obtain ⟨hclosing, hbusy⟩ := Bool.and_eq_true_iff.mp hunsent
    have hold := busy_of_writerStep hsend hstep hbusy
    have hwas : e.life.closing = true := (writerStep_calls hstep).2.2 ▸ hclosing
    exact (h.awaits (hopen hc) (by rw [ownCloseUnsent, hwas, hold]; rfl)).congr hreader
      (writerStep_settings hstep).1
  · intro hover
    -- if nothing was over before, the writer has just sent the last job
    by_cases hend : (e.reader.finished || e.life.closed) = true
    · rcases h.ceased hend with ha | ho
      · exact ha.tick he.prompt he.whole he.willing ht
      · exact .inr (ho.tick he.prompt he.whole he.willing ht)
    · obtain ⟨hfin, hc⟩ := Bool.or_eq_false_iff.mp (eq_false_of_ne_true hend)
      have hover : (e'.reader.finished || e'.life.closed) = true := hover
      rw [hreader, hfin, Bool.false_or] at hover
      exact .inr ((he.over_of_write hc hstep hover).giveTurn .writer)

theorem leave (h : Orderly e) (hover : (e.reader.finished || e.life.closed) = true)
    (hstep : e.readerStep = some e') : Orderly e' := by
  have hreading := (readerStep_cases hstep).1
  obtain rfl := readerStep_of_over hover hstep
  have hdone : Over true (e.endRead .ended) := by
    rcases h.ceased hover with ha | ho
    · rw [ha.reading] at hreading
      simp at hreading
    · exact ho.shift (Acts.endRead e _ : Acts Entire _ _).reaction.toShift
  refine ⟨fun hfin => absurd hfin (by simp [endRead]), ?_, h.ended, ?_, fun _ => .inr hdone⟩
  · intro err hr
    rcases Array.mem_push.mp hr with hr | hr
    · exact h.reads err hr
    · cases hr
  · intro hopen
    exact absurd (hopen.symm.trans hdone.closed) Bool.false_ne_true

/-- A close frame of this end that is unsent keeps the reader waiting. -/
theorem sent_of_readerStep (h : Orderly e) (hopen : e.Listens) (hstep : e.readerStep = some d) :
    e.ownCloseUnsent = false := by
  rw [← Bool.not_eq_true]
  intro hunsent
  rw [(h.awaits hopen.2 hunsent).waits.readerStep_eq_none hopen] at hstep
  simp at hstep

theorem take_close (he : Engaged own peer e) (hearly : e'.Early) (ht : e.tick = some e')
    (hturn : e.turn = .reader ∨ e.writerStep = none) (hreading : e.reader.reading.isSome = true)
    (hopen : e.Listens) (hsent : e.ownCloseUnsent = false) {p : ClosePayload} {rest : Bytes}
    (hnext : e.nextClose = some (p, rest)) : Answering e' ∨ Over true e' := by
  have htakes : e.TakesClose p rest :=
    ⟨hopen.2, hreading, hopen.1, hturn.imp_right fun hw => ⟨hw, he.early.timerStep⟩, hnext⟩
  have htold : (e.told p rest).ownCloseUnsent = false := by
    rw [← hsent]
    exact congrArg (fun o : Outgoing => o.closing && o.outbox.slots.isBusy .close)
      (told_silent he.silent p rest)
  rcases htakes.next he.whole he.prompt he.willing ht with ⟨⟨-, ha⟩, -⟩ | ho
  · exact .inl (ha hearly)
  · rw [htold] at ho
    exact .inr ho

theorem read (h : Orderly e) (he : Engaged own peer e) (hearly : e'.Early) (ht : e.tick = some e')
    (hturn : e.turn = .reader ∨ e.writerStep = none) (hstep : e.readerStep = some d)
    (hsame : e' = d ∨ e' = d.giveTurn .reader) (hopen : e.Listens)
    (hread : Stepped rules size ws fed fs e.reader d.reader)
    (hsound : Mark.TextSound (Frame.rowMarks false ws)) : Orderly e' := by
  have hreader : e'.reader = d.reader := by
    rcases hsame with rfl | rfl <;> rfl
  have hended : e'.ended = e.ended := by
    have hwriter := (he.whole.reaction (.inl hstep)).writer
    rcases hsame with rfl | rfl
    · exact ended_eq_of_writer hwriter
    · exact ended_eq_of_writer hwriter
  have hsent := h.sent_of_readerStep hopen hstep
  cases hread with
  | refused hns => exact absurd hsound hns
  | going gs hg ha =>
    -- a frame that is no close frame leaves the handshake where it is
    have hsteady := readerStep_steady he.whole he.silent hstep hg.unfinished
    have hall : d.reader.reading = some .all := by
      have hold := h.reading hopen.1
      cases ha with
      | nothing hq => exact hq.reading.trans hold
      | part f part piece hs hin hl hreads hcontrols hs' hkeep => exact hkeep hold
      | control f report hs hreads hcontrols hc hreading => exact hreading.trans hold
    suffices Orderly d by
      rcases hsame with rfl | rfl
      · exact this
      · exact this.giveTurn .reader
    refine ⟨fun _ => hall, ?_, ?_, ?_, ?_⟩
    · intro err hr
      obtain ⟨c, hc⟩ := hg.chunks _ hr
      cases hc
    · rw [ended_eq_of_writer (he.whole.reaction (.inl hstep)).writer]
      exact h.ended
    · intro _ hunsent
      rw [ownCloseUnsent, hsteady.closing, hsteady.busy, ← ownCloseUnsent, hsent] at hunsent
      simp at hunsent
    · intro hover
      rw [hg.unfinished, hsteady.closed, hopen.2] at hover
      simp at hover
  | closed f hf hop hs hstop =>
    have hreads : ∀ err, .failed err ∉ d.reader.reads := fun err hr =>
      hstop.sound hsound _ hr err rfl
    obtain ⟨p, rest, hnext⟩ := nextClose_of_step hstep hopen hs hop hreads
    have hdone := take_close he hearly ht hturn (readerStep_cases hstep).1 hopen hsent hnext
    refine ⟨?_, hreader ▸ hreads, hended ▸ h.ended, ?_, fun _ => hdone⟩
    · rw [hreader, hstop.finished]
      intro hfin
      simp at hfin
    · intro hopen' hunsent
      rcases hdone with ha | ho
      · rw [ownCloseUnsent, ha.closing] at hunsent
        simp at hunsent
      · exact absurd (hopen'.symm.trans ho.closed) Bool.false_ne_true

/-- The end goes on by itself. Its reader takes what comes in, as long as it reads. -/
theorem tick (h : Orderly e) (he : Engaged own peer e) (hearly : e'.Early) (ht : e.tick = some e')
    (hread : ∀ d, e.readerStep = some d → e.Listens → ∃ rules size ws fed fs,
      Stepped rules size ws fed fs e.reader d.reader ∧
        Mark.TextSound (Frame.rowMarks false ws)) : Orderly e' := by
  rcases tick_cases ht with ⟨w, hstep, rfl⟩ | ⟨d, hstep | hstep, hsame, hturn⟩
  · exact h.write he ht hstep
  · by_cases hover : (e.reader.finished || e.life.closed) = true
    · have hleft := h.leave hover hstep
      rcases hsame with rfl | rfl
      · exact hleft
      · exact hleft.giveTurn .reader
    · have hopen : e.Listens := Bool.or_eq_false_iff.mp (eq_false_of_ne_true hover)
      obtain ⟨rules, size, ws, fed, fs, hstepped, hsound⟩ := hread d hstep hopen
      exact h.read he hearly ht hturn hstep hsame hopen hstepped hsound
  · rw [he.early.timerStep] at hstep
    simp at hstep

/-- An event comes at rest. Nothing is unsent then, so what comes in meets no unsent close frame. -/
theorem event (h : Orderly e) (he : Engaged own peer e) (hrest : e.tick = none)
    (hev : ev.Ordinary peer.rules.FitsWhole) : Orderly ((e.accept ev).1.giveTurn .reader) := by
  have hsend := (he.inOrder fun _ _ => id).sending
  have hshift := accept_shift hsend (within_of_ordinary hev)
  have hclosed := closed_accept hsend hev
  obtain ⟨hreads, hfin⟩ := reads_accept e ev
  have hover : (e.reader.finished || e.life.closed) = true → Over true e := fun hend =>
    (h.ceased hend).resolve_left (he.not_answering hrest)
  refine giveTurn ⟨?_, ?_, ?_, ?_, ?_⟩ .reader
  · rw [hfin]
    intro hgo
    have hall := h.reading hgo
    rcases feed_or_reader_eq hev (by rw [hall]; rfl) with ⟨b, rfl⟩ | hsame
    · exact hall
    · rw [hsame]
      exact hall
  · rw [hreads]
    exact h.reads
  · rw [ended_eq_of_writer hshift.writer]
    exact h.ended
  · rw [hclosed]
    intro hopen hunsent
    have hgo : e.reader.finished = false := by
      rw [← Bool.not_eq_true]
      intro hend
      exact absurd (hopen.symm.trans (hover (by simp [hend])).closed) Bool.false_ne_true
    have hreading : e.reader.reading.isSome = true := by
      rw [h.reading hgo]
      rfl
    rcases feed_or_reader_eq hev hreading with ⟨b, rfl⟩ | hsame
    · -- at rest nothing is held, so no close frame of this end's is unsent when bytes come in
      have hfree := free_of_held hsend (he.held_eq_nil hrest hopen) .close
      have hbusy : e.outbox.slots.isBusy .close = true := (Bool.and_eq_true_iff.mp hunsent).2
      exact absurd (hfree.symm.trans hbusy) Bool.false_ne_true
    · exact (he.awaitsInput hrest hopen hreading).congr hsame hshift.config
  · rw [hfin, hclosed]
    intro hend
    exact .inr ((hover hend).shift hshift)

theorem errors_eq_nil (h : Orderly e) (he : Engaged own peer e) : e.life.errors = [] := by
  obtain ⟨past, hd, -⟩ := he.driven
  obtain ⟨past', hrun⟩ := hd.run
  exact (hrun.accounted fun c _ => c.within_any).errors_of_sound h.reads h.ended

/-- At rest an end that has started to close, or has been closed, has a close frame on the wire. -/
theorem closes_at_rest (h : Orderly e) (he : Engaged own peer e) (hrest : e.tick = none)
    (hc : e.life.closing = true ∨ e.life.closed = true) :
    e.outgoing.inHand = [] ∧ ∃ j ∈ e.outgoing.written, j.kind = .close := by
  cases hopen : e.life.closed with
  | true =>
    have ho := (h.ceased (by simp [hopen])).resolve_left (he.not_answering hrest)
    exact ⟨ho.inHand, ho.written.mp rfl⟩
  | false =>
    have hclosing := hc.resolve_right (by simp [hopen])
    have hheld := he.held_eq_nil hrest hopen
    have hsend := he.whole.sending
    exact ⟨(List.append_eq_nil_iff.mp hheld).1,
      (written_of_closing hsend hopen hclosing).mpr (free_of_held hsend hheld .close)⟩

end Orderly

/-- The wire carries proper frames, and the last of them is the only close frame. -/
def EndsInClose (e : Endpoint) : Prop :=
  ∃ front f, e.transport.wire.toList = Frame.rowBytes (front ++ [f]) ∧
    (∀ g ∈ front ++ [f], g.Proper e.config.role) ∧ f.header.opcode = .close ∧
      ∀ g ∈ front, g.header.opcode ≠ .close

/-- The connection is closed, every accepted write has ended, and the last frame on the wire is the
only close frame. -/
structure Concluded (e : Endpoint) : Prop where
  closed : e.life.closed = true
  resolved : (e.ended.map (·.job.serial)).Perm (List.range e.outbox.nextSerial)
  wire : e.EndsInClose

theorem Orderly.endsInClose {own peer : Config} (h : Orderly e) (he : Engaged own peer e)
    (hrest : e.tick = none) (hc : e.life.closing = true ∨ e.life.closed = true) :
    e.EndsInClose := by
  obtain ⟨hi, j, hj, hk⟩ := h.closes_at_rest he hrest hc
  obtain ⟨f, hlaid, hwire⟩ := he.prompt.frames he.whole.sending hi
  obtain ⟨front, g, hframes, hop, hfront⟩ := hlaid.ends_in_close hj hk
  exact ⟨front, g, hframes ▸ hwire, hframes ▸ hlaid.proper hlaid.entire, hop, hfront⟩

theorem Orderly.concluded {own peer : Config} (h : Orderly e) (he : Engaged own peer e)
    (hrest : e.tick = none) (hclosed : e.life.closed = true) : Concluded e := by
  have hi := (h.closes_at_rest he hrest (.inr hclosed)).1
  refine ⟨hclosed, ?_, h.endsInClose he hrest (.inr hclosed)⟩
  have hstopped : e.writer.state = .stopped := by
    have hwait := (waits_of_tick hrest).2.1
    unfold Endpoint.writerStep at hwait
    split at hwait
    · assumption
    · simp [hclosed] at hwait
    · simp [hclosed] at hwait
  have hsend := he.whole.sending
  have hheld : e.outgoing.held = [] := by
    rw [Outgoing.held, hi, (hsend.phased.stopped hstopped).2]
    rfl
  have hserials := hsend.numbered
  rw [Outgoing.Numbered, Outgoing.lineUp, hheld, List.append_nil, List.map_map] at hserials
  exact hserials

end Endpoint

end WebSocket
