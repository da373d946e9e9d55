import WebSocket.Proofs.CloseReply
import WebSocket.Proofs.Completions

/-! Reports and the close hook. There is one report at most, of the read or the write that failed
first, and none of an end that comes in order. The hook runs as the connection is torn down. -/

namespace WebSocket

/-- The connection stays as it is or is torn down, and then the hook runs. -/
def Life.Onward (l l' : Life) : Prop :=
  l'.closed = l.closed ∧ l'.hookRuns = l.hookRuns ∨
    l.closed = false ∧ l'.closed = true ∧ l'.hookRuns = l.hookRuns + 1

theorem Life.Onward.trans {l l' l'' : Life} (h : l.Onward l') (h' : l'.Onward l'') :
    l.Onward l'' := by
  rcases h with ⟨hc, hn⟩ | ⟨hopen, hc, hn⟩
  · rwa [Onward, hc, hn] at h'
  · rcases h' with ⟨hc', hn'⟩ | ⟨hopen', -⟩
    · exact .inr ⟨hopen, hc'.trans hc, hn'.trans hn⟩
    · exact absurd (hopen'.symm.trans hc) Bool.false_ne_true

theorem Life.Onward.closed {l l' : Life} (h : l.Onward l') (hc : l.closed = true) :
    l'.closed = true := by
  rcases h with ⟨hsame, -⟩ | ⟨-, hshut, -⟩
  · exact hsame.trans hc
  · exact hshut

namespace Endpoint

variable {fits : Nat → Nat → Prop} {e e' d d' : Endpoint} {err : Error}

def Abandoned (e : Endpoint) : Prop := e.held = false ∧ e.reader.reading = none

structure Calm (e e' : Endpoint) : Prop where
  errors : e'.life.errors = e.life.errors
  reported : e'.life.reported = e.life.reported
  hook : e.life.Onward e'.life
  finished : e.reader.finished = true → e'.reader.finished = true
  reads : ∀ err, .failed err ∈ e'.reader.reads ↔ .failed err ∈ e.reader.reads
  abandoned : e.Abandoned → e'.Abandoned

structure Accuses (err : Error) (e e' : Endpoint) : Prop where
  errors : e'.life.errors = if e.life.reported then e.life.errors else e.life.errors ++ [err]
  reported : e'.life.reported = true
  hook : e.life.Onward e'.life

/-- What comes of a step: nothing is reported, a read fails, or a write does. -/
inductive Told (e e' : Endpoint) : Prop where
  | calm (h : Calm e e') (hended : ∀ j f, ⟨j, .failed f⟩ ∈ e'.ended → ⟨j, .failed f⟩ ∈ e.ended)
  | read (err : Error) (hopen : e.Listens) (hreading : e.reader.reading.isSome = true)
      (h : Accuses err e e') (hfin : e'.reader.finished = true)
      (hreads : e'.reader.reads = e.reader.reads.push (.failed err)) (hended : e'.ended = e.ended)
  | write (j : Job) (f : Fault) (hopen : e.life.closed = false) (h : Accuses (.fault f) e e')
      (hclosed : e'.life.closed = true) (hreader : e'.reader = e.reader) (hheld : e'.held = e.held)
      (hended : ∃ rest, e'.ended = e.ended ++ ⟨j, .failed f⟩ :: rest ∧
        ∀ c ∈ rest, c.outcome = .aborted)

namespace Calm

theorem trans {e'' : Endpoint} (h : Calm e e') (h' : Calm e' e'') : Calm e e'' where
  errors := h'.errors.trans h.errors
  reported := h'.reported.trans h.reported
  hook := h.hook.trans h'.hook
  finished := fun hf => h'.finished (h.finished hf)
  reads := fun err => (h'.reads err).trans (h.reads err)
  abandoned := fun ha => h'.abandoned (h.abandoned ha)

theorem of_same (hl : e'.life = e.life) (hr : e'.reader = e.reader) (hh : e'.held = e.held) :
    Calm e e' := by
  refine ⟨by rw [hl], by rw [hl], .inl (by simp [hl]), by simp [hr], by simp [hr], ?_⟩
  rw [Abandoned, Abandoned, hr, hh]
  exact id

theorem refl (e : Endpoint) : Calm e e := .of_same rfl rfl rfl

theorem setReader (r : Reader) (hf : e.reader.finished = true → r.finished = true)
    (hreads : ∀ err, .failed err ∈ r.reads ↔ .failed err ∈ e.reader.reads)
    (hr : e.reader.reading = none → r.reading = none) : Calm e { e with reader := r } :=
  ⟨rfl, rfl, .inl ⟨rfl, rfl⟩, hf, hreads, fun ha => ⟨ha.1, hr ha.2⟩⟩

theorem setStage (e : Endpoint) (s : Stage) : Calm e (e.setStage s) :=
  .setReader _ id (fun _ => .rfl) id

theorem setInput (e : Endpoint) (rest : Bytes) : Calm e (e.setInput rest) :=
  .setReader _ id (fun _ => .rfl) id

theorem endRead (e : Endpoint) : Calm e (e.endRead .ended) :=
  .setReader _ (fun _ => rfl) (fun err => by simp) fun _ => rfl

theorem deliver (e : Endpoint) (c : Chunk) : Calm e (e.deliver c) :=
  .setReader _ id (fun err => by simp) fun h => by simp [h]

theorem teardown (e : Endpoint) : Calm e e.teardown := by
  unfold Endpoint.teardown
  split
  · exact .refl e
  · next hopen =>
    exact ⟨rfl, rfl, .inr ⟨eq_false_of_ne_true hopen, rfl, rfl⟩, id, fun _ => .rfl, id⟩

theorem entered {makes : Job → Prop} {a : Attempt} (h : Entered fits makes e a) :
    Calm e a.1 := by
  cases h with
  | refused => exact .refl e
  | accepted => exact ⟨rfl, rfl, .inl ⟨rfl, rfl⟩, id, fun _ => .rfl, id⟩

theorem writeAll (h : e.Sending fits) (cs : List WriteCall) (hcs : ∀ c ∈ cs, c.Within fits) :
    Calm e (e.writeAll cs).1 := by
  induction cs generalizing e with
  | nil => exact .refl e
  | cons c cs ih =>
    have hfirst := write_entered h (hcs c (by simp))
    exact (Calm.entered hfirst).trans
      (ih (hfirst.acts.sending h) fun c' hc => hcs c' (by simp [hc]))

theorem notify (h : e.Sending fits) (hcalls : ∀ c ∈ e.callbacks.calls, c.Within fits)
    (c : Control) : Calm e (e.notify c) := by
  have := Calm.writeAll h (e.callbacks.onControl.getD []) fun c hc =>
    hcalls c (List.mem_append_right _ hc)
  exact this.trans (.setReader _ id (fun _ => .rfl) id)

theorem closeDown (h : e.Sending fits) (code : CloseCode) (reason : String)
    (hbusy : e.life.closed = false → e.life.closing = true →
      e.outbox.slots.isBusy .close = true) : Calm e (e.closeDown code reason) := by
  have hentered := Calm.entered (queueFinalClose_entered h code reason hbusy)
  unfold Endpoint.closeDown
  split
  · next heq => rwa [heq] at hentered
  · next heq =>
    rw [heq] at hentered
    exact hentered.trans (.teardown _)

end Calm

/-! The steps of the reader. -/

theorem Accuses.report (e : Endpoint) (err : Error) : Accuses err e (e.report err) := by
  unfold Endpoint.report
  split
  · next hr => exact ⟨(if_pos hr).symm, hr, .inl ⟨rfl, rfl⟩⟩
  · next hr => exact ⟨(if_neg hr).symm, rfl, .inl ⟨rfl, rfl⟩⟩

theorem Accuses.calm {e'' : Endpoint} (h : Accuses err e e') (h' : Calm e' e'') :
    Accuses err e e'' :=
  ⟨h'.errors.trans h.errors, h'.reported.trans h.reported, h.hook.trans h'.hook⟩

theorem Accuses.endRead {r : ReadResult} (h : Accuses err e e') : Accuses err e (e'.endRead r) :=
  ⟨h.errors, h.reported, h.hook⟩

theorem failRead_accuses (e : Endpoint) (f : Fault) : Accuses (.fault f) e (e.failRead f) :=
  ((Accuses.report e _).calm (.teardown _)).endRead

theorem rejectPeer_accuses (h : e.Sending fits) (v : Violation) :
    Accuses v.toError e (e.rejectPeer v) := by
  have hreport : Shift fits e (e.report v.toError) := (Reaction.report e _).toShift
  unfold rejectPeer
  dsimp only
  split
  · exact ((Accuses.report e _).calm (.teardown _)).endRead
  · next hcl =>
    refine ((Accuses.report e _).calm (.closeDown (h.shift hreport) _ _ ?_)).endRead
    exact fun _ hclosing => absurd hclosing hcl

/-- What comes of a step of the reader. Before it gives up it may have taken something in. -/
inductive ReadTold (e e' : Endpoint) : Prop where
  | calm (h : Calm e e')
  | failed (r : Reader) (f : Fault) (hr : r.reads = e.reader.reads)
      (he : e' = { e with reader := r }.failRead f)
  | rejected (r : Reader) (v : Violation) (hr : r.reads = e.reader.reads)
      (he : e' = { e with reader := r }.rejectPeer v)

theorem ReadTold.after {r : Reader} (h : ReadTold { e with reader := r } e')
    (hr : r.reads = e.reader.reads) (hc : Calm e { e with reader := r }) : ReadTold e e' := by
  cases h with
  | calm h => exact .calm (hc.trans h)
  | failed r' f hr' he => exact .failed r' f (hr'.trans hr) he
  | rejected r' v hr' he => exact .rejected r' v (hr'.trans hr) he

theorem rejectPeer_told (e : Endpoint) (v : Violation) : ReadTold e (e.rejectPeer v) :=
  .rejected e.reader v rfl rfl

theorem failRead_told (e : Endpoint) (f : Fault) : ReadTold e (e.failRead f) :=
  .failed e.reader f rfl rfl

theorem endOfStream_told (e : Endpoint) : ReadTold e e.endOfStream := by
  unfold endOfStream
  split
  · exact failRead_told e _
  · split
    · exact failRead_told e _
    · exact .calm ((Calm.teardown e).trans (.endRead _))

theorem readHeaderPiece_told (e : Endpoint) (p : HeaderProgress) (piece : Bytes) :
    ReadTold e (e.readHeaderPiece p piece) := by
  unfold readHeaderPiece
  split
  · exact rejectPeer_told e _
  · exact .calm (.setStage e _)
  · unfold openFrame
    split
    · exact rejectPeer_told e _
    · exact .calm (.setStage e _)
    · split
      · exact .calm (.setReader _ id (fun _ => .rfl) id)
      · exact rejectPeer_told e _

theorem deliverText_told (e : Endpoint) (c : Chunk) : ReadTold e (e.deliverText c) := by
  have htext : Calm e
      { e with reader := { e.reader with text := (e.reader.text.feed c.data).2 } } :=
    .setReader _ id (fun _ => .rfl) id
  unfold deliverText
  dsimp only
  split
  · exact (rejectPeer_told _ _).after rfl htext
  · split
    · exact (rejectPeer_told _ _).after rfl htext
    · exact .calm (htext.trans (.deliver _ c))

theorem readData_told (e : Endpoint) (f : IncomingFrame) (piece : Bytes) :
    ReadTold e (e.readData f piece) := by
  unfold readData
  dsimp only
  split
  · exact .calm ((Calm.setStage e _).trans (.deliver _ _))
  · exact (deliverText_told _ _).after rfl (.setStage e _)

theorem handleControl_calm (h : e.Sending fits)
    (hcalls : ∀ c ∈ e.callbacks.calls, c.Within fits) (c : Control) :
    Calm e (e.handleControl c) := by
  cases c with
  | close p =>
    unfold handleControl
    dsimp only
    split
    · exact (Calm.teardown e).trans (.endRead _)
    · next hcl =>
      rw [Bool.not_eq_true] at hcl
      have hnote := (notify_acts h hcalls (.close p)).reaction.toShift
      have hbusy := close_busy_after_notify h hnote hcl
      have hdown := Calm.closeDown (h.shift hnote) .goingAway "" hbusy
      exact ((Calm.notify h hcalls _).trans hdown).trans (.endRead _)
  | ping payload => exact (Calm.notify h hcalls _).trans (.setStage _ _)
  | pong payload => exact (Calm.notify h hcalls _).trans (.setStage _ _)

theorem readControl_told (h : e.Sending fits)
    (hcalls : ∀ c ∈ e.callbacks.calls, c.Within fits) (hd : Header) (piece : Bytes) :
    ReadTold e (e.readControl hd piece) := by
  unfold readControl
  split
  · exact rejectPeer_told e _
  · exact .calm (.setStage e _)
  · exact .calm (handleControl_calm h hcalls _)

theorem readerStep_readTold (h : e.InOrder fits) (hstep : e.readerStep = some e') :
    ReadTold e e' := by
  cases (readerStep_cases hstep).2 with
  | leave => exact .calm (.endRead e)
  | fail f => exact failRead_told e f
  | finish => exact endOfStream_told e
  | header p piece rest => exact (readHeaderPiece_told _ p piece).after rfl (.setInput e rest)
  | data f piece rest => exact (readData_told _ f piece).after rfl (.setInput e rest)
  | control c piece rest =>
    have hinput : Shift fits e (e.setInput rest) := .of_same rfl rfl rfl
    have := readControl_told (h.sending.shift hinput) h.calls c piece
    exact this.after rfl (.setInput e rest)
  | answer payload _ hs =>
    have hlen : payload.length ≤ maxControlPayload := by
      have := h.stage
      rwa [hs] at this
    have hq := Calm.entered (queuePong_entered h.sending hlen)
    exact .calm (hq.trans (.setReader _ id (fun _ => .rfl) id))

theorem readerStep_told (h : e.InOrder fits) (hstep : e.readerStep = some e') : Told e e' := by
  have hended : e'.ended = e.ended := by
    rw [ended, ended, (readerStep_acts h.sending h.stage h.calls hstep).reaction.writer]
  have hreading := (readerStep_cases hstep).1
  by_cases hover : (e.reader.finished || e.life.closed) = true
  · obtain rfl := readerStep_of_over hover hstep
    exact .calm (.endRead e) fun _ _ => id
  · have hopen : e.Listens := Bool.or_eq_false_iff.mp (eq_false_of_ne_true hover)
    cases readerStep_readTold h hstep with
    | calm hc => exact .calm hc fun j f hf => hended ▸ hf
    | failed r f hr he =>
      have ha := failRead_accuses { e with reader := r } f
      have hreader := reader_failRead { e with reader := r } f
      rw [← he] at ha hreader
      exact .read (.fault f) hopen hreading ⟨ha.errors, ha.reported, ha.hook⟩ (by rw [hreader]; rfl)
        (by rw [hreader, ← hr]; rfl) hended
    | rejected r v hr he =>
      have hsame : Shift fits e { e with reader := r } := .of_same rfl rfl rfl
      have ha := rejectPeer_accuses (h.sending.shift hsame) v
      have hreader := reader_rejectPeer { e with reader := r } v
      rw [← he] at ha hreader
      exact .read v.toError hopen hreading ⟨ha.errors, ha.reported, ha.hook⟩ (by rw [hreader]; rfl)
        (by rw [hreader, ← hr]; rfl) hended

/-! The steps of the writer, the timer and the application. -/

theorem Calm.stop (e : Endpoint) : Calm e e.stop := by
  have habort : Calm e e.abortWaiting := .of_same rfl rfl rfl
  have hend : Calm e.abortWaiting.teardown e.stop := .of_same rfl rfl rfl
  exact (habort.trans (.teardown _)).trans hend

theorem Calm.complete (e : Endpoint) (job : Job) : Calm e (e.complete job) := by
  have hdone : Calm e
      (((e.finish job .written).setWriterState .idle).setFrameOpen (0 < job.owed)) :=
    .of_same rfl rfl rfl
  unfold Endpoint.complete
  dsimp only
  split
  · exact (hdone.trans (.teardown _)).trans (.stop _)
  · split
    · exact hdone.trans (.of_same rfl rfl rfl)
    · exact hdone

theorem Calm.takeUp (e : Endpoint) (job : Job) : Calm e (e.takeUp job) := by
  unfold Endpoint.takeUp
  split
  · exact .of_same rfl rfl rfl
  · split
    · exact .of_same rfl rfl rfl
    · exact .of_same rfl rfl rfl

theorem ended_eq_of_writer (h : e'.writer = e.writer) : e'.ended = e.ended := by
  rw [ended, ended, h]

theorem ended_eq (e : Endpoint) : e.ended = e.outgoing.completions := rfl

theorem failJob_told {job : Job} (hopen : e.life.closed = false) (f : Fault) :
    Told e (e.failJob job f) := by
  have hreport : Accuses (.fault f) e ((e.finish job (.failed f)).report (.fault f)) :=
    have := Accuses.report (e.finish job (.failed f)) (.fault f)
    ⟨this.errors, this.reported, this.hook⟩
  refine .write job f hopen (hreport.calm (.stop _)) (closed_stop _) (reader_failJob e job f)
    (congrArg (·.2.2.2) (settings_failJob e job f))
    ⟨e.outgoing.waiting.map (⟨·, .aborted⟩), ?_, by simp⟩
  rw [ended_eq, failJob, outgoing_stop, outgoing_report, outgoing_finish,
    Outgoing.completions_stop_settle]
  rfl

theorem Told.of_ended (h : Calm e e') {cs : List Completion} (ho : e'.ended = e.ended ++ cs)
    (hcs : ∀ c ∈ cs, c.outcome = .written ∨ c.outcome = .aborted) : Told e e' := by
  refine .calm h fun j f hf => ?_
  rw [ho] at hf
  rcases List.mem_append.mp hf with hf | hf
  · exact hf
  · rcases hcs _ hf with hx | hx <;> cases hx

theorem complete_told (e : Endpoint) (job : Job) : Told e (e.complete job) := by
  have hcalm := Calm.complete e job
  have ho := congrArg Outgoing.completions (outgoing_complete e job)
  split at ho
  · rw [Outgoing.completions_stop, Outgoing.completions_complete, List.append_assoc] at ho
    exact .of_ended hcalm ho (by simp)
  · split at ho
    · exact .of_ended hcalm (ho.trans (Outgoing.completions_abort_complete _ _)) (by simp)
    · exact .of_ended hcalm (ho.trans (Outgoing.completions_complete _ _)) (by simp)

theorem takeUp_told (h : Calm d e) (hended : e.ended = d.ended) (job : Job) :
    Told d (e.takeUp job) := by
  have hcalm := h.trans (.takeUp e job)
  unfold Endpoint.takeUp at *
  split
  · have ho := congrArg Outgoing.completions (outgoing_finish e job .aborted)
    rw [Outgoing.completions_settle, ← ended_eq e, hended] at ho
    exact .of_ended (h.trans (.of_same rfl rfl rfl)) ho (by simp)
  · have ho : e.ended = d.ended ++ [] := by rw [hended, List.append_nil]
    split
    · exact .of_ended (h.trans (.of_same rfl rfl rfl)) ho (by simp)
    · exact .of_ended (h.trans (.of_same rfl rfl rfl)) ho (by simp)

theorem writerStep_told (hstep : e.writerStep = some e') : Told e e' := by
  cases writerStep_cases hstep with
  | cut job =>
    have hdone : Calm e (e.finish job .aborted) := .of_same rfl rfl rfl
    have ho := congrArg Outgoing.completions (outgoing_stop (e.finish job .aborted))
    rw [outgoing_finish, Outgoing.completions_stop_settle] at ho
    exact .of_ended (hdone.trans (.stop _)) ho (by simp)
  | fail job unsent f hs hopen => exact failJob_told hopen f
  | complete job => exact complete_told e job
  | put => exact .calm (.of_same rfl rfl rfl) fun _ _ => id
  | takeHeld job rest =>
    have hrest : Calm e (e.setDeferred rest) := .of_same rfl rfl rfl
    exact takeUp_told hrest rfl job
  | takeNew job rest =>
    have hrest : Calm e (e.setQueue rest) := .of_same rfl rfl rfl
    exact takeUp_told hrest rfl job
  | stop =>
    have ho := congrArg Outgoing.completions (outgoing_stop e)
    rw [Outgoing.completions_stop] at ho
    exact .of_ended (.stop e) ho (by simp)

theorem accept_calm (h : e.Sending fits) {ev : Event}
    (hev : ∀ c, ev = .write c → c.Within fits) :
    Calm e (e.accept ev).1 := by
  cases ev with
  | write c =>
    rw [fst_accept_write]
    split
    · exact .entered (write_entered h (hev c rfl))
    · exact .refl e
  | read m =>
    unfold accept
    dsimp only
    split
    · next hm =>
      have hm : e.held = true := (Bool.and_eq_true_iff.mp hm).1
      exact ⟨rfl, rfl, .inl ⟨rfl, rfl⟩, id, fun _ => .rfl,
        fun ha => absurd (ha.1.symm.trans hm) Bool.false_ne_true⟩
    · exact .refl e
  | feed | endInput | failInput => exact .setReader _ id (fun _ => .rfl) id
  | allow | failWrites | takeNothing | failFlushes => exact .of_same rfl rfl rfl
  | advance => exact ⟨rfl, rfl, .inl ⟨rfl, rfl⟩, id, fun _ => .rfl, id⟩
  | drop => exact ⟨rfl, rfl, .inl ⟨rfl, rfl⟩, id, fun _ => .rfl, fun _ => ⟨rfl, rfl⟩⟩

theorem timerStep_calm (hstep : e.timerStep = some e') : Calm e e' := by
  obtain ⟨t, -, -, rfl⟩ := timerStep_cases hstep
  have hoff : Calm e { e with life := { e.life with timer := none } } :=
    ⟨rfl, rfl, .inl ⟨rfl, rfl⟩, id, fun _ => .rfl, id⟩
  exact hoff.trans (.teardown _)

variable {ok : Event → Prop} {past : List Endpoint}

theorem Step.told (hs : Step ok e e') (h : e.InOrder fits)
    (hok : ∀ c, ok (.write c) → c.Within fits) : Told e e' := by
  cases hs with
  | event ev hev =>
    have hshift := accept_shift h.sending fun c hc => hok c (hc ▸ hev)
    refine .calm (accept_calm h.sending fun c hc => hok c (hc ▸ hev)) fun j f hf => ?_
    rwa [ended, hshift.writer] at hf
  | reader hr => exact readerStep_told h hr
  | writer hw => exact writerStep_told hw
  | timer ht =>
    refine .calm (timerStep_calm ht) fun j f hf => ?_
    rwa [ended, (timerStep_reaction ht : Reaction fits e e').writer] at hf
  | turn t => exact .calm (.of_same rfl rfl rfl) fun _ _ => id

theorem Step.errors_of_closed (hs : Step ok e e') (h : e.InOrder fits)
    (hok : ∀ c, ok (.write c) → c.Within fits) (hc : e.life.closed = true) :
    e'.life.errors = e.life.errors := by
  cases hs.told h hok with
  | calm hcalm => exact hcalm.errors
  | read err hopen => exact absurd (hopen.2.symm.trans hc) Bool.false_ne_true
  | write j f hopen => exact absurd (hopen.symm.trans hc) Bool.false_ne_true

/-! What holds at all times. -/

/-- What has been reported so far, and how often the hook has run. -/
structure Accounted (e : Endpoint) : Prop where
  report : e.life.reported = false ∧ e.life.errors = [] ∨
    e.life.reported = true ∧ ∃ err, e.life.errors = [err]
  hook : e.life.hookRuns = if e.life.closed then 1 else 0
  ceased : e.life.reported = true → e.reader.finished = true ∨ e.life.closed = true
  read : ∀ err, .failed err ∈ e.reader.reads → e.life.errors = [err]
  cause : ∀ err ∈ e.life.errors,
    .failed err ∈ e.reader.reads ∨ ∃ j f, err = .fault f ∧ ⟨j, .failed f⟩ ∈ e.ended
  failed : ∀ j f, ⟨j, .failed f⟩ ∈ e.ended → e.life.closed = true

theorem hookRuns_of_onward {l l' : Life} (h : l.Onward l')
    (hl : l.hookRuns = if l.closed then 1 else 0) :
    l'.hookRuns = if l'.closed then 1 else 0 := by
  rcases h with ⟨hc, hn⟩ | ⟨hopen, hc, hn⟩
  · rw [hc, hn, hl]
  · rw [hn, hl, hopen, hc]
    rfl

namespace Accounted

theorem reported_iff (h : e.Accounted) : e.life.reported = true ↔ e.life.errors ≠ [] := by
  rcases h.report with ⟨hno, hnil⟩ | ⟨hrep, err, herr⟩
  · simp [hno, hnil]
  · simp [hrep, herr]

theorem reported_of_failed (h : e.Accounted) (hr : .failed err ∈ e.reader.reads) :
    e.life.reported = true :=
  h.reported_iff.mpr (by simp [h.read err hr])

theorem errors_eq_nil (h : e.Accounted) (hno : e.life.reported = false) : e.life.errors = [] := by
  by_contra herr
  exact absurd (hno.symm.trans (h.reported_iff.mpr herr)) Bool.false_ne_true

theorem unreported (h : e.Accounted) (hopen : e.Listens) : e.life.reported = false := by
  rw [← Bool.not_eq_true]
  intro hr
  rcases h.ceased hr with hf | hc
  · exact absurd (hopen.1.symm.trans hf) Bool.false_ne_true
  · exact absurd (hopen.2.symm.trans hc) Bool.false_ne_true

theorem errors_of_sound (h : e.Accounted) (hr : ∀ err, .failed err ∉ e.reader.reads)
    (hw : ∀ j f, ⟨j, .failed f⟩ ∉ e.ended) : e.life.errors = [] := by
  refine List.eq_nil_iff_forall_not_mem.mpr fun err herr => ?_
  rcases h.cause err herr with hread | ⟨j, f, -, hj⟩
  · exact hr err hread
  · exact hw j f hj

theorem told_calm (h : e.Accounted) (hc : Calm e e')
    (hended : ∀ j f, ⟨j, .failed f⟩ ∈ e'.ended → ⟨j, .failed f⟩ ∈ e.ended)
    (hkept : e.ended <+: e'.ended) : e'.Accounted := by
  refine ⟨?_, hookRuns_of_onward hc.hook h.hook, ?_, ?_, ?_, ?_⟩
  · rw [hc.reported, hc.errors]
    exact h.report
  · rw [hc.reported]
    intro hr
    exact (h.ceased hr).imp hc.finished hc.hook.closed
  · intro err hr
    exact hc.errors.trans (h.read err ((hc.reads err).mp hr))
  · rw [hc.errors]
    intro err herr
    refine (h.cause err herr).imp (hc.reads err).mpr ?_
    rintro ⟨j, f, hf, hj⟩
    exact ⟨j, f, hf, hkept.subset hj⟩
  · intro j f hf
    exact hc.hook.closed (h.failed j f (hended j f hf))

/-- A read that fails while the end listens is the first failure. -/
theorem told_read (h : e.Accounted) (hopen : e.Listens) (ha : Accuses err e e')
    (hfin : e'.reader.finished = true)
    (hreads : e'.reader.reads = e.reader.reads.push (.failed err)) (hended : e'.ended = e.ended) :
    e'.Accounted := by
  have hno := h.unreported hopen
  have herrors : e'.life.errors = [err] := by
    rw [ha.errors, if_neg (by simp [hno]), h.errors_eq_nil hno]
    rfl
  have hmem : .failed err ∈ e'.reader.reads := by simp [hreads]
  refine ⟨.inr ⟨ha.reported, err, herrors⟩, hookRuns_of_onward ha.hook h.hook, fun _ => .inl hfin,
    ?_, ?_, ?_⟩
  · intro x hx
    rw [hreads, Array.mem_push] at hx
    rcases hx with hx | hx
    · exact absurd ((h.reported_of_failed hx).symm.trans hno) (by simp)
    · cases hx
      exact herrors
  · rw [herrors]
    exact List.forall_mem_singleton.mpr (.inl hmem)
  · intro j f hf
    exact ha.hook.closed (h.failed j f (hended ▸ hf))

theorem told_write (h : e.Accounted) {j : Job} {f : Fault} (ha : Accuses (.fault f) e e')
    (hclosed : e'.life.closed = true) (hreader : e'.reader = e.reader)
    (hj : ⟨j, .failed f⟩ ∈ e'.ended) (hkept : e.ended <+: e'.ended) : e'.Accounted := by
  refine ⟨.inr ⟨ha.reported, ?_⟩, hookRuns_of_onward ha.hook h.hook, fun _ => .inr hclosed, ?_, ?_,
    fun _ _ _ => hclosed⟩
  · rw [ha.errors]
    rcases h.report with ⟨hno, hnil⟩ | ⟨hr, herr⟩
    · exact ⟨.fault f, by rw [hno, hnil]; rfl⟩
    · rwa [if_pos hr]
  · intro err hr
    rw [hreader] at hr
    rw [ha.errors, if_pos (h.reported_of_failed hr)]
    exact h.read err hr
  · intro err herr
    rw [ha.errors] at herr
    rw [hreader]
    split at herr
    · refine (h.cause err herr).imp id ?_
      rintro ⟨i, x, hx, hi⟩
      exact ⟨i, x, hx, hkept.subset hi⟩
    · next hno =>
      rw [h.errors_eq_nil (eq_false_of_ne_true hno)] at herr
      exact .inr ⟨j, f, List.mem_singleton.mp herr, hj⟩

theorem told (h : e.Accounted) (ht : Told e e') (hkept : e.ended <+: e'.ended) :
    e'.Accounted := by
  cases ht with
  | calm hc hended => exact h.told_calm hc hended hkept
  | read err hopen _ ha hfin hreads hended => exact h.told_read hopen ha hfin hreads hended
  | write j f _ ha hclosed hreader _ hended =>
    obtain ⟨rest, hended, -⟩ := hended
    exact h.told_write (j := j) ha hclosed hreader (by simp [hended]) hkept

theorem errors_told (h : e.Accounted) (ht : Told e e') (hr : e.life.errors ≠ []) :
    e'.life.errors = e.life.errors := by
  have hrep : e.life.reported = true := h.reported_iff.mpr hr
  cases ht with
  | calm hc => exact hc.errors
  | read err hopen hreading ha => rw [ha.errors, if_pos hrep]
  | write j f hopen ha => rw [ha.errors, if_pos hrep]

end Accounted

theorem Accounted.of_fresh (config : Config) (callbacks : Callbacks) (keys : Nat → Key)
    (transport : Transport) : (fresh config callbacks keys transport).Accounted := by
  refine ⟨.inl ⟨rfl, rfl⟩, rfl, ?_, ?_, List.forall_mem_nil _, ?_⟩
  · intro hr
    cases hr
  · intro err hr
    simp [Endpoint.fresh] at hr
  · intro j f hf
    simp [Endpoint.fresh, ended] at hf

theorem Accounted.opened (config : Config) (callbacks : Callbacks) (keys : Nat → Key)
    (quota maxWrite : Option Nat) (hcalls : ∀ c ∈ callbacks.calls, c.Within fits) :
    (opened config callbacks keys quota maxWrite).Accounted := by
  have hs : (fresh config callbacks keys (.fresh quota maxWrite)).Sending fits :=
    initial_sending config callbacks keys quota maxWrite
  have hcs : ∀ c ∈ callbacks.onConnect.getD [], c.Within fits := fun c hc =>
    hcalls c (List.mem_append_left _ hc)
  have hended := ended_eq_of_writer (writeAll_acts hs _ hcs).reaction.writer
  rw [Endpoint.opened]
  refine (Accounted.of_fresh config callbacks keys _).told (.calm (Calm.writeAll hs _ hcs) ?_) ?_
  · rw [hended]
    exact fun _ _ => id
  · exact hended ▸ List.prefix_rfl

theorem Run.accounted (h : Run ok (e :: past)) (hok : ∀ c, ok (.write c) → c.Within fits) :
    e.Accounted :=
  h.always (Q := fun _ c => c.Accounted) hok Accounted.opened fun _ _ _ _ hin hs hacc =>
    hacc.told (hs.told hin hok) (hs.kept hin hok)

/-- Once the connection has been torn down nothing is reported. -/
theorem Run.errors_of_closed (h : Run ok (e :: past)) (hok : ∀ c, ok (.write c) → c.Within fits)
    (hd : d ∈ e :: past) (hc : d.life.closed = true) : e.life.errors = d.life.errors := by
  have : e.life.closed = true ∧ e.life.errors = d.life.errors := by
    refine h.onward (Q := fun c => c.life.closed = true ∧ c.life.errors = d.life.errors) hd
      ⟨hc, rfl⟩ ?_
    rintro c c' earlier hrun - hs ⟨hc, herr⟩
    have hin := hrun.inOrder hok
    exact ⟨hs.closed hin hok hc, (hs.errors_of_closed hin hok hc).trans herr⟩
  exact this.2

theorem Run.errors_kept (h : Run ok (e :: past)) (hok : ∀ c, ok (.write c) → c.Within fits)
    (hd : d ∈ e :: past) (hr : d.life.errors ≠ []) : e.life.errors = d.life.errors := by
  refine h.onward (Q := fun c => c.life.errors = d.life.errors) hd rfl ?_
  intro c c' earlier hrun _ hs herr
  rw [← herr] at hr
  exact ((hrun.accounted hok).errors_told (hs.told (hrun.inOrder hok) hok) hr).trans herr

end Endpoint

namespace Outgoing

variable {masked : Bool} {fits : Nat → Nat → Prop} {o o' : Outgoing}

/-- Once the job that ends the connection has been written, the writer has ended, and no write has
failed. -/
def EndsClean (o : Outgoing) : Prop :=
  ∀ j ∈ o.written, j.last = true →
    o.writer.state = .stopped ∧ ∀ i f, ⟨i, .failed f⟩ ∉ o.completions

theorem EndsClean.of_running (h : EndsClean o) (hrun : o.writer.state ≠ .stopped)
    (hw : ∀ j ∈ o'.written, j ∈ o.written ∨ j.last = false) : EndsClean o' := by
  intro j hj hl
  rcases hw j hj with hj | hno
  · exact absurd (h j hj hl).1 hrun
  · exact absurd (hno.symm.trans hl) Bool.false_ne_true

theorem EndsClean.move (h : EndsClean o) (hs : o.Sound masked fits)
    (hm : Move masked fits o o') : EndsClean o' := by
  have hold : ∀ {o'' : Outgoing}, o''.written = o.written →
      ∀ j ∈ o''.written, j ∈ o.written ∨ j.last = false := fun hw j hj => .inl (hw ▸ hj)
  cases hm with
  | enter j f keys hj => exact h.of_running hj.running (hold rfl)
  | shut => exact h
  | takeHeld j rest _ hidle | takeNew j rest _ hidle | hold j rest _ hidle =>
    exact h.of_running (by simp [hidle]) (hold rfl)
  | put j front rest _ hsend => exact h.of_running (by simp [hsend]) (hold rfl)
  | dropHeld j rest _ hidle | dropNew j rest _ hidle =>
    exact h.of_running (by simp [hidle]) (hold (written_settle_aborted o j))
  | write j _ hsend hl =>
    refine h.of_running (by simp [hsend]) fun i hi => ?_
    rw [written_complete, List.mem_append, List.mem_singleton] at hi
    exact hi.imp id fun hi => by rwa [hi]
  | writeClose j _ hsend hl =>
    refine h.of_running (by simp [hsend]) fun i hi => ?_
    have hi : i ∈ (o.complete j).abort.written := hi
    rw [written_abort_complete, List.mem_append, List.mem_singleton] at hi
    exact hi.imp id fun hi => by rwa [hi]
  | writeLast j _ hsend =>
    refine fun _ _ _ => ⟨rfl, fun i f hf => ?_⟩
    have hf : ⟨i, .failed f⟩ ∈ (o.complete j).abort.completions := hf
    rw [completions_abort_complete] at hf
    rcases List.mem_append.mp hf with hf | hf
    · have hlost : ⟨i, .failed f⟩ ∈ o.lost := List.mem_filter.mpr ⟨hf, by simp⟩
      have := hs.shaped.running (by simp [hsend]) _ hlost
      simp at this
    · simp at hf
  | fail j u f _ hsend | cut j u _ hsend =>
    exact h.of_running (by simp [hsend]) (hold (written_stop_settle o j (by simp)))
  | stop hidle => exact h.of_running (by simp [hidle]) (hold (written_stop o))

end Outgoing

namespace Endpoint

variable {ok : Event → Prop} {fits : Nat → Nat → Prop} {e e' d d' : Endpoint}
  {past : List Endpoint}

theorem Run.endsClean (h : Run ok (e :: past)) (hok : ∀ c, ok (.write c) → c.Within fits) :
    e.outgoing.EndsClean :=
  Run.lift (P := fun _ _ o => o.EndsClean) (fun _ _ => List.forall_mem_nil _)
    (fun _ _ _ _ => id) (fun _ _ _ _ hs _ hm hp => hp.move hs hm) hok h

/-- The connection ends in order as the end goes from the state `d` to the state `d'`. The state `e`
comes later. -/
inductive EndsWell (e d d' : Endpoint) : Prop where
  | handshake (p : ClosePayload) (rest : Bytes) (hstep : d.readerStep = some d')
      (hopen : d.Listens) (hframe : d.nextClose = some (p, rest)) (hclosing : d.life.closing = true)
  | answered (p : ClosePayload) (rest : Bytes) (hstep : d.readerStep = some d')
      (hopen : d.Listens) (hframe : d.nextClose = some (p, rest))
      (hclosing : d.life.closing = false)
      (hanswer : ∃ j ∈ e.written, j.kind = .close ∧ j.last = true)
  | timeout (hstep : d.timerStep = some d')
  /-- The peer sends no more, outside of messages and before this end has started to close. -/
  | finished (hstep : d.readerStep = some d') (hopen : d.Listens)
      (hstage : d.reader.stage = .header .start)
      (htake : d.reader.input.take HeaderProgress.start.need = .ended)
      (hwhole : d.reader.sequencing.isFragmented = false) (hclosing : d.life.closing = false)

/-- A run keeps its accounts: what has been reported in its last state `e`, and why. -/
structure Accounts (states : List Endpoint) (e : Endpoint) : Prop where
  once : e.life.errors.length ≤ 1
  hook : e.life.hookRuns = if e.life.closed then 1 else 0
  read : ∀ err, .failed err ∈ e.reader.reads → e.life.errors = [err]
  /-- A write that fails is reported, unless something has been. -/
  write : ∀ d d', Passes states d d' → d.life.errors = [] →
    ∀ j f, ⟨j, .failed f⟩ ∈ d'.ended → ⟨j, .failed f⟩ ∉ d.ended → e.life.errors = [.fault f]
  cause : ∀ err ∈ e.life.errors,
    .failed err ∈ e.reader.reads ∨ ∃ j f, err = .fault f ∧ ⟨j, .failed f⟩ ∈ e.ended
  orderly : ∀ d d', Passes states d d' → EndsWell e d d' → e.life.errors = d.life.errors
  /-- When the application lets go, only a write can still fail. -/
  dropped : ∀ d, Passes states d (d.accept .drop).1 → e.life.errors = d.life.errors ∨
    ∃ j f, e.life.errors = [.fault f] ∧ ⟨j, .failed f⟩ ∈ e.ended ∧ ⟨j, .failed f⟩ ∉ d.ended

theorem Accounted.errors_of_failed (h : e.Accounted) (ht : Told e e') (hnone : e.life.errors = [])
    {j : Job} {f : Fault} (hj : ⟨j, .failed f⟩ ∈ e'.ended) (hnew : ⟨j, .failed f⟩ ∉ e.ended) :
    e'.life.errors = [.fault f] := by
  cases ht with
  | calm _ hended => exact absurd (hended j f hj) hnew
  | read _ _ _ _ _ _ hended => exact absurd (hended ▸ hj) hnew
  | write i x hopen ha hclosed hreader hheld hended =>
    obtain ⟨rest, hended, hrest⟩ := hended
    have hno : e.life.reported = false :=
      Bool.eq_false_iff.mpr fun hrep => h.reported_iff.mp hrep hnone
    have hfault : f = x := by
      rw [hended] at hj
      rcases List.mem_append.mp hj with hj | hj
      · exact absurd hj hnew
      · rcases List.mem_cons.mp hj with hj | hj
        · cases hj
          rfl
        · cases hrest _ hj
    rw [ha.errors, hno, hnone, hfault]
    rfl

theorem readerStep_of_end (hopen : d.Listens) (hreading : d.reader.reading.isSome = true)
    (hstage : d.reader.stage = .header .start)
    (htake : d.reader.input.take HeaderProgress.start.need = .ended) :
    d.readerStep = some d.endOfStream := by
  obtain ⟨m, hm⟩ := Option.isSome_iff_exists.mp hreading
  unfold readerStep
  rw [hm, hopen.1, hopen.2, hstage]
  dsimp only
  rw [if_neg (by simp), htake]
  dsimp only
  rw [if_pos rfl]

/-- All of these tear the connection down at once but the close frame of the peer that is to be
answered, and that ends the reader. -/
theorem EndsWell.settles (h : EndsWell e d d') (hin : d.InOrder fits) :
    d'.life.errors = d.life.errors ∧ (d'.life.closed = true ∨
      d'.reader.finished = true ∧ ∃ j ∈ e.written, j.last = true) := by
  have hinput : ∀ rest, Shift fits d (d.setInput rest) := fun rest => .of_same rfl rfl rfl
  have hcalm : ∀ p rest, ((d.setInput rest).handleControl (.close p)).life.errors =
      d.life.errors := fun p rest =>
    (handleControl_calm (hin.sending.shift (hinput rest)) hin.calls (.close p)).errors
  cases h with
  | handshake p rest hstep hopen hframe hclosing =>
    obtain rfl := Option.some.inj (hstep.symm.trans
      (readerStep_of_nextClose hopen (readerStep_cases hstep).1 hframe))
    refine ⟨hcalm p rest, .inl ?_⟩
    rw [handleControl, if_pos (show (d.setInput rest).life.closing = true from hclosing)]
    exact closed_teardown _
  | answered p rest hstep hopen hframe hclosing hanswer =>
    obtain rfl := Option.some.inj (hstep.symm.trans
      (readerStep_of_nextClose hopen (readerStep_cases hstep).1 hframe))
    obtain ⟨j, hj, -, hl⟩ := hanswer
    refine ⟨hcalm p rest, .inr ⟨?_, j, hj, hl⟩⟩
    rw [handleControl, if_neg (by simp [show (d.setInput rest).life.closing = false from hclosing])]
    rfl
  | timeout hstep =>
    obtain ⟨t, -, -, heq⟩ := timerStep_cases hstep
    exact ⟨(timerStep_calm hstep).errors, .inl (heq ▸ closed_teardown _)⟩
  | finished hstep hopen hstage htake hwhole hclosing =>
    obtain rfl := Option.some.inj (hstep.symm.trans
      (readerStep_of_end hopen (readerStep_cases hstep).1 hstage htake))
    rw [endOfStream, if_neg (by simp [hwhole]), if_neg (by simp [hclosing])]
    exact ⟨((Calm.teardown d).trans (.endRead _)).errors, .inl (closed_teardown d)⟩

theorem Run.errors_of_orderly (h : Run ok (e :: past)) (hok : ∀ c, ok (.write c) → c.Within fits)
    (hp : Passes (e :: past) d d') (hend : EndsWell e d d') : e.life.errors = d.life.errors := by
  obtain ⟨hmem, -, earlier, hrun⟩ := h.of_passes hp
  obtain ⟨hsame, hc | ⟨hfin, j, hj, hl⟩⟩ := hend.settles (hrun.inOrder hok)
  · exact (h.errors_of_closed hok hmem hc).trans hsame
  -- the reader has ended, and a write that fails would keep the answer from being written
  have : e.reader.finished = true ∧
      (e.life.errors = d'.life.errors ∨ ∃ i f, ⟨i, .failed f⟩ ∈ e.ended) := by
    refine h.onward (Q := fun c => c.reader.finished = true ∧
      (c.life.errors = d'.life.errors ∨ ∃ i f, ⟨i, .failed f⟩ ∈ c.ended)) hmem
      ⟨hfin, .inl rfl⟩ ?_
    rintro c c' earlier hrun - hs ⟨hfin, herr⟩
    have hin := hrun.inOrder hok
    have hkept := hs.kept hin hok
    cases hs.told hin hok with
    | calm hcalm =>
      refine ⟨hcalm.finished hfin, herr.imp hcalm.errors.trans ?_⟩
      rintro ⟨i, f, hf⟩
      exact ⟨i, f, hkept.subset hf⟩
    | read err hopen => exact absurd (hopen.1.symm.trans hfin) Bool.false_ne_true
    | write i f hopen ha hclosed hreader hheld hended =>
      obtain ⟨rest, hended, -⟩ := hended
      exact ⟨hreader ▸ hfin, .inr ⟨i, f, by simp [hended]⟩⟩
  rcases this.2 with herr | ⟨i, f, hf⟩
  · exact herr.trans hsame
  · exact absurd hf ((h.endsClean hok j hj hl).2 i f)

theorem Run.errors_of_dropped (h : Run ok (e :: past)) (hok : ∀ c, ok (.write c) → c.Within fits)
    (hp : Passes (e :: past) d (d.accept .drop).1) : e.life.errors = d.life.errors ∨
    ∃ j f, e.life.errors = [.fault f] ∧ ⟨j, .failed f⟩ ∈ e.ended ∧ ⟨j, .failed f⟩ ∉ d.ended := by
  obtain ⟨hmem, -, -⟩ := h.of_passes hp
  have : e.Abandoned ∧ (e.life.errors = d.life.errors ∨
      ∃ j f, e.life.errors = [.fault f] ∧ ⟨j, .failed f⟩ ∈ e.ended ∧ ⟨j, .failed f⟩ ∉ d.ended) := by
    -- with the application gone no read is outstanding, so only a write can fail
    refine h.onward (Q := fun c => c.Abandoned ∧ (c.life.errors = d.life.errors ∨
      ∃ j f, c.life.errors = [.fault f] ∧ ⟨j, .failed f⟩ ∈ c.ended ∧ ⟨j, .failed f⟩ ∉ d.ended))
      hmem ⟨⟨rfl, rfl⟩, .inl rfl⟩ ?_
    rintro c c' earlier hrun hd hs ⟨hleft, herr⟩
    have hin := hrun.inOrder hok
    have hacc := hrun.accounted hok
    have hkept := hs.kept hin hok
    cases hs.told hin hok with
    | calm hcalm =>
      refine ⟨hcalm.abandoned hleft, herr.imp hcalm.errors.trans ?_⟩
      rintro ⟨j, f, herr, hj, hnew⟩
      exact ⟨j, f, hcalm.errors.trans herr, hkept.subset hj, hnew⟩
    | read err hopen hreading => simp [hleft.2] at hreading
    | write j f hopen ha hclosed hreader hheld hended =>
      obtain ⟨rest, hended, -⟩ := hended
      have hclean : ∀ i x, ⟨i, .failed x⟩ ∉ c.ended := fun i x hx =>
        absurd (hopen.symm.trans (hacc.failed i x hx)) Bool.false_ne_true
      refine ⟨⟨hheld.trans hleft.1, by rw [hreader]; exact hleft.2⟩, ?_⟩
      rw [ha.errors]
      split
      · left
        rcases herr with herr | ⟨i, x, -, hx, -⟩
        · exact herr
        · exact absurd hx (hclean i x)
      · next hno =>
        rw [hacc.errors_eq_nil (eq_false_of_ne_true hno)]
        refine .inr ⟨j, f, rfl, by simp [hended], fun hold => hclean j f ?_⟩
        exact (hrun.kept hok _ hd).subset hold
  exact this.2

/-- In every run there is one report at most, of the error with which a read fails or of the fault
under the first write to fail. The connection being closed by handshake, by the timer, by the end of
the stream or by the application is no error. The close hook runs once, as the connection is torn
down. -/
theorem accounts_of_run (h : Run (fun _ => True) (e :: past)) : Accounts (e :: past) e := by
  have hok : ∀ c : WriteCall, True → c.Within fun _ _ => True := fun c _ => c.within_any
  have hacc := h.accounted hok
  refine ⟨?_, hacc.hook, hacc.read, ?_, hacc.cause, fun d d' => h.errors_of_orderly hok,
    fun d => h.errors_of_dropped hok⟩
  · rcases hacc.report with ⟨-, hnone⟩ | ⟨-, err, herr⟩
    · simp [hnone]
    · simp [herr]
  · intro d d' hp hnone j f hj hnew
    obtain ⟨hmem, hs, earlier, hrun⟩ := h.of_passes hp
    have htold := hs.told (hrun.inOrder hok) hok
    have hnow := (hrun.accounted hok).errors_of_failed htold hnone hj hnew
    rw [h.errors_kept hok hmem (by simp [hnow]), hnow]

/-- A server whose stream fails under a message. The read that is outstanding ends without an
error, and what comes in later is not looked at. -/
theorem accounts_of_run_failing :
    ∃ (e : Endpoint) (past : List Endpoint), Run (fun _ => True) (e :: past) ∧
      e.life.errors = [.fault ⟨.brokenPipe, ""⟩] ∧ e.reader.reads.toList = [.ended] ∧
      e.life.hookRuns = 1 ∧ Accounts (e :: past) e := by
  have h : Run (fun _ => True) [opened .server .none (fun _ => .zero) (some 3) none] :=
    .start _ _ _ _ _ fun _ _ => trivial
  obtain ⟨e, past, h, hy⟩ := h.handleAll (n := 8)
    (f := fun e => (e.life.errors, e.reader.reads.toList, e.life.hookRuns))
    [.read .all, .write (.message [0x61, 0x62] true), .failWrites ⟨.brokenPipe, ""⟩, .feed [0xf0]]
    (fun _ _ => trivial) (y := ([.fault ⟨.brokenPipe, ""⟩], [.ended], 1)) (by decide)
  obtain ⟨herrors, hreads, hhook⟩ := by simpa only [Prod.mk.injEq] using hy
  exact ⟨e, past, h, herrors, hreads, hhook, accounts_of_run h⟩

end Endpoint

end WebSocket
