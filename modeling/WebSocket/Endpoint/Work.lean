import WebSocket.Endpoint.Moves

/-!
How much work is left at an end. Every step of the reader lessens the reader's work. Every step of
the writer, and the timer when it goes off, leaves the reader's work as it is and lessens the rest.
So an end comes to rest.
-/

namespace WebSocket

def totalWork (work : Job → Nat) (jobs : List Job) : Nat := jobs.foldr (fun j n => work j + n) 0

@[simp] theorem totalWork_nil (work : Job → Nat) : totalWork work [] = 0 := rfl

@[simp] theorem totalWork_cons (work : Job → Nat) (j : Job) (js : List Job) :
    totalWork work (j :: js) = work j + totalWork work js := rfl

theorem totalWork_concat (work : Job → Nat) (js : List Job) (j : Job) :
    totalWork work (js ++ [j]) = totalWork work js + work j := by
  induction js with
  | nil => simp only [List.nil_append, totalWork_cons, totalWork_nil]; omega
  | cons k js ih => simp only [List.cons_append, totalWork_cons, ih]; omega

def WriterState.work : WriterState → Nat
  | .stopped => 0
  | .idle => 1
  | .sending _ unsent => 2 + unsent.length

@[simp] theorem WriterState.work_idle : idle.work = 1 := rfl

@[simp] theorem WriterState.work_sending (job : Job) (unsent : Bytes) :
    (sending job unsent).work = 2 + unsent.length := rfl

/-- How many steps the reader can make before it needs the next byte. -/
def Stage.work : Stage → Nat
  | .header _ => 0
  | .answer _ => 1
  | .data _ | .control _ => 2

namespace Endpoint

def readerWork (e : Endpoint) : Nat :=
  match e.reader.reading with
  | none => 0
  | some _ => 1 + 3 * e.reader.input.bytes.length + e.reader.stage.work

/-- A job in the queue is taken up, or held back and then taken up, and its bytes are written. -/
def writerWork (e : Endpoint) : Nat :=
  e.writer.state.work + totalWork (fun j => 2 + j.bytes.length) e.writer.deferred +
    totalWork (fun j => 3 + j.bytes.length) e.outbox.queue

def timerWork (e : Endpoint) : Nat := if e.life.timer.isSome then 1 else 0

def sendingWork (e : Endpoint) : Nat := e.timerWork + e.writerWork

/-! What the steps leave alone. -/

section Unchanged

variable (e : Endpoint)

@[simp] theorem reader_teardown : e.teardown.reader = e.reader := by
  unfold teardown; split <;> rfl

@[simp] theorem writer_teardown : e.teardown.writer = e.writer := by
  unfold teardown; split <;> rfl

@[simp] theorem outbox_teardown : e.teardown.outbox = e.outbox := by
  unfold teardown; split <;> rfl

theorem timerWork_teardown : e.teardown.timerWork ≤ e.timerWork := by
  unfold teardown timerWork; split <;> simp

@[simp] theorem reader_report (err : Error) : (e.report err).reader = e.reader := by
  unfold report; split <;> rfl

@[simp] theorem writer_report (err : Error) : (e.report err).writer = e.writer := by
  unfold report; split <;> rfl

@[simp] theorem outbox_report (err : Error) : (e.report err).outbox = e.outbox := by
  unfold report; split <;> rfl

@[simp] theorem timerWork_report (err : Error) : (e.report err).timerWork = e.timerWork := by
  unfold report timerWork; split <;> rfl

@[simp] theorem reader_stop : e.stop.reader = e.reader := reader_teardown e.abortWaiting

@[simp] theorem reader_complete (job : Job) : (e.complete job).reader = e.reader := by
  unfold complete
  dsimp only
  split
  · exact (reader_stop _).trans (reader_teardown _)
  · split <;> rfl

@[simp] theorem reader_failJob (job : Job) (f : Fault) : (e.failJob job f).reader = e.reader :=
  (reader_stop _).trans (reader_report (e.finish job (.failed f)) _)

@[simp] theorem reader_takeUp (job : Job) : (e.takeUp job).reader = e.reader := by
  unfold takeUp
  split
  · rfl
  · split <;> rfl

@[simp] theorem reader_drawKey : e.drawKey.2.reader = e.reader := by
  unfold drawKey; split <;> rfl

@[simp] theorem reader_enqueue (kind : JobKind) (h : Option Header) (b : Bytes) (k : Option Key)
    (o n : Nat) (last : Bool) : (e.enqueue kind h b k o n last).1.reader = e.reader := by
  unfold enqueue
  split
  · rfl
  · split <;> rfl

@[simp] theorem reader_enqueueControl (kind : JobKind) (o : Opcode) (b : Bytes) (last : Bool) :
    (e.enqueueControl kind o b last).1.reader = e.reader := by
  simp [enqueueControl]

@[simp] theorem reader_writeFirstChunk (n : UInt64) (b : Bytes) (last binary : Bool) :
    (e.writeFirstChunk n b last binary).1.reader = e.reader := by
  unfold writeFirstChunk
  split
  · rfl
  · split
    · rfl
    · split
      · rfl
      · split
        · rfl
        · simp only
          split <;> next h => simpa using congrArg (·.1.reader) h.symm

@[simp] theorem reader_writeContinuation (b : Bytes) :
    (e.writeContinuation b).1.reader = e.reader := by
  unfold writeContinuation
  split
  · rfl
  · split
    · rfl
    · simp only
      split
      · rfl
      · split
        · rfl
        · split <;> next h => simpa using congrArg (·.1.reader) h.symm

@[simp] theorem reader_writeControl (kind : JobKind) (o : Opcode) (b : Bytes) :
    (e.writeControl kind o b).1.reader = e.reader := by
  unfold writeControl
  split
  · rfl
  · split
    · rfl
    · split
      · rfl
      · simp

@[simp] theorem reader_writeClose (c : CloseCode) (r : String) (t : Bool) :
    (e.writeClose c r t).1.reader = e.reader := by
  unfold writeClose
  split
  · rfl
  · split
    · rfl
    · split
      · rfl
      · split
        · rfl
        · split
          · rfl
          · exact reader_enqueueControl _ _ _ _ _

@[simp] theorem reader_write (c : WriteCall) : (e.write c).1.reader = e.reader := by
  cases c <;> simp [write]

@[simp] theorem reader_writeAll (cs : List WriteCall) : (e.writeAll cs).1.reader = e.reader := by
  induction cs generalizing e with
  | nil => rfl
  | cons c cs ih => simp [writeAll, ih]

@[simp] theorem reader_queuePong (b : Bytes) : (e.queuePong b).1.reader = e.reader := by
  unfold queuePong
  split
  · rfl
  · split <;> simp

@[simp] theorem reader_queueFinalClose (c : CloseCode) (r : String) :
    (e.queueFinalClose c r).1.reader = e.reader := by
  unfold queueFinalClose
  split
  · rfl
  · split
    · rfl
    · split
      · rfl
      · exact reader_enqueueControl e.armTimer _ _ _ _

end Unchanged

/-! The writer's steps. -/

@[simp] theorem writerWork_stop (e : Endpoint) : e.stop.writerWork = 0 := by
  simp [stop, writerWork, setWriterState, abortWaiting, WriterState.work]

theorem timerWork_stop (e : Endpoint) : e.stop.timerWork ≤ e.timerWork :=
  timerWork_teardown e.abortWaiting

@[simp] theorem writerWork_finish (e : Endpoint) (job : Job) (o : Outcome) :
    (e.finish job o).writerWork = e.writerWork := rfl

@[simp] theorem timerWork_finish (e : Endpoint) (job : Job) (o : Outcome) :
    (e.finish job o).timerWork = e.timerWork := rfl

theorem work_le_writerWork (e : Endpoint) : e.writer.state.work ≤ e.writerWork := by
  unfold writerWork; omega

theorem sendingWork_stop (e : Endpoint) (h : 0 < e.writer.state.work) :
    e.stop.sendingWork < e.sendingWork := by
  have := timerWork_stop e
  have := work_le_writerWork e
  simp only [sendingWork, writerWork_stop]
  omega

@[simp] theorem timerWork_takeUp (e : Endpoint) (job : Job) :
    (e.takeUp job).timerWork = e.timerWork := by
  unfold takeUp
  split
  · rfl
  · split <;> rfl

theorem writerWork_setWriterState (e : Endpoint) (s : WriterState) :
    (e.setWriterState s).writerWork + e.writer.state.work = e.writerWork + s.work := by
  simp only [writerWork, setWriterState]; omega

/-- Taking up a job from the queue costs one step more than its bytes and what follows them, and
taking up one that was held back costs none more, as it is not held back again. -/
theorem writerWork_takeUp (e : Endpoint) (job : Job) (hs : e.writer.state.work = 1) :
    (e.takeUp job).writerWork ≤ e.writerWork + job.bytes.length + 2 ∧
      (e.writer.frameOpen = false →
        (e.takeUp job).writerWork ≤ e.writerWork + job.bytes.length + 1) := by
  unfold takeUp
  split
  · rw [writerWork_finish]; omega
  · split
    · next h =>
      simp only [Bool.and_eq_true] at h
      refine ⟨?_, fun hf => absurd hf (by simp [h.1])⟩
      simp only [writerWork, setDeferred, totalWork_concat]
      omega
    · have := writerWork_setWriterState e (.sending job job.bytes)
      rw [WriterState.work_sending] at this
      omega

theorem writerWork_abortWaiting (e : Endpoint) : e.abortWaiting.writerWork ≤ e.writerWork := by
  simp only [writerWork, abortWaiting, totalWork_nil]; omega

theorem sendingWork_complete (e : Endpoint) (job : Job)
    (hs : e.writer.state.work = 2) : (e.complete job).sendingWork < e.sendingWork := by
  have hpos := work_le_writerWork e
  have hidle := writerWork_setWriterState e .idle
  rw [WriterState.work_idle] at hidle
  let e' := ((e.finish job .written).setWriterState .idle).setFrameOpen (0 < job.owed)
  have hw : e'.writerWork = (e.setWriterState .idle).writerWork := rfl
  have ht : e'.timerWork = e.timerWork := rfl
  have habort := writerWork_abortWaiting e'
  have hstop := Nat.le_trans (timerWork_stop e'.teardown) (timerWork_teardown e')
  unfold complete
  simp only
  split
  · show e'.teardown.stop.sendingWork < _
    simp only [sendingWork, writerWork_stop]
    omega
  · split
    · show e'.timerWork + e'.abortWaiting.writerWork < e.timerWork + e.writerWork
      omega
    · show e'.timerWork + e'.writerWork < e.timerWork + e.writerWork
      omega

theorem sendingWork_failJob (e : Endpoint) (job : Job) (f : Fault)
    (hs : 0 < e.writer.state.work) : (e.failJob job f).sendingWork < e.sendingWork := by
  have h := timerWork_stop ((e.finish job (.failed f)).report (.fault f))
  rw [timerWork_report, timerWork_finish] at h
  have := work_le_writerWork e
  simp only [failJob, sendingWork, writerWork_stop]
  omega

theorem writerWork_of_deferred {e : Endpoint} {job : Job} {rest : List Job}
    (h : e.writer.deferred = job :: rest) :
    e.writerWork = (e.setDeferred rest).writerWork + (2 + job.bytes.length) := by
  simp only [writerWork, setDeferred, h, totalWork_cons]; omega

theorem writerWork_of_queue {e : Endpoint} {job : Job} {rest : List Job}
    (h : e.outbox.queue = job :: rest) :
    e.writerWork = (e.setQueue rest).writerWork + (3 + job.bytes.length) := by
  simp only [writerWork, setQueue, h, totalWork_cons]; omega

/-- A step of the writer leaves the reader alone and lessens the other work. -/
theorem sendingWork_writerStep {e e' : Endpoint} (h : e.writerStep = some e') :
    e'.reader = e.reader ∧ e'.sendingWork < e.sendingWork := by
  cases writerStep_cases h with
  | cut job unsent hs =>
    have hpos : 0 < e.writer.state.work := by rw [hs, WriterState.work_sending]; omega
    exact ⟨reader_stop (e.finish job .aborted), sendingWork_stop (e.finish job .aborted) hpos⟩
  | fail job unsent f hs =>
    have hpos : 0 < e.writer.state.work := by rw [hs, WriterState.work_sending]; omega
    exact ⟨by simp, sendingWork_failJob e job f hpos⟩
  | complete job hs => exact ⟨by simp, sendingWork_complete e job (by rw [hs]; rfl)⟩
  | put job unsent rest t hs hopen hne hw =>
    have := Transport.length_of_write hne hw
    have := writerWork_setWriterState e (.sending job rest)
    rw [hs, WriterState.work_sending, WriterState.work_sending] at this
    refine ⟨rfl, Nat.add_lt_add_left (k := e.timerWork) ?_⟩
    show (e.setWriterState (.sending job rest)).writerWork < _
    omega
  | takeHeld job rest hs hopen hf hd =>
    refine ⟨reader_takeUp (e.setDeferred rest) job, ?_⟩
    have := (writerWork_takeUp (e.setDeferred rest) job (by simp [setDeferred, hs])).2 hf
    have := writerWork_of_deferred hd
    have ht : (e.setDeferred rest).timerWork = e.timerWork := rfl
    simp only [sendingWork, timerWork_takeUp]
    omega
  | takeNew job rest hs hopen hd hq =>
    refine ⟨reader_takeUp (e.setQueue rest) job, ?_⟩
    have := (writerWork_takeUp (e.setQueue rest) job (by simp [setQueue, hs])).1
    have := writerWork_of_queue hq
    have ht : (e.setQueue rest).timerWork = e.timerWork := rfl
    simp only [sendingWork, timerWork_takeUp]
    omega
  | stop hs =>
    exact ⟨by simp, sendingWork_stop e (by simp [hs])⟩

/-! The reader's steps. -/

@[simp] theorem readerWork_endRead (e : Endpoint) (r : ReadResult) :
    (e.endRead r).readerWork = 0 := rfl

@[simp] theorem readerWork_rejectPeer (e : Endpoint) (v : Violation) :
    (e.rejectPeer v).readerWork = 0 := rfl

@[simp] theorem readerWork_failRead (e : Endpoint) (f : Fault) :
    (e.failRead f).readerWork = 0 := rfl

@[simp] theorem readerWork_endOfStream (e : Endpoint) : e.endOfStream.readerWork = 0 := by
  unfold endOfStream
  split
  · rfl
  · split <;> rfl

theorem readerWork_le (e : Endpoint) :
    e.readerWork ≤ 1 + 3 * e.reader.input.bytes.length + e.reader.stage.work := by
  unfold readerWork; split <;> omega

theorem readerWork_setStage (e : Endpoint) (s : Stage) :
    (e.setStage s).readerWork ≤ 1 + 3 * e.reader.input.bytes.length + s.work :=
  readerWork_le _

theorem readerWork_deliver (e : Endpoint) (c : Chunk) :
    (e.deliver c).readerWork ≤ 1 + 3 * e.reader.input.bytes.length + e.reader.stage.work :=
  readerWork_le _

theorem readerWork_openFrame (e : Endpoint) (h : Header) :
    (e.openFrame h).readerWork ≤ 3 + 3 * e.reader.input.bytes.length := by
  unfold openFrame
  split
  · rw [readerWork_rejectPeer]; omega
  · have := readerWork_setStage e (.control h)
    simp only [Stage.work] at this
    omega
  · split
    · refine Nat.le_trans (readerWork_le _) ?_
      simp only [Stage.work]
      omega
    · rw [readerWork_rejectPeer]; omega

theorem readerWork_readHeaderPiece (e : Endpoint) (p : HeaderProgress) (piece : Bytes) :
    (e.readHeaderPiece p piece).readerWork ≤ 3 + 3 * e.reader.input.bytes.length := by
  unfold readHeaderPiece
  split
  · rw [readerWork_rejectPeer]; omega
  · next q _ =>
    have := readerWork_setStage e (.header q)
    simp only [Stage.work] at this
    omega
  · exact readerWork_openFrame e _

theorem readerWork_deliverText (e : Endpoint) (c : Chunk) :
    (e.deliverText c).readerWork ≤
      1 + 3 * e.reader.input.bytes.length + e.reader.stage.work := by
  unfold deliverText
  simp only
  split
  · rw [readerWork_rejectPeer]; omega
  · split
    · rw [readerWork_rejectPeer]; omega
    · exact readerWork_deliver _ _

theorem readerWork_readData (e : Endpoint) (f : IncomingFrame) (piece : Bytes) :
    (e.readData f piece).readerWork ≤
      1 + 3 * e.reader.input.bytes.length + if f.remaining - piece.length = 0 then 0 else 2 := by
  have hs : ∀ f' : IncomingFrame,
      (if (f.remaining - piece.length == 0) = true then Stage.header .start
        else Stage.data f').work ≤ if f.remaining - piece.length = 0 then 0 else 2 := by
    intro f'
    by_cases h : f.remaining - piece.length = 0 <;> simp [h, Stage.work]
  unfold readData
  simp only
  split
  · exact Nat.le_trans (readerWork_deliver _ _) (Nat.add_le_add_left (hs _) _)
  · exact Nat.le_trans (readerWork_deliverText _ _) (Nat.add_le_add_left (hs _) _)

@[simp] theorem reader_notify_input (e : Endpoint) (c : Control) :
    (e.notify c).reader.input = e.reader.input := by
  simp [notify]

theorem readerWork_readControl (e : Endpoint) (h : Header) (piece : Bytes) :
    (e.readControl h piece).readerWork ≤ 2 + 3 * e.reader.input.bytes.length := by
  unfold readControl
  split
  · rw [readerWork_rejectPeer]; omega
  · have := readerWork_setStage e (.header .start)
    simp only [Stage.work] at this
    omega
  · next c _ =>
    cases c with
    | close p => simp only [handleControl]; split <;> simp
    | ping payload =>
      have := readerWork_setStage (e.notify (.ping payload)) (.answer payload)
      simp only [Stage.work, reader_notify_input] at this
      simp only [handleControl]
      omega
    | pong payload =>
      have := readerWork_setStage (e.notify (.pong payload)) (.header .start)
      simp only [Stage.work, reader_notify_input] at this
      simp only [handleControl]
      omega

theorem readerWork_answerPing (e : Endpoint) (payload : Bytes) :
    (e.answerPing payload).readerWork ≤ 1 + 3 * e.reader.input.bytes.length := by
  refine Nat.le_trans (readerWork_le _) ?_
  simp [answerPing, Stage.work]

theorem one_le_chunkLength (c : Config) (f : IncomingFrame) (h : f.remaining ≠ 0) :
    1 ≤ chunkLength c f := by
  unfold chunkLength; omega

theorem readerWork_readerStep {e e' : Endpoint} (h : e.readerStep = some e') :
    e'.readerWork < e.readerWork := by
  obtain ⟨hreading, hmove⟩ := readerStep_cases h
  obtain ⟨m, hm⟩ := Option.isSome_iff_exists.mp hreading
  have hwork : e.readerWork = 1 + 3 * e.reader.input.bytes.length + e.reader.stage.work := by
    simp [readerWork, hm]
  cases hmove with
  | leave => rw [readerWork_endRead]; omega
  | fail => rw [readerWork_failRead]; omega
  | finish => rw [readerWork_endOfStream]; omega
  | header p piece rest hopen hs ht =>
    have hneed : 1 ≤ p.need := by cases p <;> simp [HeaderProgress.need]; split <;> omega
    obtain ⟨hl, hb⟩ := Input.length_of_take ht
    have := readerWork_readHeaderPiece (e.setInput rest) p piece
    have hr : (e.setInput rest).reader.input.bytes = rest := rfl
    rw [hr] at this
    rw [hwork, hb, List.length_append]
    omega
  | data f piece rest hopen hs ht =>
    obtain ⟨hl, hb⟩ := Input.length_of_take ht
    have := readerWork_readData (e.setInput rest) f piece
    have hr : (e.setInput rest).reader.input.bytes = rest := rfl
    have hpos := one_le_chunkLength e.config f
    rw [hr] at this
    rw [hwork, hb, List.length_append, hs, Stage.work]
    split at this
    · omega
    · have := hpos (by omega)
      omega
  | control c piece rest hopen hs ht =>
    obtain ⟨hl, hb⟩ := Input.length_of_take ht
    have := readerWork_readControl (e.setInput rest) c piece
    have hr : (e.setInput rest).reader.input.bytes = rest := rfl
    rw [hr] at this
    rw [hwork, hb, List.length_append, hs, Stage.work]
    omega
  | answer payload hopen hs =>
    have := readerWork_answerPing e payload
    rw [hwork, hs, Stage.work]
    omega

end Endpoint

end WebSocket
