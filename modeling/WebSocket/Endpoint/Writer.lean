import WebSocket.Endpoint.State

/-!
The writer. It takes jobs one at a time and puts them on the wire whole. While a data frame is on
the wire in part, only further parts of it go out and all else is held back. Nothing follows a
close frame.
-/

namespace WebSocket.Endpoint

def finish (e : Endpoint) (job : Job) (outcome : Outcome) : Endpoint :=
  { e with
    outbox := { e.outbox with slots := e.outbox.slots.release job.kind }
    writer := { e.writer with completions := e.writer.completions.push ⟨job, outcome⟩ } }

/-- Aborts all jobs that wait, first those held back and then those queued. -/
def abortWaiting (e : Endpoint) : Endpoint :=
  let waiting := e.writer.deferred ++ e.outbox.queue
  { e with
    outbox :=
      { e.outbox with
        slots := waiting.foldl (fun s job => s.release job.kind) e.outbox.slots
        queue := [] }
    writer :=
      { e.writer with
        deferred := []
        completions := e.writer.completions ++ (waiting.map (Completion.mk · .aborted)).toArray } }

/-- Ends the writer: what waits is aborted, the connection torn down, the stream shut down. -/
def stop (e : Endpoint) : Endpoint :=
  let e := e.abortWaiting.teardown.setWriterState .stopped
  { e with transport := { e.transport with shutDown := true } }

/-- Takes up a job: it is sent, held back, or aborted behind a close frame. -/
def takeUp (e : Endpoint) (job : Job) : Endpoint :=
  if e.writer.closeSent then e.finish job .aborted
  else if e.writer.frameOpen && job.kind != .continuation then
    e.setDeferred (e.writer.deferred ++ [job])
  else e.setWriterState (.sending job job.bytes)

def complete (e : Endpoint) (job : Job) : Endpoint :=
  let e := ((e.finish job .written).setWriterState .idle).setFrameOpen (0 < job.owed)
  if job.last then e.teardown.stop
  else if job.kind = .close then
    let e := e.abortWaiting
    { e with writer := { e.writer with closeSent := true } }
  else e

def failJob (e : Endpoint) (job : Job) (f : Fault) : Endpoint :=
  ((e.finish job (.failed f)).report (.fault f)).stop

/-- The writer's next step; none if it has to wait. A teardown is seen before all else. -/
def writerStep (e : Endpoint) : Option Endpoint :=
  match e.writer.state with
  | .stopped => none
  | .sending job unsent =>
    if e.life.closed then some (e.finish job .aborted).stop
    else
      match unsent with
      | [] =>
        match e.transport.flushFault with
        | some f => some (e.failJob job f)
        | none => some (e.complete job)
      | _ :: _ =>
        match e.transport.write unsent with
        | .waits => none
        | .failed f => some (e.failJob job f)
        | .took rest t =>
          some { e.setWriterState (.sending job rest) with transport := t }
  | .idle =>
    if e.life.closed then some e.stop
    else
      match (if e.writer.frameOpen then [] else e.writer.deferred) with
      | job :: rest => some ((e.setDeferred rest).takeUp job)
      | [] =>
        match e.outbox.queue with
        | job :: rest => some ((e.setQueue rest).takeUp job)
        | [] => if e.held then none else some e.stop

end WebSocket.Endpoint
