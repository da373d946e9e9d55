import Mathlib.Data.List.Induction
import WebSocket.Endpoint.Writer
import WebSocket.Proofs.Endpoint.Jobs

/-! The sending side of an end: the jobs handed in, the jobs settled, and the bytes on the wire.
`Move` says what can become of it; every step of an end comes down to such moves. -/

namespace WebSocket

structure Outgoing where
  outbox : Outbox
  writer : Writer
  wire : Array UInt8
  closed : Bool
  closing : Bool

/-- The sending side of an end. -/
def Endpoint.outgoing (e : Endpoint) : Outgoing :=
  ⟨e.outbox, e.writer, e.transport.wire, e.life.closed, e.life.closing⟩

def Outbox.enter (o : Outbox) (j : Job) (frame : OutgoingFrame) (keysDrawn : Nat) : Outbox :=
  ⟨o.slots.set j.kind true, frame, o.nextSerial + 1, keysDrawn, o.queue ++ [j]⟩

namespace Outgoing

def inHand (o : Outgoing) : List Job :=
  match o.writer.state with
  | .sending job _ => [job]
  | .idle | .stopped => []

def waiting (o : Outgoing) : List Job := o.writer.deferred ++ o.outbox.queue

def held (o : Outgoing) : List Job := o.inHand ++ o.waiting

def completions (o : Outgoing) : List Completion := o.writer.completions.toList

/-- All jobs ever handed in: those settled, in the order in which they were, then the others. -/
def lineUp (o : Outgoing) : List Job := o.completions.map (·.job) ++ o.held

def written (o : Outgoing) : List Job :=
  (o.completions.filter (·.outcome = .written)).map (·.job)

def settle (o : Outgoing) (cs : List Completion) : Outgoing :=
  { o with
    outbox := { o.outbox with slots := cs.foldl (fun s c => s.release c.job.kind) o.outbox.slots }
    writer := { o.writer with completions := o.writer.completions ++ cs.toArray } }

def abort (o : Outgoing) : Outgoing :=
  let o' := o.settle (o.waiting.map (⟨·, .aborted⟩))
  { o' with
    outbox := { o'.outbox with queue := [] }
    writer := { o'.writer with deferred := [] } }

def setState (o : Outgoing) (state : WriterState) : Outgoing :=
  { o with writer := { o.writer with state } }

def stop (o : Outgoing) : Outgoing := { o.abort.setState .stopped with closed := true }

def complete (o : Outgoing) (j : Job) : Outgoing :=
  let o' := (o.settle [⟨j, .written⟩]).setState .idle
  { o' with writer := { o'.writer with frameOpen := 0 < j.owed } }

/-- A job that may be handed in, and where the bookkeeping stands after it. -/
structure Enters (masked : Bool) (fits : Nat → Nat → Prop) (o : Outgoing) (j : Job)
    (f : OutgoingFrame) : Prop where
  opened : o.closed = false
  running : o.writer.state ≠ .stopped
  serial : j.serial = o.outbox.nextSerial
  slot : o.outbox.slots.isBusy j.kind = false
  closing : o.closing = true → j.kind = .continuation
  follows : Follows masked fits o.outbox.frame j f

/-- What can become of the sending side. -/
inductive Move (masked : Bool) (fits : Nat → Nat → Prop) : Outgoing → Outgoing → Prop where
  | enter {o : Outgoing} (j : Job) (f : OutgoingFrame) (keys : Nat)
      (hj : Enters masked fits o j f) :
      Move masked fits o
        { o with
          outbox := o.outbox.enter j f keys
          closing := o.closing || (j.kind == .close && !j.last) }
  | shut (o : Outgoing) : Move masked fits o { o with closed := true }
  | takeHeld {o : Outgoing} (j : Job) (rest : List Job) (hopen : o.closed = false)
      (hs : o.writer.state = .idle) (hc : o.writer.closeSent = false)
      (hf : o.writer.frameOpen = false) (hd : o.writer.deferred = j :: rest) :
      Move masked fits o
        { o with writer := { o.writer with state := .sending j j.bytes, deferred := rest } }
  | takeNew {o : Outgoing} (j : Job) (rest : List Job) (hopen : o.closed = false)
      (hs : o.writer.state = .idle) (hc : o.writer.closeSent = false)
      (hd : o.writer.frameOpen = true ∨ o.writer.deferred = [])
      (hk : o.writer.frameOpen = true → j.kind = .continuation)
      (hq : o.outbox.queue = j :: rest) :
      Move masked fits o
        { o with
          writer := { o.writer with state := .sending j j.bytes }
          outbox := { o.outbox with queue := rest } }
  | hold {o : Outgoing} (j : Job) (rest : List Job) (hopen : o.closed = false)
      (hs : o.writer.state = .idle) (hc : o.writer.closeSent = false)
      (hf : o.writer.frameOpen = true) (hk : j.kind ≠ .continuation)
      (hq : o.outbox.queue = j :: rest) :
      Move masked fits o
        { o with
          writer := { o.writer with deferred := o.writer.deferred ++ [j] }
          outbox := { o.outbox with queue := rest } }
  | dropHeld {o : Outgoing} (j : Job) (rest : List Job) (hopen : o.closed = false)
      (hs : o.writer.state = .idle) (hc : o.writer.closeSent = true)
      (hf : o.writer.frameOpen = false) (hd : o.writer.deferred = j :: rest) :
      Move masked fits o
        { o.settle [⟨j, .aborted⟩] with
          writer := { (o.settle [⟨j, .aborted⟩]).writer with deferred := rest } }
  | dropNew {o : Outgoing} (j : Job) (rest : List Job) (hopen : o.closed = false)
      (hs : o.writer.state = .idle) (hc : o.writer.closeSent = true)
      (hd : o.writer.frameOpen = true ∨ o.writer.deferred = [])
      (hq : o.outbox.queue = j :: rest) :
      Move masked fits o
        { o.settle [⟨j, .aborted⟩] with
          outbox := { (o.settle [⟨j, .aborted⟩]).outbox with queue := rest } }
  | put {o : Outgoing} (j : Job) (front rest : Bytes) (hopen : o.closed = false)
      (hs : o.writer.state = .sending j (front ++ rest)) :
      Move masked fits o { o.setState (.sending j rest) with wire := o.wire ++ front.toArray }
  | write {o : Outgoing} (j : Job) (hopen : o.closed = false) (hs : o.writer.state = .sending j [])
      (hl : j.last = false) (hk : j.kind ≠ .close) : Move masked fits o (o.complete j)
  | writeClose {o : Outgoing} (j : Job) (hopen : o.closed = false)
      (hs : o.writer.state = .sending j []) (hl : j.last = false) (hk : j.kind = .close) :
      Move masked fits o
        { (o.complete j).abort with
          writer := { (o.complete j).abort.writer with closeSent := true } }
  | writeLast {o : Outgoing} (j : Job) (hopen : o.closed = false)
      (hs : o.writer.state = .sending j []) (hl : j.last = true) :
      Move masked fits o (o.complete j).stop
  | fail {o : Outgoing} (j : Job) (unsent : Bytes) (f : Fault) (hopen : o.closed = false)
      (hs : o.writer.state = .sending j unsent) :
      Move masked fits o (o.settle [⟨j, .failed f⟩]).stop
  | cut {o : Outgoing} (j : Job) (unsent : Bytes) (hshut : o.closed = true)
      (hs : o.writer.state = .sending j unsent) : Move masked fits o (o.settle [⟨j, .aborted⟩]).stop
  | stop {o : Outgoing} (hs : o.writer.state = .idle) : Move masked fits o o.stop

/-! What is seen of the jobs after a settlement. -/

section

variable (o : Outgoing) (cs : List Completion) (j : Job)

@[simp] theorem completions_settle : (o.settle cs).completions = o.completions ++ cs := by
  simp [completions, settle]

@[simp] theorem completions_abort :
    o.abort.completions = o.completions ++ o.waiting.map (⟨·, .aborted⟩) := by
  simp [abort, completions, settle]

@[simp] theorem completions_stop :
    o.stop.completions = o.completions ++ o.waiting.map (⟨·, .aborted⟩) := completions_abort o

@[simp] theorem completions_complete :
    (o.complete j).completions = o.completions ++ [⟨j, .written⟩] := by
  simp [complete, completions, settle, setState]

@[simp] theorem waiting_settle : (o.settle cs).waiting = o.waiting := rfl

@[simp] theorem waiting_complete : (o.complete j).waiting = o.waiting := rfl

theorem completions_stop_settle (x : Outcome) : (o.settle [⟨j, x⟩]).stop.completions =
    o.completions ++ ⟨j, x⟩ :: o.waiting.map (⟨·, .aborted⟩) := by
  rw [completions_stop, completions_settle, waiting_settle, List.append_assoc]
  rfl

theorem completions_abort_complete : (o.complete j).abort.completions =
    o.completions ++ ⟨j, .written⟩ :: o.waiting.map (⟨·, .aborted⟩) := by
  rw [completions_abort, completions_complete, waiting_complete, List.append_assoc]
  rfl

@[simp] theorem wire_stop : o.stop.wire = o.wire := rfl

@[simp] theorem state_stop : o.stop.writer.state = .stopped := rfl

@[simp] theorem state_complete : (o.complete j).writer.state = .idle := rfl

@[simp] theorem held_stop : o.stop.held = [] := rfl

end

theorem held_enter (o : Outgoing) (j : Job) (f : OutgoingFrame) (keys : Nat) (closing : Bool) :
    held { o with outbox := o.outbox.enter j f keys, closing } = o.held ++ [j] := by
  simp only [held, waiting, List.append_assoc]
  rfl

theorem lineUp_enter (o : Outgoing) (j : Job) (f : OutgoingFrame) (keys : Nat) (closing : Bool) :
    lineUp { o with outbox := o.outbox.enter j f keys, closing } = o.lineUp ++ [j] := by
  rw [lineUp, held_enter, ← List.append_assoc]
  rfl

theorem inHand_sending {o : Outgoing} {j : Job} {u : Bytes} (h : o.writer.state = .sending j u) :
    o.inHand = [j] := by
  simp [inHand, h]

theorem inHand_idle {o : Outgoing} (h : o.writer.state = .idle) : o.inHand = [] := by
  simp [inHand, h]

theorem inHand_stopped {o : Outgoing} (h : o.writer.state = .stopped) : o.inHand = [] := by
  simp [inHand, h]

theorem mem_held_of_queue {o : Outgoing} {j : Job} (h : j ∈ o.outbox.queue) : j ∈ o.held :=
  List.mem_append_right _ (List.mem_append_right _ h)

theorem mem_lineUp_of_held {o : Outgoing} {j : Job} (h : j ∈ o.held) : j ∈ o.lineUp :=
  List.mem_append_right _ h

section

variable {masked : Bool} {fits : Nat → Nat → Prop} {o o' : Outgoing}

theorem Move.completions_prefix (hm : Move masked fits o o') :
    o.completions <+: o'.completions := by
  cases hm with
  | enter | shut | takeHeld | takeNew | hold | put => exact List.prefix_rfl
  | dropHeld j | dropNew j => exact ⟨_, (completions_settle o [⟨j, .aborted⟩]).symm⟩
  | write j => exact ⟨_, (completions_complete o j).symm⟩
  | writeClose j | writeLast j => exact ⟨_, (completions_abort_complete o j).symm⟩
  | fail j | cut j => exact ⟨_, (completions_stop_settle o j _).symm⟩
  | stop => exact ⟨_, (completions_stop o).symm⟩

theorem Move.wire_prefix (hm : Move masked fits o o') : o.wire.toList <+: o'.wire.toList := by
  cases hm with
  | put j front rest =>
    show o.wire.toList <+: (o.wire ++ front.toArray).toList
    rw [Array.toList_append]
    exact List.prefix_append _ _
  | _ => exact List.prefix_rfl

theorem mem_written {j : Job} : j ∈ o.written ↔ (⟨j, .written⟩ : Completion) ∈ o.completions := by
  constructor
  · intro h
    obtain ⟨⟨i, x⟩, hc, rfl⟩ := List.mem_map.mp h
    obtain ⟨hc, hx⟩ := List.mem_filter.mp hc
    rw [decide_eq_true_eq] at hx
    rwa [← hx]
  · intro h
    exact List.mem_map.mpr ⟨_, List.mem_filter.mpr ⟨h, by simp⟩, rfl⟩

theorem written_mono (hc : o.completions <+: o'.completions) : ∀ j ∈ o.written, j ∈ o'.written := by
  intro j hj
  rw [mem_written] at hj ⊢
  exact hc.subset hj

end

end Outgoing

end WebSocket
