import WebSocket.Endpoint.Submission
import WebSocket.Proofs.Control
import WebSocket.Proofs.Endpoint.Sound

/-! Calls. A call is refused and changes nothing, or one job enters the queue. -/

namespace WebSocket

/-- What a call announces fits what comes with it. -/
def WriteCall.Within (fits : Nat → Nat → Prop) : WriteCall → Prop
  | firstChunk n chunk _ _ => chunk.length ≤ n.toNat → fits n.toNat chunk.length
  | message data _ =>
    data.length ≤ data.length.toUInt64.toNat → fits data.length.toUInt64.toNat data.length
  | continuation _ | ping _ | pong _ | close .. => True

theorem WriteCall.within_any (c : WriteCall) : c.Within fun _ _ => True := by
  cases c <;> simp [Within]

def Job.Opens (j : Job) (n : UInt64) (chunk : Bytes) (last binary : Bool) : Prop :=
  j.kind = .message ∧ j.data = chunk ∧ ∃ op key, j.header = some (.plain last op n key) ∧
    (op = .continuation ∨ op = if binary then .binary else .text)

/-- The job that comes of a call. -/
def WriteCall.Makes : WriteCall → Job → Prop
  | firstChunk n chunk last binary, j => j.Opens n chunk last binary
  | message data binary, j => j.Opens data.length.toUInt64 data true binary
  | continuation chunk, j => j.kind = .continuation ∧ j.data = chunk
  | ping payload, j => j.kind = .ping ∧ j.data = payload
  | pong payload, j => j.kind = .pong ∧ j.data = payload
  | close code reason _, j =>
    j.kind = .close ∧ j.last = false ∧ ClosePayload.encode code reason = .ok j.data

def Job.control (serial : Nat) (kind : JobKind) (op : Opcode) (payload : Bytes) (key : Option Key)
    (last : Bool) : Job :=
  ⟨serial, kind, some (.plain true op payload.length.toUInt64 key), payload, key, 0, 0, last⟩

namespace Endpoint

def enter (e : Endpoint) (j : Job) (f : OutgoingFrame) (keys : Nat) (timer : Option Timer) :
    Endpoint :=
  { e with
    outbox := e.outbox.enter j f keys
    life := { e.life with timer, closing := e.life.closing || (j.kind == .close && !j.last) } }

def masks (e : Endpoint) : Bool := e.config.role.masksOutgoing

inductive Rearmed (e : Endpoint) : Option Timer → Prop where
  | kept : Rearmed e e.life.timer
  | off : Rearmed e none
  | armed (afterWriter : Bool) :
      Rearmed e (some (.after e.life.clock e.config.closeTimeout.toNat afterWriter))

/-- A close frame arms the close timer as it enters, and no other job does. -/
inductive Arms (e : Endpoint) (j : Job) : Option Timer → Prop where
  | kept (hk : j.kind ≠ .close) : Arms e j e.life.timer
  | armed (hk : j.kind = .close) (afterWriter : Bool) :
      Arms e j (some (.after e.life.clock e.config.closeTimeout.toNat afterWriter))

theorem Arms.rearmed {e : Endpoint} {j : Job} {timer : Option Timer} (h : e.Arms j timer) :
    e.Rearmed timer := by
  cases h with
  | kept => exact .kept
  | armed _ afterWriter => exact .armed afterWriter

/-- What comes of an attempt. -/
inductive Entered (fits : Nat → Nat → Prop) (makes : Job → Prop) (e : Endpoint) :
    Attempt → Prop where
  | refused (r : Refusal) : Entered fits makes e (e, .error r)
  | accepted (j : Job) (f : OutgoingFrame) (keys : Nat) (timer : Option Timer)
      (hj : Outgoing.Enters e.masks fits e.outgoing j f) (hmakes : makes j)
      (htimer : e.Arms j timer) : Entered fits makes e (e.enter j f keys timer, .ok j.serial)

/-- The sending side is in order. -/
def Sending (fits : Nat → Nat → Prop) (e : Endpoint) : Prop := e.outgoing.Sound e.masks fits

variable {fits : Nat → Nat → Prop} {makes : Job → Prop} {e : Endpoint}

theorem Sending.running (h : e.Sending fits) (hopen : e.life.closed = false) :
    e.writer.state ≠ .stopped := by
  intro hs
  have := (h.phased.stopped hs).1
  exact absurd (hopen.symm.trans this) Bool.false_ne_true

theorem isOutstanding_iff {n : Nat} :
    e.isOutstanding n = true ↔ ∃ j ∈ e.outgoing.held, j.serial = n := by
  have hline : e.isOutstanding n = e.outgoing.held.any (·.serial == n) := by
    unfold isOutstanding Outgoing.held Outgoing.waiting Outgoing.inHand
    rw [show e.outgoing.writer = e.writer from rfl, show e.outgoing.outbox = e.outbox from rfl]
    generalize e.writer.state = state
    cases state <;>
      simp only [List.any_append, List.any_cons, List.any_nil, Bool.or_false, Bool.false_or] <;>
      ac_rfl
  simp only [hline, List.any_eq_true, beq_iff_eq]

theorem free_of_held (h : e.Sending fits) (hheld : e.outgoing.held = []) (k : JobKind) :
    e.outbox.slots.isBusy k = false := by
  rw [← Bool.not_eq_true]
  intro hbusy
  have hk := (h.slotted.busy k).mp hbusy
  rw [hheld] at hk
  simp at hk

theorem Entered.of_no_close {j : Job} {f : OutgoingFrame} {keys : Nat}
    (hj : Outgoing.Enters e.masks fits e.outgoing j f) (hk : j.kind ≠ .close) (hmakes : makes j) :
    Entered fits makes e ({ e with outbox := e.outbox.enter j f keys }, .ok j.serial) := by
  have hcl : (e.life.closing || (j.kind == .close && !j.last)) = e.life.closing := by
    rw [beq_eq_false_iff_ne.mpr hk]
    simp
  have := Entered.accepted j f keys e.life.timer hj hmakes (.kept hk)
  rwa [enter, hcl] at this

structure Ready (kind : JobKind) (e : Endpoint) : Prop where
  opened : e.life.closed = false
  running : e.writer.state ≠ .stopped
  room : e.outbox.queue.length < queueCapacity
  free : e.outbox.slots.isBusy kind = false

theorem Sending.ready (h : e.Sending fits) (hopen : e.life.closed = false) {kind : JobKind}
    (hfree : e.outbox.slots.isBusy kind = false) : Ready kind e :=
  ⟨hopen, h.running hopen, h.length_queue_lt, hfree⟩

theorem enqueue_of_room (hrun : e.writer.state ≠ .stopped)
    (hroom : e.outbox.queue.length < queueCapacity) (kind : JobKind)
    (header : Option Header) (data : Bytes) (mask : Option Key) (offset owed : Nat) (last : Bool)
    (keys : Nat) (life : Life) :
    enqueue { e with outbox := { e.outbox with keysDrawn := keys }, life } kind header data mask
        offset owed last =
      ({ e with
          life
          outbox :=
            e.outbox.enter ⟨e.outbox.nextSerial, kind, header, data, mask, offset, owed, last⟩
              e.outbox.frame keys },
        .ok e.outbox.nextSerial) := by
  rw [enqueue]
  split
  · next hs => exact absurd hs hrun
  · rw [if_neg (Nat.not_le.mpr hroom)]
    rfl

theorem enqueue_eq (h : e.Sending fits) (hopen : e.life.closed = false) (kind : JobKind)
    (header : Option Header) (data : Bytes) (mask : Option Key) (offset owed : Nat) (last : Bool)
    (keys : Nat) (life : Life) :
    enqueue { e with outbox := { e.outbox with keysDrawn := keys }, life } kind header data mask
        offset owed last =
      ({ e with
          life
          outbox :=
            e.outbox.enter ⟨e.outbox.nextSerial, kind, header, data, mask, offset, owed, last⟩
              e.outbox.frame keys },
        .ok e.outbox.nextSerial) :=
  enqueue_of_room (h.running hopen) h.length_queue_lt kind header data mask offset owed last keys
    life

theorem drawKey_eq (e : Endpoint) : ∃ key keys, key.isSome = e.masks ∧
    e.drawKey = (key, { e with outbox := { e.outbox with keysDrawn := keys } }) := by
  unfold drawKey
  split
  · next hm => exact ⟨some _, _, hm.symm, rfl⟩
  · next hm => exact ⟨none, e.outbox.keysDrawn, by simpa [masks] using hm, rfl⟩

theorem enqueueControl_eq {kind : JobKind} (h : Ready kind e) (op : Opcode) (payload : Bytes)
    (last : Bool) (life : Life) : ∃ key keys, key.isSome = e.masks ∧
      enqueueControl { e with life } kind op payload last =
        ({ e with
            life
            outbox :=
              e.outbox.enter (.control e.outbox.nextSerial kind op payload key last)
                e.outbox.frame keys },
          .ok e.outbox.nextSerial) := by
  obtain ⟨key, keys, hkey, hdraw⟩ := drawKey_eq { e with life }
  refine ⟨key, keys, hkey, ?_⟩
  rw [enqueueControl, hdraw]
  exact enqueue_of_room h.running h.room _ _ _ _ _ _ _ _ _

theorem enqueueControl_entered (h : e.Sending fits) {kind : JobKind} {op : Opcode}
    (payload : Bytes) (last : Bool) {timer : Option Timer}
    (htimer : ∀ j : Job, j.kind = kind → e.Arms j timer)
    (hopen : e.life.closed = false) (hslot : e.outbox.slots.isBusy kind = false)
    (hcl : e.life.closing = false) (hop : kind.control? = some op)
    (hlen : payload.length ≤ maxControlPayload) (hlast : last = true → kind = .close)
    (hclose : kind = .close → ∃ p, ClosePayload.parse payload = .ok p)
    (hmakes : ∀ j : Job, j.kind = kind → j.data = payload → j.last = last → makes j) :
    Entered fits makes e
      (enqueueControl
        { e with
          life := { e.life with timer, closing := e.life.closing || (kind == .close && !last) } }
        kind op payload last) := by
  obtain ⟨key, keys, hkey, hdraw⟩ := drawKey_eq
    { e with
      life := { e.life with timer, closing := e.life.closing || (kind == .close && !last) } }
  rw [enqueueControl, hdraw]
  dsimp only
  rw [enqueue_eq h hopen]
  exact .accepted ⟨e.outbox.nextSerial, kind, _, payload, key, 0, 0, last⟩ e.outbox.frame keys timer
    ⟨hopen, h.running hopen, rfl, hslot, fun hc => absurd (hcl.symm.trans hc) Bool.false_ne_true,
      .control _ kind op key payload last hop hkey hlen hlast hclose⟩ (hmakes _ rfl rfl rfl)
    (htimer _ rfl)

theorem unwritable_eq_none (h : e.unwritable = none) :
    e.life.closed = false ∧ e.life.closing = false := by
  unfold unwritable at h
  split at h
  · simp at h
  · next hc =>
    split at h
    · simp at h
    · next hcl => exact ⟨by simpa using hc, by simpa using hcl⟩

theorem writeFirstChunk_entered (h : e.Sending fits) {n : UInt64} {chunk : Bytes}
    {last binary : Bool} (hn : chunk.length ≤ n.toNat → fits n.toNat chunk.length) :
    Entered fits (·.Opens n chunk last binary) e (e.writeFirstChunk n chunk last binary) := by
  unfold writeFirstChunk
  split
  · next r _ => exact .refused r
  · next hu =>
    obtain ⟨hopen, hcl⟩ := unwritable_eq_none hu
    split
    · exact .refused _
    · next hlen =>
      split
      · exact .refused _
      · next hslot =>
        split
        · exact .refused _
        · next hrem =>
          obtain ⟨key, keys, hkey, hdraw⟩ := drawKey_eq e
          dsimp only
          rw [hdraw]
          dsimp only
          rw [enqueue_eq h hopen]
          dsimp only
          have hop : e.outbox.frame.Starts
              (if e.outbox.frame.messageOpen then .continuation
                else if binary then .binary else .text) := by
            unfold OutgoingFrame.Starts
            cases e.outbox.frame.messageOpen <;> cases binary <;> rfl
          have hfirst := Follows.first e.outbox.nextSerial last _ n key chunk (by omega) hop hkey
            (by omega) (hn (by omega))
          exact .of_no_close
            ⟨hopen, h.running hopen, rfl, by exact eq_false_of_ne_true hslot,
              fun hc => absurd (hcl.symm.trans hc) Bool.false_ne_true, hfirst⟩ (by simp)
            ⟨rfl, rfl, _, key, rfl, by split <;> simp⟩

theorem writeContinuation_entered (h : e.Sending fits) (chunk : Bytes) :
    Entered fits (fun j => j.kind = .continuation ∧ j.data = chunk) e
      (e.writeContinuation chunk) := by
  unfold writeContinuation
  split
  · exact .refused _
  · next hopen =>
    rw [Bool.not_eq_true] at hopen
    split
    · exact .refused _
    · next hslot =>
      dsimp only
      split
      · exact .refused _
      · next hrem =>
        split
        · exact .refused _
        · next hlen =>
          have hq := enqueue_eq h hopen .continuation none chunk e.outbox.frame.mask
            e.outbox.frame.offset (e.outbox.frame.remaining - chunk.length) false
            e.outbox.keysDrawn e.life
          have hnext : Follows e.masks fits e.outbox.frame _ _ :=
            .further e.outbox.nextSerial chunk hrem (by omega)
          rw [show enqueue e _ _ _ _ _ _ _ = _ from hq]
          exact .of_no_close
            ⟨hopen, h.running hopen, rfl, by exact eq_false_of_ne_true hslot, fun _ => rfl, hnext⟩
            (by simp) ⟨rfl, rfl⟩

theorem writeControl_entered (h : e.Sending fits) {kind : JobKind} {op : Opcode}
    (payload : Bytes) (hop : kind.control? = some op) (hk : kind ≠ .close) :
    Entered fits (fun j => j.kind = kind ∧ j.data = payload) e
      (e.writeControl kind op payload) := by
  unfold writeControl
  split
  · next r _ => exact .refused r
  · next hu =>
    obtain ⟨hopen, hcl⟩ := unwritable_eq_none hu
    split
    · exact .refused _
    · next hlen =>
      split
      · exact .refused _
      · next hslot =>
        have := enqueueControl_entered h payload false (fun j hj => .kept (hj ▸ hk)) hopen
          (by simpa using hslot) hcl hop (by omega) (by simp) (fun hc => absurd hc hk)
          fun j hj hd _ => And.intro hj hd
        rwa [beq_eq_false_iff_ne.mpr hk, Bool.false_and, Bool.or_false] at this

theorem writeClose_entered (h : e.Sending fits) (code : CloseCode) (reason : String)
    (timed : Bool) :
    Entered fits (fun j => j.kind = .close ∧ j.last = false ∧
      ClosePayload.encode code reason = .ok j.data) e (e.writeClose code reason timed) := by
  unfold writeClose
  split
  · exact .refused _
  · next hopen =>
    split
    · next r _ => exact .refused r
    · next payload henc =>
      split
      · exact .refused _
      · next hslot =>
        split
        · exact .refused _
        · next hcl =>
          split
          · exact .refused _
          · rw [Bool.not_eq_true] at hopen hslot hcl
            have := enqueueControl_entered h payload false
              (fun j hj => .armed hj e.writerStep.isSome) hopen hslot hcl rfl
              (ClosePayload.length_encode henc) (by simp)
              (fun _ => ⟨_, ClosePayload.parse_encode henc⟩)
              fun j hj hd hl => And.intro hj
                (And.intro hl (show ClosePayload.encode code reason = .ok j.data by rw [hd, henc]))
            rwa [hcl] at this

theorem write_entered (h : e.Sending fits) {c : WriteCall} (hc : c.Within fits) :
    Entered fits c.Makes e (e.write c) := by
  cases c with
  | firstChunk n chunk last binary => exact writeFirstChunk_entered h hc
  | message data binary => exact writeFirstChunk_entered h hc
  | continuation chunk => exact writeContinuation_entered h chunk
  | ping payload => exact writeControl_entered h payload rfl (by simp)
  | pong payload => exact writeControl_entered h payload rfl (by simp)
  | close code reason timed => exact writeClose_entered h code reason timed

theorem write_of_closed (hc : e.life.closed = true) (c : WriteCall) :
    e.write c = (e, .error .connectionClosed) := by
  cases c <;>
    simp [write, writeFirstChunk, writeContinuation, writeControl, writeClose, unwritable, hc]

theorem queuePong_entered (h : e.Sending fits) {payload : Bytes}
    (hlen : payload.length ≤ maxControlPayload) :
    Entered fits (fun j => j.kind = .pong ∧ j.data = payload) e (e.queuePong payload) := by
  unfold queuePong
  split
  · next r _ => exact .refused r
  · next hu =>
    obtain ⟨hopen, hcl⟩ := unwritable_eq_none hu
    split
    · exact .refused _
    · next hslot =>
      have hop : JobKind.pong.control? = some .pong := rfl
      have := enqueueControl_entered h payload false (fun j hj => .kept (by simp [hj])) hopen
        (by simpa using hslot) hcl hop hlen (by simp) (by simp) fun j hj hd _ => And.intro hj hd
      rwa [show (JobKind.pong == JobKind.close) = false from rfl, Bool.false_and,
        Bool.or_false] at this

/-- The close frame that ends the connection. It is not queued behind one of this end's. -/
theorem queueFinalClose_entered (h : e.Sending fits) (code : CloseCode) (reason : String)
    (hbusy : e.life.closed = false → e.life.closing = true →
      e.outbox.slots.isBusy .close = true) :
    Entered fits (fun j => j.kind = .close ∧ j.last = true ∧
      ClosePayload.encode code reason = .ok j.data) e (e.queueFinalClose code reason) := by
  unfold queueFinalClose
  split
  · exact .refused _
  · next hopen =>
    split
    · next r _ => exact .refused r
    · next payload henc =>
      split
      · exact .refused _
      · next hslot =>
        rw [Bool.not_eq_true] at hopen hslot
        have hcl : e.life.closing = false := by
          apply Bool.eq_false_iff.mpr
          intro hc
          exact absurd (hslot.symm.trans (hbusy hopen hc)) Bool.false_ne_true
        have := enqueueControl_entered h payload true (fun j hj => .armed hj e.writerStep.isSome)
          hopen hslot hcl rfl (ClosePayload.length_encode henc) (fun _ => rfl)
          (fun _ => ⟨_, ClosePayload.parse_encode henc⟩)
          fun j hj hd hl => And.intro hj
            (And.intro hl (show ClosePayload.encode code reason = .ok j.data by rw [hd, henc]))
        rwa [Bool.not_true, Bool.and_false, Bool.or_false] at this

end Endpoint

end WebSocket
