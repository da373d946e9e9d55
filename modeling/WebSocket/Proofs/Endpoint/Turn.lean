import WebSocket.Proofs.Endpoint.Driven

/-! Whose turn it is. That decides who goes on first and nothing else: no party comes to wait, or to
go on, through a change of turns. -/

namespace WebSocket

namespace Endpoint

variable {e : Endpoint}

theorem readerStep_giveTurn (t : Turn) (h : e.readerStep = none) :
    (e.giveTurn t).readerStep = none := by
  cases hreading : e.reader.reading with
  | none =>
    unfold Endpoint.readerStep
    rw [show (e.giveTurn t).reader.reading = none from hreading]
  | some m =>
    obtain ⟨hopen, hwaits⟩ := waits_of_readerStep h (by rw [hreading]; rfl)
    have hwaits' : ReaderWaits (e.giveTurn t) := by
      cases hwaits with
      | header p hs ht => exact .header p hs ht
      | data f hs ht => exact .data f hs ht
      | control c hs ht => exact .control c hs ht
      | answer payload hs hp => exact .answer payload hs hp
    exact hwaits'.readerStep_eq_none hopen

theorem writerStep_giveTurn (t : Turn) (h : e.writerStep = none) :
    (e.giveTurn t).writerStep = none := by
  unfold writerStep at h ⊢
  rw [show (e.giveTurn t).writer = e.writer from rfl, show (e.giveTurn t).life = e.life from rfl,
    show (e.giveTurn t).transport = e.transport from rfl,
    show (e.giveTurn t).outbox = e.outbox from rfl, show (e.giveTurn t).held = e.held from rfl]
  split at h
  · rfl
  · split at h
    · cases h
    · next hopen =>
      rw [if_neg hopen]
      split at h
      · split at h <;> cases h
      · split at h
        · rfl
        all_goals cases h
  · split at h
    · cases h
    · next hopen =>
      rw [if_neg hopen]
      split at h
      · cases h
      · split at h
        · cases h
        · split at h
          · next hheld => exact if_pos hheld
          · cases h

theorem timerStep_giveTurn (t : Turn) (h : e.timerStep = none) :
    (e.giveTurn t).timerStep = none := by
  unfold timerStep at h ⊢
  rw [show (e.giveTurn t).life = e.life from rfl]
  split at h
  · rfl
  · split at h
    · cases h
    · next hnot => exact if_neg hnot

theorem tick_giveTurn (t : Turn) (h : e.tick = none) : (e.giveTurn t).tick = none := by
  obtain ⟨hr, hw, ht⟩ := waits_of_tick h
  have hp : (e.giveTurn t).promptTimerStep = none := by
    unfold promptTimerStep
    split
    · rfl
    · exact timerStep_giveTurn t ht
  unfold tick
  split <;> simp [readerStep_giveTurn t hr, writerStep_giveTurn t hw, timerStep_giveTurn t ht, hp]

/-! Calls. -/

def Attempt.giveTurn (t : Turn) (a : Attempt) : Attempt := (a.1.giveTurn t, a.2)

theorem drawKey_giveTurn (t : Turn) :
    (e.giveTurn t).drawKey = (e.drawKey.1, e.drawKey.2.giveTurn t) := by
  unfold drawKey
  rw [show (e.giveTurn t).config = e.config from rfl]
  split <;> rfl

theorem enqueue_giveTurn (t : Turn) (kind : JobKind) (header : Option Header) (data : Bytes)
    (mask : Option Key) (offset owed : Nat) (last : Bool) :
    (e.giveTurn t).enqueue kind header data mask offset owed last =
      (e.enqueue kind header data mask offset owed last).giveTurn t := by
  unfold enqueue
  rw [show (e.giveTurn t).writer = e.writer from rfl,
    show (e.giveTurn t).outbox = e.outbox from rfl]
  split
  · rfl
  · split <;> rfl

theorem enqueueControl_giveTurn (t : Turn) (kind : JobKind) (op : Opcode) (payload : Bytes)
    (last : Bool) : (e.giveTurn t).enqueueControl kind op payload last =
      (e.enqueueControl kind op payload last).giveTurn t := by
  rw [enqueueControl, drawKey_giveTurn]
  exact enqueue_giveTurn t ..

theorem writeFirstChunk_giveTurn (t : Turn) (n : UInt64) (chunk : Bytes) (last binary : Bool) :
    (e.giveTurn t).writeFirstChunk n chunk last binary =
      (e.writeFirstChunk n chunk last binary).giveTurn t := by
  unfold writeFirstChunk
  rw [show (e.giveTurn t).unwritable = e.unwritable from rfl,
    show (e.giveTurn t).outbox = e.outbox from rfl, drawKey_giveTurn]
  dsimp only
  rw [enqueue_giveTurn]
  dsimp only [Attempt.giveTurn]
  grind [giveTurn]

theorem writeContinuation_giveTurn (t : Turn) (chunk : Bytes) :
    (e.giveTurn t).writeContinuation chunk = (e.writeContinuation chunk).giveTurn t := by
  unfold writeContinuation
  rw [show (e.giveTurn t).life = e.life from rfl, show (e.giveTurn t).outbox = e.outbox from rfl]
  dsimp only
  rw [enqueue_giveTurn]
  dsimp only [Attempt.giveTurn]
  grind [giveTurn]

theorem writeControl_giveTurn (t : Turn) (kind : JobKind) (op : Opcode) (payload : Bytes) :
    (e.giveTurn t).writeControl kind op payload = (e.writeControl kind op payload).giveTurn t := by
  unfold writeControl
  rw [show (e.giveTurn t).unwritable = e.unwritable from rfl,
    show (e.giveTurn t).outbox = e.outbox from rfl, enqueueControl_giveTurn]
  split
  · rfl
  · split
    · rfl
    · split <;> rfl

/-- The close timer is armed for after the writer only if that is about to go on. -/
theorem writeClose_giveTurn (t : Turn) (h : e.writerStep = none) (code : CloseCode)
    (reason : String) (timed : Bool) : (e.giveTurn t).writeClose code reason timed =
      (e.writeClose code reason timed).giveTurn t := by
  have harm : (e.giveTurn t).armTimer = e.armTimer.giveTurn t := by
    unfold armTimer
    rw [writerStep_giveTurn t h, h]
    rfl
  unfold writeClose
  rw [show (e.giveTurn t).life = e.life from rfl, show (e.giveTurn t).outbox = e.outbox from rfl,
    harm]
  dsimp only
  split
  · rfl
  · split
    · rfl
    · split
      · rfl
      · split
        · rfl
        · split
          · rfl
          · exact enqueueControl_giveTurn
              (e := { e.armTimer with life := { e.armTimer.life with closing := true } }) t ..

theorem write_giveTurn (t : Turn) (h : e.writerStep = none) (c : WriteCall) :
    (e.giveTurn t).write c = (e.write c).giveTurn t := by
  cases c with
  | firstChunk n chunk last binary => exact writeFirstChunk_giveTurn t n chunk last binary
  | message data binary => exact writeFirstChunk_giveTurn t _ data true binary
  | continuation chunk => exact writeContinuation_giveTurn t chunk
  | ping payload => exact writeControl_giveTurn t .ping .ping payload
  | pong payload => exact writeControl_giveTurn t .pong .pong payload
  | close code reason timed => exact writeClose_giveTurn t h code reason timed

theorem accept_giveTurn (t : Turn) (h : e.writerStep = none) (ev : Event) :
    (e.giveTurn t).accept ev = ((e.accept ev).1.giveTurn t, (e.accept ev).2) := by
  cases ev with
  | write c =>
    unfold accept
    dsimp only
    rw [show (e.giveTurn t).held = e.held from rfl, write_giveTurn t h]
    split
    · rcases e.write c with ⟨d, r | serial⟩ <;> rfl
    · rfl
  | read m =>
    unfold accept
    rw [show (e.giveTurn t).isAtHand = e.isAtHand from rfl]
    dsimp only
    split <;> rfl
  | _ => rfl

theorem settle_of_rest (h : e.tick = none) : e.settle = e := by
  rw [settle]
  split
  · rfl
  · next hgo => cases h.symm.trans hgo

/-- At rest it does not matter whose turn it is. -/
theorem handle_giveTurn (t : Turn) (h : e.tick = none) (ev : Event) :
    (e.giveTurn t).handle ev = e.handle ev := by
  rw [handle, accept_giveTurn t (waits_of_tick h).2.1]
  rfl

end Endpoint

end WebSocket
