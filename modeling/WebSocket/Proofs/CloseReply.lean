import Mathlib.Data.List.Nodup
import WebSocket.Proofs.Endpoint.Prompt
import WebSocket.Proofs.Wire

/-! What the peer's close frame is answered with, at an end on a stream that takes every write at
once. The answer is a close frame, and it is the last frame. The one exception: if this end has a
close frame of its own queued when it deals with the peer's, no close frame is ever sent. -/

namespace WebSocket

section

variable {masked : Bool} {fits : Nat → Nat → Prop} {f : OutgoingFrame} {js : List Job} {j : Job}

theorem Laid.frames_close (h : Laid masked fits (js ++ [j]) f) (hk : j.kind = .close) :
    ∃ g, Job.frames (js ++ [j]) = Job.frames js ++ [g] ∧ g.header.opcode = .close ∧
      g.payload = j.data ∧ ∀ x ∈ Job.frames js, x.header.opcode ≠ .close := by
  obtain ⟨hclose, g, hlaid, hfollows, -⟩ := h.of_concat
  cases hfollows with
  | first => simp at hk
  | further => simp at hk
  | control n kind op key data last hop =>
    refine ⟨⟨.plain true op data.length.toUInt64 key, data⟩, ?_,
      (JobKind.control?_eq_close hop).mpr hk, rfl, hlaid.framed.noClose hclose⟩
    rw [Job.frames_concat, Job.addTo_header rfl]

theorem Laid.ends_in_close (h : Laid masked fits js f) (hj : j ∈ js) (hk : j.kind = .close) :
    ∃ front g, Job.frames js = front ++ [g] ∧ g.header.opcode = .close ∧
      ∀ x ∈ front, x.header.opcode ≠ .close := by
  rcases List.eq_nil_or_concat' js with rfl | ⟨init, i, rfl⟩
  · simp at hj
  · have hlast : i = j := by
      rcases List.mem_append.mp hj with hj | hj
      · exact absurd hk (h.of_concat.1 j hj)
      · exact (List.mem_singleton.mp hj).symm
    subst hlast
    obtain ⟨g, hframes, hop, -, hfront⟩ := h.frames_close hk
    exact ⟨Job.frames init, g, hframes, hop, hfront⟩

end

namespace Endpoint

variable {fits : Nat → Nat → Prop} {e e' d : Endpoint} {p : ClosePayload} {rest : Bytes}

/-- The close frame that the reader has before it, and the input behind it. -/
def nextClose (d : Endpoint) : Option (ClosePayload × Bytes) :=
  match d.reader.stage with
  | .control h =>
    match d.reader.input.take h.payloadLength.toNat with
    | .got piece rest =>
      match Control.parse h.opcode (maskWith h.mask 0 piece) with
      | .ok (some (.close p)) => some (p, rest)
      | _ => none
    | _ => none
  | _ => none

/-- The reader's next step deals with a close frame of the peer, and is the next step of the end. -/
structure TakesClose (d : Endpoint) (p : ClosePayload) (rest : Bytes) : Prop where
  opened : d.life.closed = false
  reading : d.reader.reading.isSome = true
  unfinished : d.reader.finished = false
  turn : d.turn = .reader ∨ d.writerStep = none ∧ d.timerStep = none
  frame : d.nextClose = some (p, rest)

def told (d : Endpoint) (p : ClosePayload) (rest : Bytes) : Endpoint :=
  if d.life.closing then d.setInput rest else (d.setInput rest).notify (.close p)

/-- A close call has been accepted, and its frame has not been sent. -/
def ownCloseUnsent (e : Endpoint) : Bool := e.life.closing && e.outbox.slots.isBusy .close

theorem closeDown_of_busy (h : e.outbox.slots.isBusy .close = true) (code : CloseCode)
    (reason : String) : e.closeDown code reason = e.teardown := by
  have : ∃ r, e.queueFinalClose code reason = (e, .error r) := by
    unfold queueFinalClose
    split
    · exact ⟨_, rfl⟩
    · split <;> exact ⟨_, rfl⟩
  obtain ⟨r, hr⟩ := this
  rw [closeDown, hr]

theorem told_reaction (h : d.InOrder fits) : Reaction fits d (d.told p rest) := by
  have hinput : Reaction fits d (d.setInput rest) := .of_same rfl rfl
  unfold told
  split
  · exact hinput
  · exact hinput.trans (notify_acts (h.sending.shift hinput.toShift) h.calls _).reaction

theorem readerStep_of_nextClose (hopen : d.Listens) (hreading : d.reader.reading.isSome = true)
    (hframe : d.nextClose = some (p, rest)) :
    d.readerStep = some ((d.setInput rest).handleControl (.close p)) := by
  obtain ⟨m, hm⟩ := Option.isSome_iff_exists.mp hreading
  unfold nextClose at hframe
  split at hframe
  · next hd hstage =>
    split at hframe
    · next piece rest' htake =>
      split at hframe
      · next hparse =>
        cases hframe
        unfold readerStep
        rw [hm, hopen.1, hopen.2, hstage]
        dsimp only
        rw [if_neg (by simp), htake]
        dsimp only
        rw [readControl, hparse]
      · simp at hframe
    · simp at hframe
  · simp at hframe

namespace TakesClose

theorem goesOn (ht : d.TakesClose p rest) (h : d.InOrder fits) :
    GoesOn d (d.told p rest) ∧ (d.told p rest).reader.finished = false ∧
      (d.told p rest).life.closed = false := by
  have hinput : Shift fits d (d.setInput rest) := .of_same rfl rfl rfl
  have hsend := h.sending.shift hinput
  unfold told
  split
  · exact ⟨.of_same rfl rfl, ht.unfinished, ht.opened⟩
  · obtain ⟨hplain, hclosed⟩ := notify_plain hsend h.calls (.close p)
    have hfin : ((d.setInput rest).notify (.close p)).reader.finished = d.reader.finished := by
      simp [notify, setInput]
    exact ⟨.inr ⟨hfin, hplain⟩, hfin.trans ht.unfinished, hclosed.trans ht.opened⟩

theorem readerStep_eq (ht : d.TakesClose p rest) :
    d.readerStep = some ((d.setInput rest).handleControl (.close p)) :=
  readerStep_of_nextClose ⟨ht.unfinished, ht.opened⟩ ht.reading ht.frame

/-- The connection is torn down if this end is closing, and else a close frame is queued. -/
theorem tick_eq (ht : d.TakesClose p rest) (h : d.InOrder fits) :
    ∃ x, (d.tick = some x ∨ d.tick = some (x.giveTurn .reader)) ∧
      x = (if (d.told p rest).life.closing then (d.told p rest).teardown
        else (d.told p rest).closeDown .goingAway "").endRead .ended := by
  refine ⟨(d.setInput rest).handleControl (.close p), ?_, ?_⟩
  · unfold tick
    split
    · rw [ht.readerStep_eq]
      exact .inl rfl
    · next hturn =>
      rcases ht.turn with hr | ⟨hw, htimer⟩
      · exact absurd (hturn.symm.trans hr) (by simp)
      · rw [hw, htimer, ht.readerStep_eq]
        exact .inr rfl
  · have hopen := (ht.goesOn h).2.2
    have htold : Reaction fits d (d.told p rest) := told_reaction h
    have hbusy := close_busy_after_notify h.sending htold.toShift
    unfold handleControl
    dsimp only
    cases hcl : d.life.closing with
    | true =>
      have htold : d.told p rest = d.setInput rest := if_pos hcl
      have hclosing : (d.setInput rest).life.closing = true := hcl
      rw [htold, if_pos hclosing, if_pos hclosing]
    | false =>
      have htold : d.told p rest = (d.setInput rest).notify (.close p) :=
        if_neg (by simp [hcl])
      rw [if_neg (by simp [show (d.setInput rest).life.closing = false from hcl]), ← htold]
      split
      · next hclosing => rw [closeDown_of_busy (hbusy hcl hopen hclosing)]
      · rfl

end TakesClose

theorem closeDown_eq (h : e.Ready .close) {code : CloseCode} {reason : String} {payload : Bytes}
    (henc : ClosePayload.encode code reason = .ok payload) : ∃ key keys, key.isSome = e.masks ∧
      e.closeDown code reason =
        { e with
          life := e.armTimer.life
          outbox :=
            e.outbox.enter (.control e.outbox.nextSerial .close .close payload key true)
              e.outbox.frame keys } := by
  obtain ⟨key, keys, hkey, hjob⟩ := enqueueControl_eq h .close payload true e.armTimer.life
  refine ⟨key, keys, hkey, ?_⟩
  have hq : e.queueFinalClose code reason =
      e.armTimer.enqueueControl .close .close payload true := by
    unfold queueFinalClose
    rw [if_neg (by simp [h.opened]), henc]
    dsimp only
    rw [if_neg (by simp [h.free])]
  rw [closeDown, hq, show e.armTimer.enqueueControl .close .close payload true = _ from hjob]

/-- The connection has been torn down, with or without a close frame written. -/
structure Over (answered : Bool) (e : Endpoint) : Prop where
  closed : e.life.closed = true
  inHand : e.outgoing.inHand = []
  written : answered = true ↔ ∃ j ∈ e.outgoing.written, j.kind = .close

def Early (e : Endpoint) : Prop := ∀ t, e.life.timer = some t → e.life.clock < t.deadline

theorem Early.timerStep (h : e.Early) : e.timerStep = none := by
  unfold Endpoint.timerStep
  split
  · rfl
  · next t ht => rw [if_neg (Nat.not_le.mpr (h t ht))]

/-- The close frame that answers the peer's is to be written, and the timer is not due. -/
structure Answering (e : Endpoint) : Prop where
  opened : e.life.closed = false
  closing : e.life.closing = false
  reading : e.reader.reading = none
  early : e.Early
  answer : ∃ j ∈ e.outgoing.held, j.kind = .close ∧ j.last = true

theorem Over.giveTurn {answered : Bool} (h : Over answered e) (t : Turn) :
    Over answered (e.giveTurn t) :=
  ⟨h.closed, h.inHand, h.written⟩

theorem Answering.giveTurn (h : Answering e) (t : Turn) : Answering (e.giveTurn t) :=
  ⟨h.opened, h.closing, h.reading, h.early, h.answer⟩

theorem Over.shift {answered : Bool} (h : Over answered e) (hs : Shift fits e e') :
    Over answered e' := by
  have ho := hs.of_closed h.closed
  refine ⟨(congrArg Outgoing.closed ho).trans h.closed, ?_, ?_⟩
  · rw [ho]
    exact h.inHand
  · rw [ho]
    exact h.written

theorem Over.tick {answered : Bool} (h : Over answered e) (hp : e.Prompt) (hin : e.InOrder Entire)
    (hw : e.transport.Willing) (ht : e.tick = some e') : Over answered e' := by
  rcases tick_cases ht with ⟨w, hstep, rfl⟩ | ⟨x, hstep, hx, -⟩
  · have hb := writerStep_brisk hin.sending hw hp.deferred (fun j u hs => (hp.turn j u hs).2) hstep
    have ho := hb.of_closed h.closed
    have hwr : w.outgoing.written = e.outgoing.written := by rw [ho, Outgoing.written_stop]
    refine ⟨congrArg Outgoing.closed ho, ?_, ?_⟩
    · show w.outgoing.inHand = []
      rw [ho]
      exact Outgoing.inHand_stopped rfl
    · rw [show (w.giveTurn .writer).outgoing = w.outgoing from rfl, hwr]
      exact h.written
  · have hover := h.shift (hin.reaction hstep).toShift
    rcases hx with rfl | rfl
    · exact hover
    · exact hover.giveTurn .reader

end Endpoint

namespace Outgoing

variable {masked : Bool} {fits : Nat → Nat → Prop} {o o' : Outgoing}

theorem Slotted.eq_of_kind (h : o.Slotted) {i j : Job} (hi : i ∈ o.held) (hj : j ∈ o.held)
    (hk : i.kind = j.kind) : i = j :=
  List.inj_on_of_nodup_map h.nodup hi hj hk

/-- The answer stays until it is written, and that is the end. -/
theorem Brisk.answer (h : Brisk o o') (hs : o.Sound masked fits) (hopen : o.closed = false)
    (hd : o.writer.deferred = []) {j : Job} (hj : j ∈ o.held) (hk : j.kind = .close)
    (hl : j.last = true) :
    (o'.closed = false ∧ j ∈ o'.held) ∨
      o'.closed = true ∧ o'.inHand = [] ∧ ∃ i ∈ o'.written, i.kind = .close := by
  cases h with
  | take i rest _ hidle hc hq =>
    rw [held_idle hidle, hd, hq] at hj
    refine .inl ⟨hopen, ?_⟩
    rw [held_sending rfl]
    simpa [hd] using hj
  | drop i rest _ hidle hc hq =>
    exact absurd (hk.symm.trans ((hs.closes.spent hc).2.1 j hj)) (by simp)
  | put i u _ hsend =>
    rw [held_sending hsend] at hj
    refine .inl ⟨hopen, ?_⟩
    rwa [held_sending rfl]
  | write i _ hsend hil hik =>
    rw [held_sending hsend] at hj
    rcases List.mem_cons.mp hj with rfl | hj
    · exact absurd hk hik
    · refine .inl ⟨hopen, ?_⟩
      rwa [held_idle (state_complete o i)]
  | writeClose i _ hsend hil hik =>
    have hi : i ∈ o.held := by
      rw [held_sending hsend]
      exact List.mem_cons_self
    -- there is one close job, and the one that ends the connection is it
    obtain rfl := hs.slotted.eq_of_kind hi hj (hik.trans hk.symm)
    exact absurd (hil.symm.trans hl) Bool.false_ne_true
  | writeLast i _ hsend hil =>
    refine .inr ⟨rfl, rfl, i, ?_, hs.kind_of_last hsend hil⟩
    rw [written_stop, written_complete]
    simp
  | stop hidle hwhy =>
    rcases hwhy with hshut | hq
    · exact absurd (hopen.symm.trans hshut) Bool.false_ne_true
    · rw [held_idle hidle, hd, hq] at hj
      simp at hj

end Outgoing

namespace Endpoint

variable {fits : Nat → Nat → Prop} {e e' d : Endpoint} {p : ClosePayload} {rest : Bytes}

theorem Answering.tick (h : Answering e) (hp : e.Prompt) (hin : e.InOrder Entire)
    (hw : e.transport.Willing) (ht : e.tick = some e') : Answering e' ∨ Over true e' := by
  obtain ⟨j, hj, hk, hl⟩ := h.answer
  rcases tick_cases ht with ⟨w, hstep, rfl⟩ | ⟨x, hstep | hstep, -, -⟩
  · have hb := writerStep_brisk hin.sending hw hp.deferred (fun j u hs => (hp.turn j u hs).2) hstep
    rcases hb.answer hin.sending h.opened hp.deferred hj hk hl with ⟨hopen, hheld⟩ | ⟨hc, hi, hwr⟩
    · rcases writerStep_life hstep with hlife | hshut
      · left
        refine ⟨hopen, (writerStep_calls hstep).2.2.trans h.closing, ?_, ?_, j, hheld, hk, hl⟩
        · show w.reader.reading = none
          rw [(sendingWork_writerStep hstep).1]
          exact h.reading
        · show ∀ t, w.life.timer = some t → w.life.clock < t.deadline
          rw [hlife]
          exact h.early
      · exact absurd (hopen.symm.trans hshut) Bool.false_ne_true
    · exact .inr ⟨hc, hi, fun _ => hwr, fun _ => rfl⟩
  · have hreading := (readerStep_cases hstep).1
    rw [h.reading] at hreading
    simp at hreading
  · rw [h.early.timerStep] at hstep
    simp at hstep

/-- While this end is closing, its close frame has been written or holds the slot. -/
theorem written_of_closing (h : e.Sending fits) (hopen : e.life.closed = false)
    (hcl : e.life.closing = true) :
    (∃ j ∈ e.outgoing.written, j.kind = .close) ↔ e.outbox.slots.isBusy .close = false := by
  have hrun := h.running hopen
  cases hc : e.writer.closeSent with
  | true =>
    obtain ⟨-, hheld, hwr⟩ := h.closes.spent hc
    refine ⟨?_, fun _ => hwr⟩
    intro _
    rw [← Bool.not_eq_true]
    intro hbusy
    obtain ⟨j, hj, hk⟩ := List.mem_map.mp ((h.slotted.busy .close).mp hbusy)
    exact absurd (hk.symm.trans (hheld j hj)) (by simp)
  | false =>
    have hbusy : e.outbox.slots.isBusy .close = true := Outgoing.Sound.close_busy h hcl hc hrun
    obtain ⟨f, hf⟩ := h.flowing hrun hc
    constructor
    · rintro ⟨j, hj, hk⟩
      exact absurd hk (hf.noClose j hj)
    · intro hfree
      exact absurd (hfree.symm.trans hbusy) Bool.false_ne_true

theorem lt_deadline {clock timeout : Nat} (ht : timeout ≠ 0) (hc : clock < Timer.latest)
    (afterWriter : Bool) : clock < (Timer.after clock timeout afterWriter).deadline := by
  have : 0 < Timer.longest := by decide
  show clock < min (clock + min timeout Timer.longest) Timer.latest
  omega

theorem TakesClose.next (ht : d.TakesClose p rest) (hin : d.InOrder Entire) (hp : d.Prompt)
    (hw : d.transport.Willing) (hgo : d.tick = some e') :
    ((d.config.closeTimeout.toNat ≠ 0 → d.life.clock < Timer.latest → e'.Early) ∧
        (e'.Early → Answering e')) ∧ (d.told p rest).life.closing = false ∨
      Over (!(d.told p rest).ownCloseUnsent) e' := by
  obtain ⟨x, htick, hx⟩ := ht.tick_eq hin
  obtain ⟨hon, hfin, hopen⟩ := ht.goesOn hin
  have hreaction : Reaction Entire d (d.told p rest) := told_reaction hin
  have hshift := hreaction.toShift
  generalize d.told p rest = t at *
  have hsend := hin.sending.shift hshift
  have hnot := hp.inHand_eq_nil hw (ht.turn.imp_right And.left)
  have hi : t.outgoing.inHand = [] := hshift.inHand_eq.trans hnot
  have hprompt : t.Prompt := hp.quiet hshift hon hsend hnot
  -- who has the turn next does not matter
  suffices ((d.config.closeTimeout.toNat ≠ 0 → d.life.clock < Timer.latest → x.Early) ∧
      (x.Early → Answering x)) ∧ t.life.closing = false ∨ Over (!t.ownCloseUnsent) x by
    rcases htick with htick | htick
    · obtain rfl := Option.some.inj (htick.symm.trans hgo)
      exact this
    · obtain rfl := Option.some.inj (htick.symm.trans hgo)
      refine this.imp (And.imp_left fun ⟨hearly, ha⟩ => ⟨hearly, fun h => ?_⟩) fun ho =>
        ho.giveTurn .reader
      exact (ha h).giveTurn .reader
  cases hcl : t.life.closing with
  | true =>
    right
    have ho : x.outgoing = { t.outgoing with closed := true } := by
      rw [hx, hcl]
      exact outgoing_teardown t
    refine ⟨congrArg Outgoing.closed ho, by rw [ho]; exact hi, ?_⟩
    rw [ho, ownCloseUnsent, hcl, Bool.true_and, Bool.not_eq_true']
    exact (written_of_closing hsend hopen hcl).symm
  | false =>
    left
    have hslot := hprompt.fresh.free hsend hcl hfin
    obtain ⟨b, hb⟩ : ∃ b, ClosePayload.encode .goingAway "" = .ok b := ⟨_, rfl⟩
    obtain ⟨key, keys, -, heq⟩ := closeDown_eq (hsend.ready hopen hslot) hb
    rw [hcl, if_neg (by simp), heq] at hx
    subst hx
    refine ⟨⟨?_, fun hearly => ⟨hopen, hcl, rfl, hearly,
      .control t.outbox.nextSerial .close .close b key true, ?_, rfl, rfl⟩⟩, rfl⟩
    · intro htimeout hclock τ hτ
      cases hτ
      rw [← hreaction.clock] at hclock
      rw [← hshift.config] at htimeout
      exact lt_deadline htimeout hclock _
    · exact Outgoing.mem_held_of_queue (List.mem_append_right _ (List.mem_singleton_self _))

variable {ok : Event → Prop} {past : List Endpoint}

/-- From when the reader has dealt with the close frame. -/
theorem Driven.after_close (h : Driven ok (e :: past)) (hok : ∀ c, ok (.write c) → c.Within Entire)
    (hw : ∀ d ∈ e :: past, d.transport.Willing) (hd : d ∈ past) (ht : d.TakesClose p rest)
    (htimeout : d.config.closeTimeout.toNat ≠ 0) (hclock : d.life.clock < Timer.latest) :
    Answering e ∧ (d.told p rest).ownCloseUnsent = false ∨
      Over (!(d.told p rest).ownCloseUnsent) e := by
  generalize hs : e :: past = states at h
  induction h generalizing e past with
  | start => cases hs; cases hd
  | @tick c c' earlier h hgo ih =>
    cases hs
    have hw' : ∀ d ∈ c :: earlier, d.transport.Willing := fun d hd =>
        hw d (List.mem_cons_of_mem _ hd)
    have hin := h.inOrder hok
    have hp := h.prompt hok hw'
    have hwc := hw' c (by simp)
    -- either this is the step that deals with the close frame, or it has been dealt with before
    rcases List.mem_cons.mp hd with rfl | hd
    · refine (ht.next hin hp hwc hgo).imp_left fun ⟨⟨hearly, hans⟩, hcl⟩ =>
        ⟨hans (hearly htimeout hclock), ?_⟩
      rw [ownCloseUnsent, hcl, Bool.false_and]
    · rcases ih hw' hd rfl with ⟨ha, hno⟩ | ho
      · rcases ha.tick hp hin hwc hgo with ha | ho
        · exact .inl ⟨ha, hno⟩
        · right
          rwa [hno]
      · exact .inr (ho.tick hp hin hwc hgo)
  | @event c earlier h hrest ev hev ih =>
    cases hs
    have hw' : ∀ d ∈ c :: earlier, d.transport.Willing := fun d hd =>
        hw d (List.mem_cons_of_mem _ hd)
    have hin := h.inOrder hok
    rcases List.mem_cons.mp hd with rfl | hd
    · obtain ⟨x, hx, -⟩ := ht.tick_eq hin
      rw [hrest] at hx
      rcases hx with hx | hx <;> cases hx
    · rcases ih hw' hd rfl with ⟨ha, -⟩ | ho
      · obtain ⟨j, hj, -⟩ := ha.answer
        have hp := h.prompt hok hw'
        rw [held_of_waits hin.sending (hw' c (by simp)) hp.deferred ha.opened
          (waits_of_tick hrest).2.1] at hj
        simp at hj
      · right
        have hover := ho.shift (accept_shift hin.sending fun c hc => hok c (hc ▸ hev))
        exact hover.giveTurn .reader

theorem Prompt.frames (hp : e.Prompt) (h : e.Sending Entire) (hi : e.outgoing.inHand = []) :
    ∃ f, Laid e.masks Entire e.outgoing.written f ∧
      e.transport.wire.toList = Frame.rowBytes (Job.frames e.outgoing.written) := by
  obtain ⟨part, tail, f, -, hl, hpart⟩ := h.wired
  have hlaid : ∃ g, Laid e.masks Entire e.outgoing.written g := by
    cases hpart with
    | none => exact ⟨f, by simpa using hl⟩
    | sending j =>
      obtain ⟨-, g, hg, -⟩ := hl.of_concat
      exact ⟨g, hg⟩
    | lost j =>
      obtain ⟨-, g, hg, -⟩ := hl.of_concat
      exact ⟨g, hg⟩
  obtain ⟨g, hg⟩ := hlaid
  exact ⟨g, hg, by rw [hg.framed.bytes, hp.wire hi]⟩

/-- Take an end on a stream that takes every write at once, with data frames handed in whole. Once
it has dealt with a close frame of its peer, before the clock's last tick, and is at rest, the
connection is closed, and the last frame on the wire is the only close frame. But if a close call of
its own had been accepted and not been sent by then, there is no close frame on the wire. -/
theorem close_answered_of_driven (h : Driven ok (e :: past))
    (hok : ∀ c, ok (.write c) → c.Within Entire) (hw : ∀ d ∈ e :: past, d.transport.Willing)
    (hrest : e.tick = none) (hd : d ∈ past) (ht : d.TakesClose p rest)
    (htimeout : d.config.closeTimeout.toNat ≠ 0) (hclock : d.life.clock < Timer.latest) :
    e.life.closed = true ∧ ∃ fs, e.transport.wire.toList = Frame.rowBytes fs ∧
      (∀ f ∈ fs, f.Proper e.config.role) ∧
      if (d.told p rest).ownCloseUnsent then ∀ f ∈ fs, f.header.opcode ≠ .close
      else ∃ front f, fs = front ++ [f] ∧ f.header.opcode = .close ∧
        ∀ g ∈ front, g.header.opcode ≠ .close := by
  have hin := h.inOrder hok
  have hp := h.prompt hok hw
  have hover : Over (!(d.told p rest).ownCloseUnsent) e := by
    rcases h.after_close hok hw hd ht htimeout hclock with ⟨ha, -⟩ | ho
    · obtain ⟨j, hj, -⟩ := ha.answer
      rw [held_of_waits hin.sending (hw e (by simp)) hp.deferred ha.opened
        (waits_of_tick hrest).2.1] at hj
      simp at hj
    · exact ho
  obtain ⟨f, hlaid, hwire⟩ := hp.frames hin.sending hover.inHand
  refine ⟨hover.closed, Job.frames e.outgoing.written, hwire, hlaid.proper hlaid.entire, ?_⟩
  · split
    · next hunsent =>
      apply hlaid.framed.noClose
      intro j hj hk
      have := hover.written.mpr ⟨j, hj, hk⟩
      rw [hunsent] at this
      simp at this
    · next hsent =>
      rw [Bool.not_eq_true] at hsent
      obtain ⟨j, hj, hk⟩ := hover.written.mp (by rw [hsent]; rfl)
      exact hlaid.ends_in_close hj hk

def trace : Nat → Endpoint → List Endpoint → List Endpoint
  | 0, e, past => e :: past
  | n + 1, e, past =>
    match e.tick with
    | none => e :: past
    | some e' => trace n e' (e :: past)

theorem Driven.trace (h : Driven ok (e :: past)) (n : Nat) : Driven ok (e.trace n past) := by
  induction n generalizing e past with
  | zero => exact h
  | succ n ih =>
    unfold Endpoint.trace
    split
    · exact h
    · next hgo => exact ih (h.tick hgo)

/-- Deals with one event after the other, in `n` steps each at most; none if that is too few. -/
def drive (n : Nat) : List Event → Endpoint → List Endpoint → Option (List Endpoint)
  | [], e, past => some (e :: past)
  | ev :: evs, e, past =>
    match trace n ((e.accept ev).1.giveTurn .reader) (e :: past) with
    | [] => none
    | e' :: past' => if e'.tick.isNone then drive n evs e' past' else none

/-- Dealing with events is a run. What is seen of its states can be computed. -/
theorem Driven.drive {α : Type} {f : List Endpoint → α} {y : α} {n : Nat} {evs : List Event}
    (h : Driven ok (e :: past)) (hrest : e.tick = none) (hevs : ∀ ev ∈ evs, ok ev)
    (hy : (drive n evs e past).map f = some y) :
    ∃ e' past', Driven ok (e' :: past') ∧ e'.tick = none ∧ f (e' :: past') = y := by
  induction evs generalizing e past with
  | nil => exact ⟨e, past, h, hrest, Option.some.inj hy⟩
  | cons ev evs ih =>
    have hnext := (h.event hrest ev (hevs ev List.mem_cons_self)).trace n
    rw [Endpoint.drive] at hy
    split at hy
    · simp at hy
    · next e' past' heq =>
      rw [heq] at hnext
      split at hy
      · next hrest' =>
        exact ih hnext (Option.isNone_iff_eq_none.mp hrest')
          (fun ev' hm => hevs ev' (List.mem_cons_of_mem ev hm)) hy
      · simp at hy

/-- A server whose application answers the peer's close with a close call. Neither close frame is
sent. -/
theorem close_answered_of_driven_own_close :
    ∃ (e d : Endpoint) (past : List Endpoint) (p : ClosePayload) (rest : Bytes),
      Driven (fun ev => ∀ c, ev = .write c → c.Within Entire) (e :: past) ∧
      (∀ d ∈ e :: past, d.transport.Willing) ∧ e.tick = none ∧ d ∈ past ∧ d.TakesClose p rest ∧
      d.config.closeTimeout.toNat ≠ 0 ∧ d.life.clock < Timer.latest ∧
      (d.told p rest).ownCloseUnsent = true ∧
      e.life.closed = true ∧ ∃ fs, e.transport.wire.toList = Frame.rowBytes fs ∧
        (∀ f ∈ fs, f.Proper e.config.role) ∧
        if (d.told p rest).ownCloseUnsent then ∀ f ∈ fs, f.header.opcode ≠ .close
        else ∃ front f, fs = front ++ [f] ∧ f.header.opcode = .close ∧
          ∀ g ∈ front, g.header.opcode ≠ .close := by
  have hcalls : ∀ c ∈ Callbacks.calls ⟨none, some [.close .normal "" true], false, false⟩,
      ∀ c', Event.write c = .write c' → c'.Within Entire := by
    intro c hc c' he
    cases he
    rw [List.mem_singleton.mp hc]
    trivial
  have h0 : Driven (fun ev => ∀ c, ev = .write c → c.Within Entire)
      [opened .server ⟨none, some [.close .normal "" true], false, false⟩ (fun _ => .zero) none
        none] := .start _ _ _ _ _ hcalls
  have h1 := h0.event (Option.isNone_iff_eq_none.mp (by decide +kernel)) (.read .all)
    (by rintro c ⟨⟩)
  have h2 := h1.event (Option.isNone_iff_eq_none.mp (by decide +kernel))
    (.feed [0x88, 0x82, 0, 0, 0, 0, 0x03, 0xe8]) (by rintro c ⟨⟩)
  have h := h2.trace 5
  generalize hs : trace 5 _ _ = states at h
  have hw : (states.all fun d => decide d.transport.Willing) = true := by
    subst hs
    decide +kernel
  have hlast : (states.head?.map fun e => e.tick.isNone) = some true := by
    subst hs
    decide +kernel
  have hclose : (states[2]?.map fun d => d.nextClose) = some (some (⟨some .normal, ""⟩, [])) := by
    subst hs
    decide +kernel
  have hstands : (states[2]?.map fun d => (d.life.closed, d.reader.reading.isSome,
      d.reader.finished, d.turn)) = some (false, true, false, .reader) := by
    subst hs
    decide +kernel
  have htimes : (states[2]?.map fun d => (d.config.closeTimeout.toNat, d.life.clock,
      (d.told ⟨some .normal, ""⟩ []).ownCloseUnsent)) = some (5000, 0, true) := by
    subst hs
    decide +kernel
  rcases states with _ | ⟨e, _ | ⟨x, _ | ⟨d, past⟩⟩⟩
  · simp at hlast
  · simp at hclose
  · simp at hclose
  · have hwilling : ∀ c ∈ e :: x :: d :: past, c.transport.Willing := fun c hc =>
      of_decide_eq_true (List.all_eq_true.mp hw c hc)
    have hrest : e.tick = none := Option.isNone_iff_eq_none.mp (Option.some.inj hlast)
    have hmem : d ∈ x :: d :: past := by simp
    obtain ⟨hopen, hreading, hfin, hturn⟩ := by
      simpa only [Prod.mk.injEq] using Option.some.inj hstands
    obtain ⟨htimeout, hclock, hunsent⟩ := by
      simpa only [Prod.mk.injEq] using Option.some.inj htimes
    have htakes : d.TakesClose ⟨some .normal, ""⟩ [] :=
      ⟨hopen, hreading, hfin, .inl hturn, Option.some.inj hclose⟩
    have htimeout : d.config.closeTimeout.toNat ≠ 0 := by
      rw [htimeout]
      decide
    have hclock : d.life.clock < Timer.latest := by
      rw [hclock]
      decide
    exact ⟨e, d, x :: d :: past, _, _, h, hwilling, hrest, hmem, htakes, htimeout, hclock, hunsent,
      close_answered_of_driven h (fun _ hc => hc _ rfl) hwilling hrest hmem htakes htimeout hclock⟩

end Endpoint

end WebSocket
