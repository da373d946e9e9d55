import WebSocket.Proofs.Reports

/-! What comes of a violation of the peer's, at an end on a stream that takes every write. The
violation is reported, what has been handed in is written, and a close frame with the status and the
reason of the violation goes out last. An end that has started to close is torn down instead. -/

namespace WebSocket

theorem Violation.encode_eq (v : Violation) : ClosePayload.encode v.code v.reason =
    .ok (beBytes 2 v.code.value.toNat ++ v.reason.toUTF8.toList) := by
  have hcode : v.code.isSendable = true := by cases v <;> decide
  have hreason : v.reason.utf8ByteSize ≤ ClosePayload.maxReason := by cases v <;> decide
  rw [ClosePayload.encode, if_pos hcode, if_pos hreason]

theorem Follows.eq_of_close {masked : Bool} {fits : Nat → Nat → Prop} {f g : OutgoingFrame}
    {j : Job} (hj : Follows masked fits f j g) (hk : j.kind = .close) : g = f := by
  cases hj with
  | first | further => simp at hk
  | control => rfl

namespace Outgoing

variable {o : Outgoing} {j : Job}

/-- The job is not written yet, and no other is to be written after it. -/
def Pending (j : Job) (o : Outgoing) : Prop :=
  (∃ front, o.outbox.queue = front ++ [j]) ∨ o.inHand = [j] ∧ o.waiting = []

theorem Pending.queued (hp : o.Pending j) (hs : o.writer.state = .idle) :
    ∃ front, o.outbox.queue = front ++ [j] := by
  refine hp.resolve_right fun ⟨hi, _⟩ => ?_
  rw [inHand_idle hs] at hi
  cases hi

theorem Slotted.ne_of_queue (h : o.Slotted) {i : Job} {u : Bytes} {front : List Job}
    (hs : o.writer.state = .sending i u) (hq : o.outbox.queue = front ++ [j]) :
    i.kind ≠ j.kind := by
  have hnodup := h.nodup
  rw [held_sending hs, hq] at hnodup
  intro hk
  simp [hk] at hnodup

end Outgoing

namespace Endpoint

variable {fits : Nat → Nat → Prop} {e e' d d' : Endpoint} {j : Job}

theorem Sending.unsent (h : e.Sending fits) (hcl : e.life.closing = false) :
    e.writer.closeSent = false := by
  rw [← Bool.not_eq_true]
  intro hsent
  exact absurd (hcl.symm.trans (h.closes.spent hsent).1) Bool.false_ne_true

theorem frameOpen_of_last (hsend : e.Sending fits) (hopen : e.life.closed = false)
    (hcl : e.life.closing = false) (hframe : e.outbox.frame.remaining = 0) (hk : j.kind = .close)
    (hs : e.writer.state = .idle) (hq : e.outbox.queue = [j]) : e.writer.frameOpen = false := by
  obtain ⟨f, hf⟩ := hsend.flowing (hsend.running hopen) (hsend.unsent hcl)
  have htrail := hf.trail_idle hs
  rw [show e.outgoing.outbox.queue = [j] from hq] at htrail
  have hsame : f.remaining = 0 := by
    cases htrail with
    | cons hj hrest =>
      have heq := hj.eq_of_close hk
      cases hrest
      rw [← heq]
      exact hframe
  exact hf.closed_iff.mpr hsame

/-- The writer goes on to the last job and ends with it. -/
theorem pending_writerStep (hp : e.outgoing.Pending j) (hsend : e.Sending fits)
    (hw : e.transport.Taking) (hopen : e.life.closed = false) (hcl : e.life.closing = false)
    (hframe : e.outbox.frame.remaining = 0) (hk : j.kind = .close) (hl : j.last = true)
    (hstep : e.writerStep = some e') :
    (e'.life.closed = false ∧ e'.outgoing.Pending j) ∨
      e'.outgoing = (e.outgoing.complete j).stop ∧ e.outgoing.waiting = [] := by
  have hsent := hsend.unsent hcl
  cases writerStep_cases hstep with
  | cut job unsent hs hshut => exact absurd (hopen.symm.trans hshut) Bool.false_ne_true
  | fail job unsent f hs _ hf =>
    rcases hf with hf | ⟨hne, hf⟩
    · exact absurd (hw.flushFault.symm.trans hf) (by simp)
    · exact absurd hf (hw.write hne f)
  | complete job hs =>
    rcases hp with ⟨front, hq⟩ | ⟨hi, hwait⟩
    · left
      -- another job has been written: its slot is not that of the last one
      have hkind : job.kind ≠ .close := hk ▸ hsend.slotted.ne_of_queue hs hq
      have hlast : ¬ job.last = true := fun hlast => hkind (hsend.kind_of_last hs hlast)
      have ho := outgoing_complete e job
      rw [if_neg hlast, if_neg hkind] at ho
      refine ⟨(congrArg Outgoing.closed ho).trans hopen, .inl ⟨front, ?_⟩⟩
      rw [ho]
      exact hq
    · right
      rw [Outgoing.inHand_sending hs] at hi
      obtain rfl := List.head_eq_of_cons_eq hi
      exact ⟨by rw [outgoing_complete, if_pos hl], hwait⟩
  | put job unsent rest t hs =>
    refine .inl ⟨hopen, hp.imp id fun ⟨hi, hwait⟩ => ⟨?_, hwait⟩⟩
    rw [Outgoing.inHand_sending hs] at hi
    exact hi
  | takeHeld job rest hs _ hf hd =>
    left
    rw [takeUp, if_neg (by simp [setDeferred, hsent]), if_neg (by simp [setDeferred, hf])]
    exact ⟨hopen, .inl (hp.queued hs)⟩
  | takeNew job rest hs _ hd hq =>
    left
    obtain ⟨front, hfront⟩ := hp.queued hs
    rw [show e.outgoing.outbox.queue = job :: rest from hq] at hfront
    rw [takeUp, if_neg (by simp [setQueue, hsent])]
    rcases List.cons_eq_append_iff.mp hfront with ⟨-, hlast⟩ | ⟨front', -, hrest⟩
    · obtain ⟨rfl, rfl⟩ := List.cons.inj hlast
      -- the last job is taken while no frame is open, so it is sent and not held back
      have hf := frameOpen_of_last hsend hopen hcl hframe hk hs hq
      have hnone : e.writer.deferred = [] :=
        hd.resolve_left fun hd => absurd (hf.symm.trans hd) Bool.false_ne_true
      rw [if_neg (by simp [setQueue, hf])]
      refine ⟨hopen, .inr ⟨rfl, ?_⟩⟩
      show e.writer.deferred ++ [] = []
      rw [hnone]
      rfl
    · split
      · exact ⟨hopen, .inl ⟨front', hrest⟩⟩
      · exact ⟨hopen, .inl ⟨front', hrest⟩⟩
  | stop hs hwhy =>
    obtain ⟨front, hfront⟩ := hp.queued hs
    rcases hwhy with hshut | ⟨-, hq, -⟩
    · exact absurd (hopen.symm.trans hshut) Bool.false_ne_true
    · rw [show e.outgoing.outbox.queue = [] from hq] at hfront
      simp at hfront

/-- A close frame that answers a violation is to be written behind the jobs in `line`. -/
structure Rejecting (line : List Job) (j : Job) (e : Endpoint) : Prop where
  opened : e.life.closed = false
  closing : e.life.closing = false
  reading : e.reader.reading = none
  early : e.Early
  frame : e.outbox.frame.remaining = 0
  pending : e.outgoing.Pending j
  line : e.outgoing.lineUp.Perm (line ++ [j])

structure Rejected (line : List Job) (j : Job) (e : Endpoint) : Prop where
  closed : e.life.closed = true
  stopped : e.writer.state = .stopped
  ended : ∃ js, e.ended = (js ++ [j]).map (⟨·, .written⟩)
  line : e.outgoing.lineUp.Perm (line ++ [j])

section

variable {line : List Job}

theorem Rejecting.giveTurn (h : Rejecting line j e) (t : Turn) :
    Rejecting line j (e.giveTurn t) :=
  ⟨h.opened, h.closing, h.reading, h.early, h.frame, h.pending, h.line⟩

theorem Rejected.of_same (h : Rejected line j e) (ho : e'.outgoing = e.outgoing) :
    Rejected line j e' := by
  refine ⟨(congrArg Outgoing.closed ho).trans h.closed, ?_, ?_, ?_⟩
  · rw [show e'.writer = e.writer from congrArg Outgoing.writer ho]
    exact h.stopped
  · rw [ended_eq_of_writer (congrArg Outgoing.writer ho)]
    exact h.ended
  · rw [ho]
    exact h.line

theorem Rejecting.tick (h : Rejecting line j e) (hin : e.InOrder fits) (hw : e.transport.Taking)
    (hk : j.kind = .close) (hl : j.last = true) (ht : e.tick = some e') :
    Rejecting line j e' ∨ Rejected line j e' := by
  rcases tick_cases ht with ⟨w, hstep, rfl⟩ | ⟨x, hstep | hstep, -, -⟩
  · obtain ⟨hframe, -, hclosing⟩ := writerStep_calls hstep
    have hline := (lineUp_writerStep hin.sending hstep).trans h.line
    rcases pending_writerStep h.pending hin.sending hw h.opened h.closing h.frame hk hl hstep with
      ⟨hopen, hp⟩ | ⟨ho, hwait⟩
    · rcases writerStep_life hstep with hlife | hshut
      · left
        have hreader : w.reader = e.reader := (sendingWork_writerStep hstep).1
        refine Rejecting.giveTurn ⟨hopen, hclosing.trans h.closing, ?_, ?_, ?_, hp, hline⟩ .writer
        · rw [hreader]
          exact h.reading
        · show ∀ t, w.life.timer = some t → w.life.clock < t.deadline
          rw [hlife]
          exact h.early
        · rw [hframe]
          exact h.frame
      · exact absurd (hopen.symm.trans hshut) Bool.false_ne_true
    · right
      have hold := hin.sending.all_written (hin.sending.running h.opened)
        (hin.sending.unsent h.closing)
      have hended : w.ended = (e.outgoing.written ++ [j]).map (⟨·, .written⟩) := by
        rw [ended_eq, ho, Outgoing.completions_stop, Outgoing.completions_complete,
          Outgoing.waiting_complete, hwait, hold]
        simp
      exact ⟨congrArg Outgoing.closed ho, congrArg (·.writer.state) ho, ⟨_, hended⟩, hline⟩
  · have hreading := (readerStep_cases hstep).1
    rw [h.reading] at hreading
    simp at hreading
  · rw [h.early.timerStep] at hstep
    simp at hstep

theorem Rejected.tick (h : Rejected line j e) (hin : e.InOrder fits) (ht : e.tick = some e') :
    Rejected line j e' := by
  rcases tick_cases ht with ⟨w, hstep, -⟩ | ⟨x, hstep, hx, -⟩
  · rw [writerStep, h.stopped] at hstep
    simp at hstep
  · have ho := (hin.reaction hstep).of_closed h.closed
    rcases hx with rfl | rfl
    · exact h.of_same ho
    · exact h.of_same ho

theorem Rejecting.not_at_rest (h : Rejecting line j e) (hin : e.InOrder fits)
    (hw : e.transport.Taking) : e.tick ≠ none := by
  intro hrest
  obtain ⟨hs, hq, -⟩ := idle_of_waits hin.sending h.opened hw.quota
    (waits_of_tick hrest).2.1
  obtain ⟨front, hfront⟩ := h.pending.queued hs
  rw [show e.outgoing.outbox.queue = [] from hq] at hfront
  simp at hfront

end

variable {ok : Event → Prop} {past rest : List Endpoint}

/-- What holds at one state and is kept from there on. -/
theorem Driven.onward {Q : Endpoint → Prop} (h : Driven ok (e :: past))
    (hd : d :: rest <:+ e :: past) (hq : Q d)
    (htick : ∀ c c' earlier, Driven ok (c :: earlier) → c :: earlier <:+ e :: past →
      c.tick = some c' → Q c → Q c')
    (hevent : ∀ c earlier ev, Driven ok (c :: earlier) → c :: earlier <:+ e :: past →
      c.tick = none → ok ev → Q c → Q ((c.accept ev).1.giveTurn .reader)) : Q e := by
  generalize hs : e :: past = states at h
  induction h generalizing e past with
  | start =>
    cases hs
    rcases List.suffix_cons_iff.mp hd with heq | hd
    · obtain ⟨rfl, -⟩ := List.cons.inj heq
      exact hq
    · exact absurd (List.suffix_nil.mp hd) (List.cons_ne_nil d rest)
  | @tick c c' earlier h hgo ih =>
    cases hs
    rcases List.suffix_cons_iff.mp hd with heq | hd
    · obtain ⟨rfl, -⟩ := List.cons.inj heq
      exact hq
    · have hsub : c :: earlier <:+ c' :: c :: earlier := List.suffix_cons _ _
      exact htick c c' earlier h hsub hgo (ih hd
        (fun x x' more hx hs => htick x x' more hx (hs.trans hsub))
        (fun x more ev hx hs => hevent x more ev hx (hs.trans hsub)) rfl)
  | @event c earlier h hrest ev hev ih =>
    cases hs
    rcases List.suffix_cons_iff.mp hd with heq | hd
    · obtain ⟨rfl, -⟩ := List.cons.inj heq
      exact hq
    · have hsub : c :: earlier <:+ (c.accept ev).1.giveTurn .reader :: c :: earlier :=
        List.suffix_cons _ _
      exact hevent c earlier ev h hsub hrest hev (ih hd
        (fun x x' more hx hs => htick x x' more hx (hs.trans hsub))
        (fun x more ev hx hs => hevent x more ev hx (hs.trans hsub)) rfl)

/-- What holds at one state and is kept by every step holds from there on. -/
theorem Driven.keeps {Q : Endpoint → Prop} (h : Driven ok (e :: past))
    (hok : ∀ c, ok (.write c) → c.Within fits) (hd : d :: rest <:+ e :: past) (hq : Q d)
    (hkeep : ∀ c c', c.InOrder fits → Step ok c c' → Q c → Q c') : Q e := by
  refine h.onward hd hq ?_ ?_
  · intro c c' earlier hc _ hgo hq
    have hin := hc.inOrder hok
    have hstep : Step ok c c' ∨ ∃ x t, Step ok c x ∧ c' = x.giveTurn t := tick_step hgo
    rcases hstep with hs | ⟨x, t, hs, rfl⟩
    · exact hkeep c c' hin hs hq
    · exact hkeep x _ (hin.step hok hs) (.turn x t) (hkeep c x hin hs hq)
  · intro c earlier ev hc _ _ hev hq
    have hin := hc.inOrder hok
    have hs : Step ok c (c.accept ev).1 := .event ev hev
    exact hkeep _ _ (hin.step hok hs) (.turn _ .reader) (hkeep c _ hin hs hq)

theorem Driven.config_eq (h : Driven ok (e :: past)) (hok : ∀ c, ok (.write c) → c.Within fits)
    (hd : d :: rest <:+ e :: past) : e.config = d.config :=
  h.keeps (Q := fun c => c.config = d.config) hok hd rfl fun _ _ hin hs heq =>
    (hs.config_eq hin hok).trans heq

theorem Driven.closed_kept (h : Driven ok (e :: past)) (hok : ∀ c, ok (.write c) → c.Within fits)
    (hd : d :: rest <:+ e :: past) (hc : d.life.closed = true) :
    e.life.closed = true ∧ e.outbox.nextSerial = d.outbox.nextSerial := by
  refine h.keeps (Q := fun c => c.life.closed = true ∧ c.outbox.nextSerial = d.outbox.nextSerial)
    hok hd ⟨hc, rfl⟩ ?_
  rintro c c' hin hs ⟨hshut, hserial⟩
  exact ⟨hs.closed hin hok hshut, (hs.nextSerial_of_closed hin hok hshut).trans hserial⟩

/-- From the violation until the answer has been written, and from there on. -/
theorem Driven.rejecting {line : List Job} (h : Driven ok (e :: past))
    (hok : ∀ c, ok (.write c) → c.Within fits) (hw : ∀ d ∈ e :: past, d.transport.Taking)
    (hd : d :: rest <:+ e :: past) (hq : Rejecting line j d) (hk : j.kind = .close)
    (hl : j.last = true) : Rejecting line j e ∨ Rejected line j e := by
  have htaking : ∀ c earlier, c :: earlier <:+ e :: past → c.transport.Taking :=
    fun c _ hs => hw c (hs.subset List.mem_cons_self)
  refine h.onward (Q := fun c => Rejecting line j c ∨ Rejected line j c) hd (.inl hq) ?_ ?_
  · rintro c c' earlier hc hs hgo (hq | hq)
    · exact hq.tick (hc.inOrder hok) (htaking c earlier hs) hk hl hgo
    · exact .inr (hq.tick (hc.inOrder hok) hgo)
  · rintro c earlier ev hc hs hrest hev (hq | hq)
    · exact absurd hrest (hq.not_at_rest (hc.inOrder hok) (htaking c earlier hs))
    · have hshift := accept_shift (hc.inOrder hok).sending fun x hx => hok x (hx ▸ hev)
      exact .inr (hq.of_same (hshift.of_closed hq.closed))

theorem rejectPeer_rejecting (h : e.Sending fits) (hopen : e.life.closed = false)
    (hcl : e.life.closing = false) (hslot : e.outbox.slots.isBusy .close = false)
    (hframe : e.outbox.frame.remaining = 0) (htimeout : e.config.closeTimeout.toNat ≠ 0)
    (hclock : e.life.clock < Timer.latest) (v : Violation) :
    ∃ j : Job, j.kind = .close ∧ j.last = true ∧
      j.data = beBytes 2 v.code.value.toNat ++ v.reason.toUTF8.toList ∧
      Rejecting e.outgoing.lineUp j (e.rejectPeer v) := by
  have hsame := outgoing_report e v.toError
  have hreport : Reaction fits e (e.report v.toError) := .report e _
  have hsend := h.shift hreport.toShift
  have htime := hreport.clock
  have hconfig := hreport.config
  unfold rejectPeer
  dsimp only
  generalize e.report v.toError = c at *
  have hopen : c.life.closed = false := (congrArg Outgoing.closed hsame).trans hopen
  have hcl : c.life.closing = false := (congrArg Outgoing.closing hsame).trans hcl
  have houtbox : c.outbox = e.outbox := congrArg Outgoing.outbox hsame
  rw [← houtbox] at hslot hframe
  obtain ⟨key, keys, -, heq⟩ := closeDown_eq (hsend.ready hopen hslot) v.encode_eq
  refine ⟨.control c.outbox.nextSerial .close .close _ key true, rfl, rfl, rfl, ?_⟩
  rw [if_neg (by simp [hcl]), heq]
  refine ⟨hopen, hcl, rfl, ?_, hframe, .inl ⟨c.outbox.queue, rfl⟩, ?_⟩
  · intro t ht
    cases ht
    rw [← htime] at hclock
    rw [← hconfig] at htimeout
    exact lt_deadline htimeout hclock _
  · rw [← hsame]
    refine List.Perm.of_eq ?_
    simp only [Outgoing.lineUp, Outgoing.held, Outgoing.waiting, List.append_assoc]
    rfl

theorem rejectPeer_of_closing (hcl : e.life.closing = true) (v : Violation) :
    (e.rejectPeer v).life.closed = true ∧
      (e.rejectPeer v).outbox.nextSerial = e.outbox.nextSerial := by
  have hsame := outgoing_report e v.toError
  have hclosing : (e.report v.toError).life.closing = true :=
    (congrArg Outgoing.closing hsame).trans hcl
  have houtbox : (e.report v.toError).teardown.outbox = e.outbox := by
    rw [outbox_teardown, outbox_report]
  unfold rejectPeer
  dsimp only
  rw [if_pos hclosing]
  exact ⟨closed_teardown _, congrArg Outbox.nextSerial houtbox⟩

theorem Driven.failed_at {err : Error} (h : Driven ok (e :: past))
    (hr : .failed err ∈ e.reader.reads) : ∃ d d' earlier, Driven ok (d :: earlier) ∧
      d' :: d :: earlier <:+ e :: past ∧ d.tick = some d' ∧ .failed err ∉ d.reader.reads ∧
      ∃ x, d.readerStep = some x ∧ .failed err ∈ x.reader.reads ∧
        (d' = x ∨ d' = x.giveTurn .reader) := by
  generalize hs : e :: past = states at h
  induction h generalizing e past with
  | start config callbacks keys quota maxWrite =>
    cases hs
    rw [Endpoint.opened, reader_writeAll] at hr
    simp [Endpoint.fresh] at hr
  | @tick c c' more h hgo ih =>
    cases hs
    -- only a step of the reader adds a result, so this is the step looked for or an earlier one is
    by_cases hold : .failed err ∈ c.reader.reads
    · obtain ⟨d, d', earlier, hd, hsub, hrest⟩ := ih hold rfl
      exact ⟨d, d', earlier, hd, hsub.trans (List.suffix_cons _ _), hrest⟩
    · refine ⟨c, c', more, h, List.suffix_rfl, hgo, hold, ?_⟩
      rcases tick_cases hgo with ⟨w, hstep, rfl⟩ | ⟨x, hstep | hstep, hx, -⟩
      · rw [show (w.giveTurn .writer).reader = w.reader from rfl,
          (sendingWork_writerStep hstep).1] at hr
        exact absurd hr hold
      · refine ⟨x, hstep, ?_, hx⟩
        rcases hx with rfl | rfl
        · exact hr
        · exact hr
      · have hsame : c'.reader = c.reader := by
          rcases hx with rfl | rfl
          · exact (sendingWork_timerStep hstep).1
          · exact (sendingWork_timerStep hstep).1
        rw [hsame] at hr
        exact absurd hr hold
  | @event c more h hrest ev hev ih =>
    cases hs
    have hr : .failed err ∈ (c.accept ev).1.reader.reads := hr
    rw [(reads_accept c ev).1] at hr
    obtain ⟨d, d', earlier, hd, hsub, hrest⟩ := ih hr rfl
    exact ⟨d, d', earlier, hd, hsub.trans (List.suffix_cons _ _), hrest⟩

structure GivenUp (d : Endpoint) (err : Error) (e : Endpoint) : Prop where
  finished : e.reader.finished = true
  reads : ∃ k, e.reader.reads.toList =
    d.reader.reads.toList ++ .failed err :: List.replicate k .ended

theorem GivenUp.tick {err : Error} (h : GivenUp d err e) (ht : e.tick = some e') :
    GivenUp d err e' := by
  obtain ⟨hfin, k, hk⟩ := h
  have hsame : ∀ {c : Endpoint}, c.reader = e.reader → GivenUp d err c := by
    intro c hc
    exact ⟨by rw [hc, hfin], k, by rw [hc, hk]⟩
  rcases tick_cases ht with ⟨w, hstep, rfl⟩ | ⟨x, hstep | hstep, hx, -⟩
  · exact hsame (sendingWork_writerStep hstep).1
  · have hleft : GivenUp d err (e.endRead .ended) := by
      refine ⟨rfl, k + 1, ?_⟩
      show (e.reader.reads.push .ended).toList = _
      rw [Array.toList_push, hk, List.replicate_succ']
      simp
    obtain rfl := readerStep_of_over (by simp [hfin]) hstep
    rcases hx with rfl | rfl
    · exact hleft
    · exact ⟨hleft.finished, hleft.reads⟩
  · rcases hx with rfl | rfl
    · exact hsame (sendingWork_timerStep hstep).1
    · exact hsame (sendingWork_timerStep hstep).1

theorem GivenUp.event {err : Error} (h : GivenUp d err e) (ev : Event) :
    GivenUp d err ((e.accept ev).1.giveTurn .reader) := by
  obtain ⟨hreads, hfin⟩ := reads_accept e ev
  obtain ⟨k, hk⟩ := h.reads
  exact ⟨hfin.trans h.finished, k, (congrArg Array.toList hreads).trans hk⟩

/-- All that was handed in until `d` has been written, in the jobs `js`, and behind it a close frame
`f`, in the job `j`. -/
structure Farewell (d e : Endpoint) (payload : Bytes) (js : List Job) (j : Job) (fs : List Frame)
    (f : Frame) : Prop where
  ended : e.ended = (js ++ [j]).map (⟨·, .written⟩)
  outstanding : e.outstanding = []
  earlier : js.Perm d.outgoing.lineUp
  jobs : e.transport.wire.toList = (js ++ [j]).flatMap Job.bytes
  frames : e.transport.wire.toList = Frame.rowBytes (fs ++ [f])
  proper : ∀ g ∈ fs ++ [f], g.Proper e.config.role
  close : f.header.opcode = .close
  payload : f.payload = payload
  only : ∀ g ∈ fs, g.header.opcode ≠ .close

theorem Rejected.farewell (h : Rejected d.outgoing.lineUp j e) (hin : e.InOrder fits)
    (hk : j.kind = .close) : ∃ js fs f, Farewell d e j.data js j fs f := by
  have hs : e.outgoing.writer.state = .stopped := h.stopped
  have hheld : e.outgoing.held = [] := by
    rw [Outgoing.held, Outgoing.inHand_stopped hs, (hin.sending.phased.stopped hs).2]
    rfl
  obtain ⟨js, hended⟩ := h.ended
  have hc : e.outgoing.completions = (js ++ [j]).map (⟨·, .written⟩) := hended
  have hjobs : ((js ++ [j]).map (⟨·, .written⟩ : Job → Completion)).map (·.job) = js ++ [j] := by
    simp [Function.comp_def]
  have hline : js.Perm d.outgoing.lineUp := by
    have := h.line
    rw [Outgoing.lineUp, hheld, hc, List.append_nil, hjobs] at this
    exact (List.perm_append_right_iff [j]).mp this
  have hlost : e.outgoing.lost = [] := by
    rw [Outgoing.lost, hc]
    simp
  have hwritten : e.outgoing.written = js ++ [j] := by
    rw [Outgoing.written, hc, Outgoing.filter_written_map, hjobs]
  obtain ⟨part, tail, f, hb, hlaid, hp⟩ := hin.sending.wired
  -- nothing has been lost, so the wire has whole jobs only
  cases hp with
  | sending i front u hi => exact absurd (hs.symm.trans hi) (by simp)
  | lost i front u x _ _ hi => simp [hlost] at hi
  | none =>
    rw [hwritten, List.append_nil] at hb hlaid
    obtain ⟨-, g, -, hfollows, hbetween⟩ := hlaid.of_concat
    have hrem : f.remaining = 0 := by
      rw [hfollows.eq_of_close hk]
      exact hbetween (by simp [hk])
    obtain ⟨x, hframes, hop, hpayload, honly⟩ := hlaid.frames_close hk
    refine ⟨js, Job.frames js, x, hended, hheld, hline, hb, ?_, ?_, hop, hpayload, honly⟩
    · rw [← hframes, hlaid.framed.bytes]
      exact hb
    · rw [← hframes]
      exact hlaid.proper hrem

/-- The read fails as the end goes from one state to the other. -/
structure FailsAt (states : List Endpoint) (d d' : Endpoint) (err : Error) : Prop where
  passes : Passes states d d'
  ticks : d.tick = some d'
  reads : d'.reader.reads = d.reader.reads.push (.failed err)

theorem Driven.rejected_at {code : CloseCode} {reason : String} (h : Driven ok (e :: past))
    (hok : ∀ c, ok (.write c) → c.Within fits)
    (hr : .failed (.violation code reason) ∈ e.reader.reads) :
    ∃ d d' earlier r v, Driven ok (d :: earlier) ∧ d' :: d :: earlier <:+ e :: past ∧
      FailsAt (e :: past) d d' (.violation code reason) ∧ d.Listens ∧
      v.code = code ∧ v.reason = reason ∧
      (d' = { d with reader := r }.rejectPeer v ∨
        d' = ({ d with reader := r }.rejectPeer v).giveTurn .reader) := by
  obtain ⟨d, d', earlier, hd, hsub, hgo, hnew, x, hx, hxr, hd'⟩ := h.failed_at hr
  have hpasses : Passes (e :: past) d d' :=
    List.IsInfix.trans ⟨[], earlier, rfl⟩ hsub.isInfix
  have hnone : ∀ {res : ReadResult}, res ≠ .failed (.violation code reason) →
      .failed (.violation code reason) ∉ d.reader.reads.push res := by
    intro res hres hm
    rcases Array.mem_push.mp hm with hm | hm
    · exact hnew hm
    · exact hres hm.symm
  -- a reader that had ended would have ended the read without a failure
  have hlistens : d.Listens := by
    refine Bool.or_eq_false_iff.mp (eq_false_of_ne_true fun hover => ?_)
    obtain rfl := readerStep_of_over hover hx
    exact hnone (by simp) hxr
  cases readerStep_readTold (hd.inOrder hok) hx with
  | calm hc => exact absurd ((hc.reads _).mp hxr) hnew
  | failed r f hreads he =>
    rw [he, reader_failRead] at hxr
    have hxr : _ ∈ r.reads.push (.failed (.fault f)) := hxr
    rw [hreads] at hxr
    exact absurd hxr (hnone (by simp))
  | rejected r v hreads he =>
    have hpushed : x.reader.reads = d.reader.reads.push (.failed v.toError) := by
      rw [he, reader_rejectPeer]
      show r.reads.push _ = _
      rw [hreads]
    have herr : v.toError = .violation code reason := by
      rw [hpushed] at hxr
      rcases Array.mem_push.mp hxr with hm | hm
      · exact absurd hm hnew
      · exact (ReadResult.failed.inj hm).symm
    obtain ⟨hcode, hreason⟩ := Error.violation.inj herr
    rw [herr] at hpushed
    subst he
    refine ⟨d, d', earlier, r, v, hd, hsub, ⟨hpasses, hgo, ?_⟩, hlistens, hcode, hreason, hd'⟩
    rcases hd' with rfl | rfl
    · exact hpushed
    · exact hpushed

/-- An end after a violation: it has been reported alone, the connection is closed, and there is
nothing more to read. -/
structure Condemned (d : Endpoint) (err : Error) (e : Endpoint) : Prop where
  errors : e.life.errors = [err]
  closed : e.life.closed = true
  hook : e.life.hookRuns = 1
  reads : GivenUp d err e
  idle : e.reader.reading = none

/-- Take an end on a stream that takes every write, be it a part at a time, at rest after a read has
failed with a violation of the peer's. If no frame had been handed in in part, this end was not
closing and the clock had a tick left, all that had been handed in is written, and the last frame,
the only close frame, has the status and the reason of the violation. If this end was closing, no
job has been handed in since. In both cases the connection is closed. -/
theorem violation_answered_of_driven {code : CloseCode} {reason : String}
    (h : Driven ok (e :: past)) (hw : ∀ d ∈ e :: past, d.transport.Taking) (hrest : e.tick = none)
    (htimeout : e.config.closeTimeout.toNat ≠ 0)
    (hr : .failed (.violation code reason) ∈ e.reader.reads) :
    ∃ d d', FailsAt (e :: past) d d' (.violation code reason) ∧
      (d.life.closing = false → d.outbox.frame.remaining = 0 → d.life.clock < Timer.latest →
        Condemned d (.violation code reason) e ∧ ∃ js j fs f,
          Farewell d e (beBytes 2 code.value.toNat ++ reason.toUTF8.toList) js j fs f) ∧
      (d.life.closing = true →
        Condemned d (.violation code reason) e ∧ e.outbox.nextSerial = d.outbox.nextSerial) := by
  have hok : ∀ c : WriteCall, ok (.write c) → c.Within fun _ _ => True :=
    fun c _ => c.within_any
  obtain ⟨d, d', earlier, r, v, hd, hsub, hfails, hlistens, rfl, rfl, hd'⟩ := h.rejected_at hok hr
  have hin := hd.inOrder hok
  have hsame : Shift (fun _ _ => True) d { d with reader := r } := .of_same rfl rfl rfl
  -- reads from there on only say that the connection has ended
  have hleft : GivenUp d (.violation v.code v.reason) e := by
    refine h.onward hsub ⟨?_, 0, ?_⟩ (fun _ _ _ _ _ hgo hq => hq.tick hgo)
      fun _ _ ev _ _ _ _ hq => hq.event ev
    · rcases hd' with rfl | rfl <;> rfl
    · rw [hfails.reads, Array.toList_push]
      rfl
  have hidle : e.reader.reading = none := by
    rw [← Option.not_isSome_iff_eq_none]
    intro hreading
    have hopen := (waits_of_readerStep (waits_of_tick hrest).1 hreading).1
    exact absurd (hopen.1.symm.trans hleft.finished) Bool.false_ne_true
  obtain ⟨past', hrun⟩ := h.run
  have hacc := hrun.accounted hok
  have hcondemned : e.life.closed = true → Condemned d (.violation v.code v.reason) e := fun hc =>
    ⟨hacc.read _ hr, hc, by rw [hacc.hook, if_pos hc], hleft, hidle⟩
  refine ⟨d, d', hfails, ?_, ?_⟩
  · intro hcl hframe hclock
    obtain ⟨_, hrund⟩ := hd.run
    have hslot := (hrund.fresh hok).free hin.sending hcl hlistens.1
    have htimeoutd : d.config.closeTimeout.toNat ≠ 0 := by
      rwa [← h.config_eq hok ((List.suffix_cons _ _).trans hsub)]
    obtain ⟨j, hk, hl, hdata, hrej⟩ := rejectPeer_rejecting (e := { d with reader := r })
      (hin.sending.shift hsame) hlistens.2 hcl hslot hframe htimeoutd hclock v
    have hnext : Rejecting d.outgoing.lineUp j d' := by
      rcases hd' with rfl | rfl
      · exact hrej
      · exact hrej.giveTurn .reader
    -- the answer has been written by now: an end that still has to write it is not at rest
    rcases h.rejecting hok hw hsub hnext hk hl with hdone | hdone
    · exact absurd hrest (hdone.not_at_rest (h.inOrder hok) (hw e List.mem_cons_self))
    · obtain ⟨js, fs, f, hfare⟩ := hdone.farewell (h.inOrder hok) hk
      rw [hdata] at hfare
      exact ⟨hcondemned hdone.closed, js, j, fs, f, hfare⟩
  · intro hcl
    have hdown : d'.life.closed = true ∧ d'.outbox.nextSerial = d.outbox.nextSerial := by
      have := rejectPeer_of_closing (e := { d with reader := r }) hcl v
      rcases hd' with rfl | rfl
      · exact this
      · exact this
    obtain ⟨hclosed, hserial⟩ := h.closed_kept hok hsub hdown.1
    exact ⟨hcondemned hclosed, hserial.trans hdown.2⟩

/-- A server that writes three bytes at a time, and whose peer sets a reserved bit. -/
theorem violation_answered_of_driven_reserved_bits :
    ∃ (e d : Endpoint) (past : List Endpoint),
      Driven (· ∈ [Event.write (.message [0x61] true), .read .all, .feed [0xf0]]) (e :: past) ∧
      (∀ d ∈ e :: past, d.transport.Taking) ∧ e.tick = none ∧
      e.config.closeTimeout.toNat ≠ 0 ∧
      .failed (.violation .protocolError "reserved bits set") ∈ e.reader.reads ∧
      Condemned d (.violation .protocolError "reserved bits set") e ∧ ∃ js j fs f,
        Farewell d e (beBytes 2 1002 ++ "reserved bits set".toUTF8.toList) js j fs f := by
  have h0 : Driven (· ∈ [Event.write (.message [0x61] true), .read .all, .feed [0xf0]])
      [opened .server .none (fun _ => .zero) none (some 3)] := .start _ _ _ _ _ nofun
  obtain ⟨e, past, h, hrest, hy⟩ := h0.drive (n := 16)
    (f := fun states => (states.all fun d => decide d.transport.Taking && !d.life.closing &&
      d.outbox.frame.remaining == 0 && d.life.clock == 0,
      states.head?.map fun e => (e.config.closeTimeout.toNat, e.reader.reads.toList)))
    (Option.isNone_iff_eq_none.mp (by decide +kernel)) (fun _ hev => hev)
    (y := (true, some (5000, [.failed (.violation .protocolError "reserved bits set")])))
    (by decide +kernel)
  obtain ⟨hall, hlast⟩ := Prod.mk.inj hy
  obtain ⟨htimeout, hreads⟩ := Prod.mk.inj (Option.some.inj hlast)
  have hstate : ∀ d ∈ e :: past, d.transport.Taking ∧ d.life.closing = false ∧
      d.outbox.frame.remaining = 0 ∧ d.life.clock = 0 := by
    intro d hd
    simpa [and_assoc] using List.all_eq_true.mp hall d hd
  have hw : ∀ d ∈ e :: past, d.transport.Taking := fun d hd => (hstate d hd).1
  have htimeout : e.config.closeTimeout.toNat ≠ 0 := by
    rw [htimeout]
    decide
  have hr : .failed (.violation .protocolError "reserved bits set") ∈ e.reader.reads := by
    rw [← Array.mem_toList_iff, hreads]
    exact List.mem_cons_self
  obtain ⟨d, d', hfails, hanswer, -⟩ := violation_answered_of_driven h hw hrest htimeout hr
  obtain ⟨-, hcl, hframe, hclock⟩ := hstate d (hfails.passes.subset (by simp))
  obtain ⟨hcond, hfare⟩ := hanswer hcl hframe (by rw [hclock]; decide)
  exact ⟨e, d, past, h, hw, hrest, htimeout, hr, hcond, hfare⟩

/-- When the clock has run out, the close timer goes off before the answer is written, and the
violation is not answered. -/
theorem violation_unanswered_at_last_tick :
    ∃ (e : Endpoint) (past : List Endpoint),
      Driven (· ∈ [Event.advance Timer.latest, .read .all, .feed [0xf0]]) (e :: past) ∧
      (∀ d ∈ e :: past, d.transport.Willing ∧ d.life.closing = false ∧
        d.outbox.frame.remaining = 0) ∧
      e.tick = none ∧ e.config.closeTimeout.toNat ≠ 0 ∧
      .failed (.violation .protocolError "reserved bits set") ∈ e.reader.reads ∧
      ¬∃ fs f, e.transport.wire.toList = Frame.rowBytes (fs ++ [f]) ∧
        f.header.opcode = .close := by
  have h0 : Driven (· ∈ [Event.advance Timer.latest, .read .all, .feed [0xf0]])
      [opened .server .none (fun _ => .zero) none none] := .start _ _ _ _ _ nofun
  obtain ⟨e, past, h, hrest, hy⟩ := h0.drive (n := 8)
    (f := fun states => (states.all fun d => decide d.transport.Willing && !d.life.closing &&
      d.outbox.frame.remaining == 0,
      states.head?.map fun e =>
        (e.config.closeTimeout.toNat, e.reader.reads.toList, e.transport.wire.toList)))
    (Option.isNone_iff_eq_none.mp (by decide +kernel)) (fun _ hev => hev)
    (y := (true, some (5000, [.failed (.violation .protocolError "reserved bits set")], [])))
    (by decide +kernel)
  obtain ⟨hall, hlast⟩ := Prod.mk.inj hy
  obtain ⟨htimeout, hlast⟩ := Prod.mk.inj (Option.some.inj hlast)
  obtain ⟨hreads, hwire⟩ := Prod.mk.inj hlast
  refine ⟨e, past, h, ?_, hrest, ?_, ?_, ?_⟩
  · intro d hd
    simpa [and_assoc] using List.all_eq_true.mp hall d hd
  · rw [htimeout]
    decide
  · rw [← Array.mem_toList_iff, hreads]
    exact List.mem_cons_self
  · rintro ⟨fs, f, hbytes, -⟩
    rw [hwire, Frame.rowBytes_append, Frame.rowBytes_cons] at hbytes
    have hnil := (List.append_eq_nil_iff.mp (List.append_eq_nil_iff.mp hbytes.symm).2).1
    exact Frame.bytes_ne_nil f hnil

end Endpoint

end WebSocket
