import WebSocket.Proofs.Listening

/-! How the peer's bytes arrive makes no difference. An end that writes nothing of its own, on a
stream that takes every write, comes to the same results however the bytes are cut into pieces, and
however far its reader runs ahead of its writer. -/

namespace WebSocket

def Event.Silent (ev : Event) : Prop := ∀ c, ev ≠ .write c

/-- A frame with its mask key left out of account. -/
def Frame.unkeyed (f : Frame) : Frame := { f with header := f.header.unkeyed }

theorem Job.addTo_unkeyed (j : Job) (fs : List Frame) :
    (j.addTo fs).map Frame.unkeyed = j.unkeyed.addTo (fs.map Frame.unkeyed) := by
  unfold addTo
  rw [show j.unkeyed.header = j.header.map Header.unkeyed from rfl,
    show j.unkeyed.data = j.data from rfl]
  cases j.header with
  | some h => simp [Frame.unkeyed]
  | none =>
    rw [List.getLast?_map]
    cases fs.getLast? <;> simp [Frame.unkeyed, List.map_dropLast]

theorem Job.frames_unkeyed (js : List Job) :
    (frames js).map Frame.unkeyed = frames (js.map unkeyed) := by
  induction js using List.reverseRecOn with
  | nil => rfl
  | append_singleton js j ih =>
    rw [frames_concat, addTo_unkeyed, ih, List.map_append, List.map_singleton, frames_concat]

namespace Outgoing

variable {masked : Bool} {fits : Nat → Nat → Prop} {o o' : Outgoing}

/-- What follows from the kinds of the jobs handed in. -/
structure Terse (o : Outgoing) : Prop where
  single : ∀ i ∈ o.closes, ∀ j ∈ o.closes, i = j
  ended : ∀ j ∈ o.written, j.last = true → o.closed = true
  whole : (∀ j ∈ o.lineUp, j.kind.control?.isSome = true) → o.outbox.frame.remaining = 0
  unasked : (∀ j ∈ o.lineUp, j.kind = .close → j.last = true) → o.closing = false

theorem Terse.settled (h : Terse o) (hline : o'.lineUp.Perm o.lineUp)
    (hframe : o'.outbox.frame = o.outbox.frame) (hclosing : o'.closing = o.closing)
    (hended : ∀ j ∈ o'.written, j.last = true → o'.closed = true) : Terse o' := by
  refine ⟨?_, hended, fun hall => ?_, fun hall => ?_⟩
  · have hcloses := closes_perm hline
    exact fun i hi j hj => h.single i (hcloses.mem_iff.mp hi) j (hcloses.mem_iff.mp hj)
  · rw [hframe]
    exact h.whole fun j hj => hall j (hline.mem_iff.mpr hj)
  · rw [hclosing]
    exact h.unasked fun j hj => hall j (hline.mem_iff.mpr hj)

theorem Terse.enter (h : Terse o) (hs : o.Sound masked fits) {j : Job} {f : OutgoingFrame}
    (hj : Enters masked fits o j f) (keys : Nat) :
    Terse { o with
      outbox := o.outbox.enter j f keys
      closing := o.closing || (j.kind == .close && !j.last) } := by
  have hline := lineUp_enter o j f keys (o.closing || (j.kind == .close && !j.last))
  refine ⟨?_, h.ended, fun hall => ?_, fun hall => ?_⟩
  · rw [closes, hline, List.filter_append]
    by_cases hk : j.kind = .close
    · rw [← closes, hs.closes_eq_nil hj hk]
      simp [hk]
    · have hnone : [j].filter (·.kind = .close) = [] := by simp [hk]
      rw [hnone, List.append_nil]
      exact h.single
  · rw [hline] at hall
    have hcontrol := hall j (by simp)
    obtain ⟨hsame, -⟩ := hj.follows.control_iff hcontrol
    show f.remaining = 0
    rw [← hsame]
    exact h.whole fun i hi => hall i (List.mem_append_left _ hi)
  · rw [hline] at hall
    have hlast := hall j (by simp)
    show (o.closing || (j.kind == .close && !j.last)) = false
    rw [h.unasked fun i hi => hall i (List.mem_append_left _ hi)]
    by_cases hk : j.kind = .close <;> simp [hk, hlast]

theorem Terse.move (h : Terse o) (hs : o.Sound masked fits) (hm : Move masked fits o o') :
    Terse o' := by
  have hline := (LineMove.of_move hs.phased hm).perm
  cases hm with
  | enter j f keys hj => exact h.enter hs hj keys
  | shut => exact h.settled (hline rfl) rfl rfl fun _ _ _ => rfl
  | takeHeld | takeNew | hold | put => exact h.settled (hline rfl) rfl rfl h.ended
  | dropHeld j | dropNew j =>
    refine h.settled (hline rfl) rfl rfl fun i hi => h.ended i ?_
    rwa [← written_settle_aborted o j]
  | write j _ _ hl =>
    refine h.settled (hline rfl) rfl rfl fun i hi hlast => ?_
    rw [written_complete] at hi
    rcases List.mem_append.mp hi with hi | hi
    · exact h.ended i hi hlast
    · rw [List.mem_singleton.mp hi, hl] at hlast
      cases hlast
  | writeClose j _ _ hl =>
    refine h.settled (hline rfl) rfl rfl fun i hi hlast => ?_
    have hi : i ∈ (o.complete j).abort.written := hi
    rw [written_abort_complete] at hi
    rcases List.mem_append.mp hi with hi | hi
    · exact h.ended i hi hlast
    · rw [List.mem_singleton.mp hi, hl] at hlast
      cases hlast
  | writeLast | fail | cut | stop => exact h.settled (hline rfl) rfl rfl fun _ _ _ => rfl

theorem Sound.all_sent (h : o.Sound masked fits) (hall : ∀ j ∈ o.lineUp, j ∈ o.written) :
    o.lineUp = o.written ∧ ∃ f, Laid masked fits o.written f ∧
      o.wire.toList = o.written.flatMap Job.bytes := by
  have hline : o.lineUp = o.written ++ (o.lost.map (·.job) ++ o.held) := by
    conv_lhs => rw [lineUp, h.shaped.front]
    simp [Function.comp_def]
  have hnone : o.lost.map (·.job) ++ o.held = [] := by
    refine List.eq_nil_iff_forall_not_mem.mpr fun j hj => ?_
    have hdistinct := h.numbered.nodup
    rw [hline, List.map_append, List.nodup_append] at hdistinct
    have hwritten := hall j (hline ▸ List.mem_append_right _ hj)
    exact hdistinct.2.2 _ (List.mem_map_of_mem hwritten) _ (List.mem_map_of_mem hj) rfl
  obtain ⟨hlost, hheld⟩ := List.append_eq_nil_iff.mp hnone
  refine ⟨by rw [hline, hnone, List.append_nil], ?_⟩
  obtain ⟨part, tail, f, hwire, hlaid, hpart⟩ := h.wired
  cases hpart with
  | none =>
    rw [List.append_nil] at hlaid hwire
    exact ⟨f, hlaid, hwire⟩
  | sending j front u hs =>
    rw [held_sending hs] at hheld
    cases hheld
  | lost j front u x _ _ hfirst =>
    rw [List.map_eq_nil_iff.mp hlost] at hfirst
    cases hfirst

end Outgoing

namespace Endpoint

variable {ok : Event → Prop} {fits : Nat → Nat → Prop} {e e' d : Endpoint} {past : List Endpoint}

theorem Run.terse (h : Run ok (e :: past)) (hok : ∀ c, ok (.write c) → c.Within fits) :
    e.outgoing.Terse := by
  refine Run.lift (P := fun _ _ o => o.Terse) ?_ (fun _ _ _ _ => id) ?_ hok h
  · exact fun _ _ => ⟨List.forall_mem_nil _, List.forall_mem_nil _, fun _ => rfl, fun _ => rfl⟩
  · exact fun _ _ _ _ hs _ hm hp => hp.move hs hm

/-! What holds throughout. -/

/-- An end that nothing keeps from answering, on a stream that takes every write. All that it has
handed in are answers, and it has been closed only behind the last of them. -/
structure Receptive (e : Endpoint) : Prop extends Undisturbed e where
  silent : e.callbacks.calls = []
  unlimited : e.transport.quota = none
  timeout : e.config.closeTimeout.toNat ≠ 0
  time : e.Spares 0
  reading : e.reader.reading = if e.reader.finished then none else some .all
  jobs : ∀ j ∈ e.outgoing.lineUp, j.kind = .pong ∨ j.kind = .close ∧ j.last = true
  concluded : e.life.closed = true → ∃ j ∈ e.outgoing.written, j.last = true

namespace Receptive

theorem giveTurn (h : Receptive e) (t : Turn) : Receptive (e.giveTurn t) :=
  ⟨⟨h.quota, h.maxWrite, h.writeFault, h.takes, h.flushFault, h.fault, h.ended, h.held, h.closing⟩,
    h.silent, h.unlimited, h.timeout, h.time, h.reading, h.jobs, h.concluded⟩

theorem gains (h : Receptive e) (hin : e.InOrder fits) (hstep : e.readerStep = some d) :
    Gains (fun j => j.kind = .pong ∨ j.kind = .close ∧ j.last = true) e d := by
  refine readerStep_gains_all hin (fun c hc => ?_) (fun j hk hl => .inr ⟨hk, hl⟩) (fun _ => .inl)
    hstep
  rw [h.silent] at hc
  exact absurd hc List.not_mem_nil

theorem writer (h : Receptive e) (hsend : e.Sending fits) (hstep : e.writerStep = some e') :
    Receptive e' := by
  have hreader : e'.reader = e.reader := (sendingWork_writerStep hstep).1
  obtain ⟨hconfig, hcallbacks, -, hheld⟩ := writerStep_settings hstep
  obtain ⟨hmax, hfault, htakes, hflush, hlimit⟩ := by
    simpa only [Transport.terms, Prod.mk.injEq] using writerStep_terms hstep
  have hquota : e'.transport.quota = none := by
    rw [h.unlimited] at hlimit
    exact Option.isNone_iff_eq_none.mp (Option.isSome_eq_false_iff.mp hlimit)
  have hm : Outgoing.Move e.masks fits e.outgoing e'.outgoing := writerStep_move hstep
  refine ⟨⟨by simp [hquota], hmax ▸ h.maxWrite, hfault.trans h.writeFault, htakes.trans h.takes,
    hflush.trans h.flushFault, hreader ▸ h.fault, hreader ▸ h.ended, hheld.trans h.held,
    (writerStep_calls hstep).2.2.trans h.closing⟩, hcallbacks ▸ h.silent, hquota,
    hconfig ▸ h.timeout, h.time.keep (writerStep_time hstep), hreader ▸ h.reading, ?_, ?_⟩
  · exact fun j hj => h.jobs j ((lineUp_writerStep hsend hstep).mem_iff.mp hj)
  · intro hc
    cases hopen : e.life.closed with
    | true =>
      obtain ⟨j, hj, hl⟩ := h.concluded hopen
      exact ⟨j, Outgoing.written_mono hm.completions_prefix j hj, hl⟩
    | false =>
      obtain ⟨job, -, hl, hj⟩ := last_of_closed h.taking h.held hopen hstep hc
      exact ⟨job, hj, hl⟩

theorem reader (h : Receptive e) (hin : e.InOrder fits) (hfresh : e.Fresh) (hopen : e.Listens)
    (hterse : d.outgoing.Terse) (hstep : e.readerStep = some d) : Receptive d := by
  have hreaction := (readerStep_acts hin.sending hin.stage hin.calls hstep).reaction
  obtain ⟨bytes, hinput⟩ := input_readerStep hstep
  have hjobs : ∀ j ∈ d.outgoing.lineUp, j.kind = .pong ∨ j.kind = .close ∧ j.last = true := by
    intro j hj
    rcases hreaction.mem_lineUp hj with hj | hj
    · exact h.jobs j hj
    · rcases h.gains hin hstep j hj with hj | hj
      · exact h.jobs j (Outgoing.mem_lineUp_of_held (Outgoing.mem_held_of_queue hj))
      · exact hj
  have hclosing : d.life.closing = false := hterse.unasked fun j hj hk =>
    ((hjobs j hj).resolve_left (by simp [hk])).2
  have hgoes : Goes fits e d := readerStep_goes hin h.toUndisturbed hopen hstep
  have hreading := h.reading
  rw [hopen.1] at hreading
  suffices d.life.closed = false ∧
      d.reader.reading = if d.reader.finished then none else some .all by
    obtain ⟨hc, hreading⟩ := this
    refine ⟨⟨?_, ?_, ?_, ?_, ?_, ?_, ?_, hreaction.held.trans h.held, hclosing⟩,
      hreaction.callbacks ▸ h.silent, hreaction.transport ▸ h.unlimited,
      hreaction.config ▸ h.timeout, h.time.rearm h.timeout hreaction.clock hreaction.timer,
      hreading, hjobs, fun hshut => absurd (hc.symm.trans hshut) Bool.false_ne_true⟩
    · exact hreaction.transport ▸ h.quota
    · exact hreaction.transport ▸ h.maxWrite
    · exact hreaction.transport ▸ h.writeFault
    · exact hreaction.transport ▸ h.takes
    · exact hreaction.transport ▸ h.flushFault
    · rw [hinput]
      exact h.fault
    · rw [hinput]
      exact h.ended
  cases hgoes with
  | on hfin hc _ hall =>
    rw [hfin, hopen.1]
    exact ⟨hc.trans hopen.2, hall hreading⟩
  | ends hends =>
    obtain ⟨x, payload, key, keys, r, -, hxopen, -, -, rfl⟩ :=
      hends.hands_in hin.sending hfresh hopen hclosing
    exact ⟨hxopen, rfl⟩

end Receptive

/-- A receptive end that has met no call. -/
structure Receiving (e : Endpoint) : Prop extends Receptive e where
  driven : ∃ past, Driven Event.Silent (e :: past) ∧ ∀ d ∈ e :: past, d.Undisturbed

theorem not_silent {P : Prop} {c : WriteCall} (h : Event.Silent (.write c)) : P :=
  absurd rfl (h c)

theorem within_of_silent (c : WriteCall) (_ : Event.Silent (.write c)) :
    c.Within fun _ _ => True := c.within_any

namespace Receiving

theorem run (h : Receiving e) : ∃ past, Run Event.Silent (e :: past) := by
  obtain ⟨past, hd, -⟩ := h.driven
  exact hd.run

theorem inOrder (h : Receiving e) : e.InOrder fits := by
  obtain ⟨past, hrun⟩ := h.run
  exact hrun.inOrder fun _ => not_silent

theorem fresh (h : Receiving e) : e.Fresh := by
  obtain ⟨past, hrun⟩ := h.run
  exact hrun.fresh within_of_silent

theorem secure (h : Receiving e) : Secure e := by
  obtain ⟨past, hd, hu⟩ := h.driven
  exact hd.secure (fun _ => not_silent) hu

theorem listens (h : Receiving e) (hreading : e.reader.reading.isSome = true) : e.Listens := by
  have hfin : e.reader.finished = false := by
    by_contra hfin
    rw [h.reading, if_pos (by simpa using hfin)] at hreading
    cases hreading
  exact ⟨hfin, (h.secure.unfinished hfin).1⟩

theorem later (h : Receiving e) (ht : e.tick = some e') (hr : Receptive e') : Receiving e' := by
  obtain ⟨past, hd, hu⟩ := h.driven
  refine ⟨hr, e :: past, hd.tick ht, fun d hm => ?_⟩
  rcases List.mem_cons.mp hm with rfl | hm
  · exact hr.toUndisturbed
  · exact hu d hm

theorem tick (h : Receiving e) (ht : e.tick = some e') (rest : Bytes) : Receiving e' ∧
    Relation.ReflTransGen ReadsOn (e.listener rest) (e'.listener rest) := by
  have hin : e.InOrder fun _ _ => True := h.inOrder
  rcases tick_cases ht with ⟨w, hstep, rfl⟩ | ⟨d, hstep | hstep, hsame, -⟩
  · have hw : Receptive w := h.toReceptive.writer hin.sending hstep
    refine ⟨h.later ht (hw.giveTurn .writer), ?_⟩
    show Relation.ReflTransGen ReadsOn (e.listener rest) (w.listener rest)
    rw [listener_writerStep h.toUndisturbed hin.sending hstep]
  · have hopen := h.listens (readerStep_cases hstep).1
    obtain ⟨past, hrun⟩ := h.run
    have hterse : d.outgoing.Terse := (hrun.step (.reader hstep)).terse
      within_of_silent
    have hd : Receptive d := h.toReceptive.reader hin h.fresh hopen hterse hstep
    have hclose : e.Ready .close :=
      hin.sending.ready hopen.2 (h.fresh.free hin.sending h.closing hopen.1)
    have hanswers := hrun.answers fun _ => not_silent
    have hgoes : ReadsOn (e.listener rest) (d.listener rest) :=
      listener_readerStep hopen hclose (hanswers.ready hin.sending hopen.2) hin.sending.numbered
        h.closing h.silent h.fault h.ended hstep
    rcases hsame with rfl | rfl
    · exact ⟨h.later ht hd, .single hgoes⟩
    · exact ⟨h.later ht (hd.giveTurn .reader), .single hgoes⟩
  · rw [h.time.early.timerStep] at hstep
    cases hstep

theorem settle (h : Receiving e) (rest : Bytes) : Receiving e.settle ∧
    Relation.ReflTransGen ReadsOn (e.listener rest) (e.settle.listener rest) := by
  fun_induction Endpoint.settle e with
  | case1 e hrest => exact ⟨h, .refl⟩
  | case2 e e' ht ih =>
    obtain ⟨h', hgo⟩ := h.tick ht rest
    obtain ⟨hend, hon⟩ := ih h'
    exact ⟨hend, hgo.trans hon⟩

theorem feed (h : Receiving e) (hrest : e.tick = none) (b : Bytes) :
    Receiving ((e.accept (.feed b)).1.giveTurn .reader) := by
  obtain ⟨past, hd, hu⟩ := h.driven
  have hr : Receptive ((e.accept (.feed b)).1.giveTurn .reader) :=
    ⟨⟨h.quota, h.maxWrite, h.writeFault, h.takes, h.flushFault, h.fault, h.ended, h.held,
      h.closing⟩, h.silent, h.unlimited, h.timeout, h.time, h.reading, h.jobs, h.concluded⟩
  refine ⟨hr, e :: past, hd.event hrest (.feed b) nofun, fun d hm => ?_⟩
  rcases List.mem_cons.mp hm with rfl | hm
  · exact hr.toUndisturbed
  · exact hu d hm

end Receiving

/-- Is fed pieces of bytes one after the other. -/
def feedAll (e : Endpoint) (pieces : List Bytes) : Endpoint :=
  pieces.foldl (fun e b => (e.handle (.feed b)).1) e

/-- An end that has been started on a stream that takes every write. A read of all messages is
outstanding. -/
def receptive (config : Config) (callbacks : Callbacks) (keys : Nat → Key)
    (maxWrite : Option Nat) : Endpoint :=
  ((start config callbacks keys (.fresh none maxWrite)).1.handle (.read .all)).1

namespace Receiving

/-- Feeding takes the reader where it goes with all bytes there from the start. -/
theorem feedAll (h : Receiving e) (hrest : e.tick = none) (pieces : List Bytes) :
    Receiving (e.feedAll pieces) ∧ (e.feedAll pieces).tick = none ∧
      Relation.ReflTransGen ReadsOn (e.listener pieces.flatten)
        ((e.feedAll pieces).listener []) := by
  induction pieces generalizing e with
  | nil => exact ⟨h, hrest, .refl⟩
  | cons b pieces ih =>
    obtain ⟨hfed, hgo⟩ := (h.feed hrest b).settle pieces.flatten
    rw [listener_feed] at hgo
    obtain ⟨hend, hquiet, hon⟩ := ih hfed (tick_settle _)
    exact ⟨hend, hquiet, hgo.trans hon⟩

end Receiving

theorem start_silent {config : Config} {callbacks : Callbacks} {keys : Nat → Key}
    {maxWrite : Option Nat} (hsilent : callbacks.calls = []) :
    (start config callbacks keys (.fresh none maxWrite)).1 =
      Endpoint.fresh config callbacks keys (.fresh none maxWrite) := by
  have hopened : (start config callbacks keys (.fresh none maxWrite)).1 =
      (opened config callbacks keys none maxWrite).settle := rfl
  rw [hopened, opened_silent hsilent]
  exact settle_of_rest rfl

theorem Receiving.start {config : Config} {callbacks : Callbacks} (keys : Nat → Key)
    {maxWrite : Option Nat} (hsilent : callbacks.calls = [])
    (htimeout : config.closeTimeout.toNat ≠ 0) (hmax : maxWrite ≠ some 0) :
    Receiving (((Endpoint.fresh config callbacks keys (.fresh none maxWrite)).accept
      (.read .all)).1.giveTurn .reader) := by
  have hfresh : Driven Event.Silent
      [Endpoint.fresh config callbacks keys (.fresh none maxWrite)] := by
    rw [← opened_silent hsilent]
    refine .start config callbacks keys none maxWrite fun c hc => ?_
    rw [hsilent] at hc
    exact absurd hc List.not_mem_nil
  have hu : (Endpoint.fresh config callbacks keys (.fresh none maxWrite)).Undisturbed :=
    ⟨nofun, hmax, rfl, rfl, rfl, rfl, rfl, rfl, rfl⟩
  have hr : Receptive (((Endpoint.fresh config callbacks keys (.fresh none maxWrite)).accept
      (.read .all)).1.giveTurn .reader) :=
    ⟨⟨nofun, hmax, rfl, rfl, rfl, rfl, rfl, rfl, rfl⟩, hsilent, rfl, htimeout,
      ⟨Nat.zero_lt_succ _, nofun⟩, rfl, List.forall_mem_nil _, nofun⟩
  refine ⟨hr, _, hfresh.event rfl (.read .all) nofun, fun d hm => ?_⟩
  rcases List.mem_cons.mp hm with rfl | hm
  · exact hr.toUndisturbed
  · rwa [List.mem_singleton.mp hm]

/-! What there is at rest. -/

/-- Two ends that an application and a peer cannot tell apart, but for the mask keys. -/
structure Alike (e e' : Endpoint) : Prop where
  reads : e.reader.reads = e'.reader.reads
  controls : e.heardControls = e'.heardControls
  errors : e.heardErrors = e'.heardErrors
  closed : e.life.closed = e'.life.closed
  closes : e.heardCloses = e'.heardCloses
  wire : ∃ fs fs' : List Frame, e.transport.wire.toList = Frame.rowBytes fs ∧
    e'.transport.wire.toList = Frame.rowBytes fs' ∧ (∀ f ∈ fs, f.Proper e.config.role) ∧
    (∀ f ∈ fs', f.Proper e'.config.role) ∧ fs.map Frame.unkeyed = fs'.map Frame.unkeyed

namespace Receiving

theorem terse (h : Receiving e) : e.outgoing.Terse := by
  obtain ⟨past, hrun⟩ := h.run
  exact hrun.terse within_of_silent

theorem whole (h : Receiving e) : e.outbox.frame.remaining = 0 := by
  refine h.terse.whole fun j hj => ?_
  rcases h.jobs j hj with hk | ⟨hk, -⟩ <;> rw [hk] <;> rfl

theorem all_written (h : Receiving e) (hrest : e.tick = none) :
    ∀ j ∈ e.outgoing.lineUp, j ∈ e.outgoing.written := by
  have hsend : e.Sending fun _ _ => True := h.inOrder.sending
  cases hopen : e.life.closed with
  | false =>
    rw [lineUp_of_waits hsend hopen h.closing h.quota (waits_of_tick hrest).2.1 h.whole]
    exact fun _ => id
  | true =>
    intro j hj
    rcases h.jobs j hj with hk | ⟨hk, -⟩
    · exact h.secure.closed hopen h.whole j hj hk
    · -- the job with which the connection was closed is the only close frame
      obtain ⟨i, hi, hl⟩ := h.concluded hopen
      obtain ⟨js, f, hlaid, -, hfront, hpre⟩ := hsend.jobs_on_wire
      have hclose : i.kind = .close := hlaid.kind_of_last i (hfront.subset hi) hl
      have hline : i ∈ e.outgoing.lineUp := hpre.subset (hfront.subset hi)
      have hsame : i = j := h.terse.single i (Outgoing.mem_closes.mpr ⟨hline, hclose⟩) j
        (Outgoing.mem_closes.mpr ⟨hj, hk⟩)
      exact hsame ▸ hi

theorem written_eq_handedIn (h : Receiving e) (hrest : e.tick = none) :
    e.outgoing.written = e.outgoing.handedIn := by
  obtain ⟨past, hrun⟩ := h.run
  have hsend : e.Sending fun _ _ => True := h.inOrder.sending
  have hordered := hrun.ordered within_of_silent
  obtain ⟨hline, -⟩ := hsend.all_sent (h.all_written hrest)
  have hnot : ∀ j ∈ e.outgoing.lineUp, j.kind ≠ .continuation := by
    intro j hj hk
    rcases h.jobs j hj with hk' | ⟨hk', -⟩ <;> cases hk.symm.trans hk'
  have hsame := hordered.filter_handedIn (p := fun j => j.kind ≠ .continuation) hsend.numbered
    fun a b ha _ hk => by simp [hk] at ha
  rw [List.filter_eq_self.mpr fun j hj => by
      simpa using hnot j ((Outgoing.handedIn_perm _).mem_iff.mp hj),
    List.filter_eq_self.mpr fun j hj => by simpa using hnot j hj] at hsame
  rw [hsame, hline]

theorem wire (h : Receiving e) (hrest : e.tick = none) :
    e.transport.wire.toList = Frame.rowBytes (Job.frames e.outgoing.handedIn) ∧
      ∀ f ∈ Job.frames e.outgoing.handedIn, f.Proper e.config.role := by
  have hsend : e.Sending Entire := h.inOrder.sending
  obtain ⟨-, f, hlaid, hwire⟩ := hsend.all_sent (h.all_written hrest)
  rw [← h.written_eq_handedIn hrest, hlaid.framed.bytes]
  exact ⟨hwire, hlaid.proper hlaid.entire⟩

/-- At rest the connection is closed if a close frame has been handed in. -/
theorem closed_iff (h : Receiving e) (hrest : e.tick = none) :
    e.life.closed = true ↔ ∃ j ∈ e.outgoing.handedIn, j.last = true := by
  rw [← h.written_eq_handedIn hrest]
  exact ⟨h.concluded, fun ⟨j, hj, hl⟩ => h.terse.ended j hj hl⟩

theorem not_readsOn (h : Receiving e) (hrest : e.tick = none) (a : Endpoint) :
    ¬ ReadsOn (e.listener []) a := by
  rintro ⟨d, hstep, -⟩
  have hreading : e.reader.reading.isSome = true := (readerStep_cases hstep).1
  have hopen := h.listens hreading
  have hsend : e.Sending fun _ _ => True := h.inOrder.sending
  have hease : AtEase e := ⟨hrest, hopen.2, h.quota⟩
  have hheld : e.outgoing.held = [] := (hease.cleared hsend h.whole).outstanding
  have hsame : (e.listener []).reader = e.reader := by
    simp [listener]
  have hwaits := (awaitsInput_of_held hrest hreading hheld).congr hsame rfl
  rw [hwaits.waits.readerStep_eq_none ⟨by rw [hsame]; exact hopen.1, rfl⟩] at hstep
  cases hstep

/-- What the reader has met and the writer has done at rest is what the reader goes by. -/
theorem alike (h : Receiving e) (h' : Receiving e') (hrest : e.tick = none)
    (hrest' : e'.tick = none) (hsame : e.listener [] = e'.listener []) : Alike e e' := by
  obtain ⟨past, hrun⟩ := h.run
  obtain ⟨past', hrun'⟩ := h'.run
  have hcallbacks : e.callbacks = e'.callbacks := congrArg (·.callbacks) hsame
  have hreads : e.reader.reads = e'.reader.reads := congrArg (·.reader.reads) hsame
  have hcontrols : e.reader.controls = e'.reader.controls := congrArg (·.reader.controls) hsame
  have herrors : e.life.errors = e'.life.errors := congrArg (·.life.errors) hsame
  have hjobs : e.outgoing.handedIn.map Job.unkeyed = e'.outgoing.handedIn.map Job.unkeyed := by
    have := congrArg (fun d => d.writer.completions.toList.map (·.job)) hsame
    simpa only [listener, List.map_map, Function.comp_def] using this
  have hclosed : e.life.closed = e'.life.closed := by
    have hlast : ∀ js : List Job, (∃ j ∈ js, j.last = true) ↔
        ∃ j ∈ js.map Job.unkeyed, j.last = true := by
      intro js
      constructor
      · rintro ⟨j, hj, hl⟩
        exact ⟨j.unkeyed, List.mem_map_of_mem hj, hl⟩
      · rintro ⟨i, hi, hl⟩
        obtain ⟨j, hj, rfl⟩ := List.mem_map.mp hi
        exact ⟨j, hj, hl⟩
    rw [Bool.eq_iff_iff, h.closed_iff hrest, h'.closed_iff hrest', hlast e.outgoing.handedIn,
      hlast e'.outgoing.handedIn, hjobs]
  have hhooks : e.life.hookRuns = e'.life.hookRuns := by
    rw [(hrun.accounted within_of_silent).hook, hclosed,
      (hrun'.accounted within_of_silent).hook]
  obtain ⟨hwire, hproper⟩ := h.wire hrest
  obtain ⟨hwire', hproper'⟩ := h'.wire hrest'
  refine ⟨hreads, ?_, ?_, hclosed, ?_, _, _, hwire, hwire', hproper, hproper', ?_⟩
  · rw [heardControls, heardControls, hcallbacks, hcontrols]
  · rw [heardErrors, heardErrors, hcallbacks, herrors]
  · rw [heardCloses, heardCloses, hcallbacks, hhooks]
  · rw [Job.frames_unkeyed, Job.frames_unkeyed, hjobs]

end Receiving

/-- The reader has one way to go. -/
theorem readsOn_unique : Relator.RightUnique ReadsOn := by
  rintro a b c ⟨d, hd, rfl⟩ ⟨d', hd', rfl⟩
  rw [Option.some.inj (hd.symm.trans hd')]

/-- Two ends whose readers start at the same place come to the same place. -/
theorem listener_eq_of_rest {a : Endpoint} (h : Receiving e) (h' : Receiving e')
    (hrest : e.tick = none) (hrest' : e'.tick = none)
    (hgo : Relation.ReflTransGen ReadsOn a (e.listener []))
    (hgo' : Relation.ReflTransGen ReadsOn a (e'.listener [])) :
    e.listener [] = e'.listener [] := by
  rcases Relation.ReflTransGen.total_of_right_unique readsOn_unique hgo hgo' with hon | hon
  · rcases hon.cases_head with hsame | ⟨b, hb, -⟩
    · exact hsame
    · exact absurd hb (h.not_readsOn hrest b)
  · rcases hon.cases_head with hsame | ⟨b, hb, -⟩
    · exact hsame.symm
    · exact absurd hb (h'.not_readsOn hrest' b)

/-- What comes of the peer's bytes does not depend on how they are cut into pieces, nor on the mask
keys and on how much of a write the stream takes at a time. -/
theorem alike_of_pieces {config : Config} {callbacks : Callbacks} {keys keys' : Nat → Key}
    {maxWrite maxWrite' : Option Nat} {pieces pieces' : List Bytes}
    (hsilent : callbacks.calls = []) (htimeout : config.closeTimeout.toNat ≠ 0)
    (hmax : maxWrite ≠ some 0) (hmax' : maxWrite' ≠ some 0)
    (hsame : pieces.flatten = pieces'.flatten) :
    ((receptive config callbacks keys maxWrite).feedAll pieces).tick = none ∧
      ((receptive config callbacks keys' maxWrite').feedAll pieces').tick = none ∧
      Alike ((receptive config callbacks keys maxWrite).feedAll pieces)
        ((receptive config callbacks keys' maxWrite').feedAll pieces') := by
  have hall : ∀ (keys : Nat → Key) (maxWrite : Option Nat) (pieces : List Bytes),
      maxWrite ≠ some 0 → Receiving ((receptive config callbacks keys maxWrite).feedAll pieces) ∧
        ((receptive config callbacks keys maxWrite).feedAll pieces).tick = none ∧
        Relation.ReflTransGen ReadsOn
          ((((Endpoint.fresh config callbacks (fun _ => .zero) (.fresh none none)).accept
            (.read .all)).1.giveTurn .reader).listener pieces.flatten)
          (((receptive config callbacks keys maxWrite).feedAll pieces).listener []) := by
    intro keys maxWrite pieces hmax
    obtain ⟨hstart, hgo⟩ := (Receiving.start keys hsilent htimeout hmax).settle pieces.flatten
    have hreceptive : receptive config callbacks keys maxWrite =
        (((Endpoint.fresh config callbacks keys (.fresh none maxWrite)).accept
          (.read .all)).1.giveTurn .reader).settle := by
      rw [receptive, start_silent hsilent]
      rfl
    rw [← hreceptive] at hstart hgo
    obtain ⟨hend, hrest, hon⟩ := hstart.feedAll (hreceptive ▸ tick_settle _) pieces
    exact ⟨hend, hrest, .trans hgo hon⟩
  obtain ⟨h, hrest, hgo⟩ := hall keys maxWrite pieces hmax
  obtain ⟨h', hrest', hgo'⟩ := hall keys' maxWrite' pieces' hmax'
  rw [← hsame] at hgo'
  exact ⟨hrest, hrest', h.alike h' hrest hrest' (listener_eq_of_rest h h' hrest hrest' hgo hgo')⟩

/-- A server that hears of everything is given a ping, a message and a frame with a reserved bit
set: at once, and in pieces of which none ends where a frame does. -/
theorem alike_of_pieces_cut :
    ∃ e e' : Endpoint,
      e = (receptive .server ⟨none, some [], true, true⟩ (fun _ => .zero) none).feedAll
        [[0x89, 0x81, 0, 0, 0, 0, 0x31, 0x81, 0x81, 0, 0, 0, 0, 0x61, 0xf0]] ∧
      e' = (receptive .server ⟨none, some [], true, true⟩ (fun _ => .zero) (some 3)).feedAll
        [[0x89], [0x81, 0, 0, 0, 0, 0x31, 0x81, 0x81, 0], [0, 0, 0], [0x61, 0xf0]] ∧
      (e.reader.reads.size, e.heardControls.size, e.heardErrors.length, e.heardCloses) =
        (2, 1, 1, 1) ∧ Alike e e' := by
  refine ⟨_, _, rfl, rfl, ?_,
    And.right (And.right (alike_of_pieces rfl (by decide) (by simp) (by simp) rfl))⟩
  obtain ⟨e, he, hseen⟩ := Option.map_eq_some_iff.mp
    (show ((Endpoint.fresh .server ⟨none, some [], true, true⟩ (fun _ => .zero)
      (.fresh none none)).handleAll 60 [.read .all,
        .feed [0x89, 0x81, 0, 0, 0, 0, 0x31, 0x81, 0x81, 0, 0, 0, 0, 0x61, 0xf0]]).map
      (fun e => (e.reader.reads.size, e.heardControls.size, e.heardErrors.length, e.heardCloses)) =
        some (2, 1, 1, 1) by decide +kernel)
  rw [← handle_of_all he] at hseen
  rw [receptive, start_silent rfl]
  exact hseen

end Endpoint

end WebSocket
