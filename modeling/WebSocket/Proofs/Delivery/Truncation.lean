import WebSocket.Proofs.Arrival
import WebSocket.Proofs.Delivery.Course
import WebSocket.Proofs.Delivery.Positions

/-! The stream ends behind some bytes of a row of frames. Reads give the parts that lie within these
bytes. Then they say that the connection has ended, if nothing is cut off, or fail. -/

namespace WebSocket

def WriteCall.IsClose : WriteCall → Prop
  | close .. => True
  | firstChunk .. | continuation _ | message .. | ping _ | pong _ => False

theorem WriteCall.IsClose.makes {c : WriteCall} (h : c.IsClose) {j : Job} (hj : c.Makes j) :
    j.kind = .close ∧ j.last = false := by
  cases c with
  | close => exact ⟨hj.1, hj.2.1⟩
  | firstChunk | continuation | message | ping | pong => exact h.elim

/-- The application reads, or calls for nothing but a close, or the stream ends. -/
def Event.Passive : Event → Prop
  | write c => c.IsClose
  | read _ | endInput => True
  | feed _ | failInput _ | allow _ | failWrites _ | takeNothing | failFlushes _ => False
  | advance _ | drop => False

def Job.IsPassive (j : Job) : Prop := j.kind = .pong ∨ j.kind = .close ∧ j.last = false

namespace Endpoint

open Reader

variable {config : Config} {fits : Nat → Nat → Prop} {fed : Bytes} {e e' : Endpoint}
  {past : List Endpoint} {ws : List Frame}

/-! Where the stream ends. -/

/-- The reader is between two frames with nothing more to read, and nothing is unfinished. -/
structure Done (e : Endpoint) : Prop where
  stage : e.reader.stage = .header .start
  bytes : e.reader.input.bytes = []
  whole : e.reader.sequencing.isFragmented = false
  closing : e.life.closing = false

theorem readerStep_of_short (hopen : e.Listens) (hfault : e.reader.input.fault = none)
    (hshort : e.reader.input.bytes.length < e.wanted) (hstep : e.readerStep = some e') :
    Done e ∧ e' = e.teardown.endRead .ended ∨
      ¬ Done e ∧ ∃ f : Fault, f.kind = .unexpectedEof ∧ e' = e.failRead f := by
  cases (readerStep_cases hstep).2 with
  | leave hover =>
    rw [hopen.1, hopen.2] at hover
    cases hover
  | fail f n _ ht _ hcut =>
    right
    rcases ht with ht | ht
    · obtain ⟨hbytes, hkind⟩ := Input.eof_of_failed hfault ht
      exact ⟨fun hdone => hbytes hdone.bytes, f, hkind, rfl⟩
    · obtain ⟨hstage, hkind⟩ := hcut ht
      exact ⟨fun hdone => hstage hdone.stage, f, hkind, rfl⟩
  | finish _ hs ht =>
    rw [endOfStream]
    split
    · next hfrag => exact .inr ⟨fun hdone => by simp [hdone.whole] at hfrag, _, rfl, rfl⟩
    · next hfrag =>
      split
      · next hcl => exact .inr ⟨fun hdone => by simp [hdone.closing] at hcl, _, rfl, rfl⟩
      · next hcl =>
        cases Input.yields ht with
        | ended _ _ _ hnil =>
          exact .inl ⟨⟨hs, hnil, eq_false_of_ne_true hfrag, eq_false_of_ne_true hcl⟩, rfl⟩
  | header p piece rest _ hs ht | data f piece rest _ hs ht | control c piece rest _ hs ht =>
    rw [wanted, hs] at hshort
    exact absurd (Input.le_of_take ht) (Nat.not_le.mpr hshort)
  | answer payload _ hs =>
    rw [wanted, hs] at hshort
    exact absurd hshort (Nat.not_lt_zero _)

/-- What is left of a row when the stream has ended behind some bytes of it: the parts within
them have been handed out, and then the result `x`. -/
structure CutOff (config : Config) (ws : List Frame) (fed : Bytes) (x : ReadResult)
    (e : Endpoint) : Prop where
  reads : ∃ n, e.reader.reads.toList =
    (Frame.partsWithin config.partSize fed.length ws).map .chunk ++ x :: List.replicate n .ended
  clean : Frame.CleanCut ws fed → e.life.closing = false → x = .ended ∧ e.life.errors = []
  cut : ¬ (Frame.CleanCut ws fed ∧ e.life.closing = false) →
    ∃ f : Fault, f.kind = .unexpectedEof ∧ x = .failed (.fault f) ∧ e.life.errors = [.fault f]
  closed : e.life.closed = true

/-! An application that calls for nothing but a close. -/

/-- All that is handed in are answers to pings and the close of this end's, whose timer is not
due. -/
structure Passive (e : Endpoint) : Prop where
  held : e.held = true
  calls : ∀ c ∈ e.callbacks.calls, c.IsClose
  time : e.Spares 0
  jobs : ∀ j ∈ e.outgoing.lineUp, j.IsPassive

namespace Passive

theorem react (h : Passive e) (htimeout : e.config.closeTimeout.toNat ≠ 0)
    (hr : Reaction fits e e') (hg : Gains Job.IsPassive e e') : Passive e' where
  held := hr.held.trans h.held
  calls := hr.callbacks ▸ h.calls
  time := h.time.rearm htimeout hr.clock hr.timer
  jobs := by
    intro j hj
    rcases hr.mem_lineUp hj with hj | hj
    · exact h.jobs j hj
    · rcases hg j hj with hj | hj
      · exact h.jobs j (Outgoing.mem_lineUp_of_held (Outgoing.mem_held_of_queue hj))
      · exact hj

theorem writer (h : Passive e) (hsend : e.Sending fits) (hstep : e.writerStep = some e') :
    Passive e' where
  held := (writerStep_settings hstep).2.2.2.trans h.held
  calls := (writerStep_settings hstep).2.1 ▸ h.calls
  time := h.time.keep (writerStep_time hstep)
  jobs := fun j hj => h.jobs j ((lineUp_writerStep hsend hstep).mem_iff.mp hj)

theorem closed_writerStep (h : Passive e) (hsend : e.Sending fits) (ht : e.transport.Taking)
    (hopen : e.life.closed = false) (hstep : e.writerStep = some e') : e'.life.closed = false := by
  rw [← Bool.not_eq_true]
  intro hc
  obtain ⟨job, hs, hl, -⟩ := last_of_closed ht h.held hopen hstep hc
  have hjob : job ∈ e.outgoing.lineUp := by
    rw [Outgoing.lineUp_sending hs]
    simp
  rcases h.jobs job hjob with hk | ⟨-, hlast⟩
  · exact absurd (hk.symm.trans (hsend.kind_of_last hs hl)) (by simp)
  · exact absurd (hlast.symm.trans hl) Bool.false_ne_true

theorem gains (h : Passive e) (hin : e.InOrder fits) (hstep : e.readerStep = some e')
    (hfin : e'.reader.finished = false) : Gains Job.IsPassive e e' := by
  have hkind : Gains (fun j => j.kind = .pong ∨ j.kind = .close) e e' :=
    readerStep_gains_all hin (fun c hc _ _ _ _ _ hj => .inr ((h.calls c hc).makes hj).1)
      (fun _ hk _ => .inr hk) (fun _ => .inl) hstep
  have hplain : Plain e e' := by
    rcases readerStep_staysOn hin.sending hin.stage hin.calls hstep with hend | ⟨-, hplain, -⟩
    · exact absurd (hfin.symm.trans hend) Bool.false_ne_true
    · exact hplain
  intro j hj
  rcases hkind j hj with hold | hk
  · exact .inl hold
  · rcases hplain j hj with hold | hl
    · exact .inl hold
    · exact .inr (hk.imp_right fun hk => ⟨hk, hl⟩)

theorem event (h : Passive e) (hsend : e.Sending fun _ _ => True)
    (htimeout : e.config.closeTimeout.toNat ≠ 0) {ev : Event} (hev : ev.Passive) :
    Passive (e.accept ev).1 ∧ (e.accept ev).1.life.closed = e.life.closed := by
  cases ev with
  | write c =>
    rw [fst_accept_write]
    split
    · have hentered := write_entered hsend c.within_any
      exact ⟨h.react htimeout hentered.acts.reaction
        (hentered.gains fun _ _ _ _ hj => .inr (hev.makes hj)), hentered.closed⟩
    · exact ⟨h, rfl⟩
  | read m =>
    unfold accept
    dsimp only
    split
    · exact ⟨⟨h.held, h.calls, h.time, h.jobs⟩, rfl⟩
    · exact ⟨h, rfl⟩
  | endInput => exact ⟨⟨h.held, h.calls, h.time, h.jobs⟩, rfl⟩
  | feed | failInput | allow | failWrites | takeNothing | failFlushes | advance | drop =>
    exact hev.elim

theorem opened {callbacks : Callbacks} (hcalls : ∀ c ∈ callbacks.calls, c.IsClose)
    (htimeout : config.closeTimeout.toNat ≠ 0) (keys : Nat → Key) (quota maxWrite : Option Nat) :
    Passive (opened config callbacks keys quota maxWrite) ∧
      (opened config callbacks keys quota maxWrite).life.closed = false := by
  have hsend : (fresh config callbacks keys (.fresh quota maxWrite)).Sending fun _ _ => True :=
    initial_sending config callbacks keys quota maxWrite
  have hany : ∀ c ∈ callbacks.onConnect.getD [], c.Within fun _ _ => True :=
    fun c _ => c.within_any
  have hfresh : Passive (fresh config callbacks keys (.fresh quota maxWrite)) :=
    ⟨rfl, hcalls, ⟨Nat.zero_lt_succ _, nofun⟩, List.forall_mem_nil _⟩
  refine ⟨hfresh.react htimeout (writeAll_acts hsend _ hany).reaction
    (writeAll_gains hsend _ hany fun c hc _ _ _ _ _ hj => .inr ?_), (writeAll_plain hsend _ hany).2⟩
  exact (hcalls c (List.mem_append_left _ hc)).makes hj

end Passive

/-! The reader. -/

/-- How far an end has come with a row of frames of which the front has been fed. -/
inductive Receives (config : Config) (ws : List Frame) (fed : Bytes) (e : Endpoint) : Prop where
  | going (fs : List Frame) (hgo : e.reader.Amid ⟨config.role, config.maxFrameSize⟩ fed fs)
      (hh : e.reader.Handed config.partSize fs) (hfault : e.reader.input.fault = none)
      (hopen : e.life.closed = false)
  | stopped (x : ReadResult) (h : CutOff config ws fed x e) (hended : e.reader.input.ended = true)

theorem CutOff.step {ok : Event → Prop} {x : ReadResult} (h : CutOff config ws fed x e)
    (hs : Step ok e e') (hin : e.InOrder fits) (hok : ∀ c, ok (.write c) → c.Within fits)
    (hreads : e'.reader.reads = e.reader.reads ∨
      e'.reader.reads = e.reader.reads.push .ended) : CutOff config ws fed x e' := by
  obtain ⟨n, hn⟩ := h.reads
  have hclosing := hs.closing_of_closed hin hok h.closed
  have herrors := hs.errors_of_closed hin hok h.closed
  refine ⟨?_, by rw [hclosing, herrors]; exact h.clean, by rw [hclosing, herrors]; exact h.cut,
    hs.closed hin hok h.closed⟩
  rcases hreads with hreads | hreads
  · exact ⟨n, hreads ▸ hn⟩
  · refine ⟨n + 1, ?_⟩
    rw [hreads, Array.toList_push, hn, List.replicate_succ', List.append_assoc]
    rfl

theorem Receives.cut {fs : List Frame} (hgo : e.reader.Amid e.rules fed fs)
    (hh : e.reader.Handed e.config.partSize fs) (hfault : e.reader.input.fault = none)
    (hopen : e.life.closed = false) (hw : Frame.LawfulRow e.config ws)
    (hfed : fed <+: Frame.rowBytes ws) (hacc : e.Accounted) (hacc' : e'.Accounted)
    (hshort : e.reader.input.bytes.length < e.wanted) (hstep : e.readerStep = some e') :
    Receives e.config ws fed e' ∧ Gains Job.IsPassive e e' := by
  have hlistens : e.Listens := ⟨hgo.unfinished, hopen⟩
  have hended : e'.reader.input.ended = true := by
    obtain ⟨bytes, hinput⟩ := input_readerStep hstep
    rw [hinput, ← Bool.not_eq_false]
    intro hmore
    exact absurd (wanted_le_of_readerStep hfault hmore hlistens hstep) (Nat.not_le.mpr hshort)
  -- all parts within the bytes fed have been handed out, and the reader knows if the cut is clean
  have hparts := parts_of_short hh hgo.toPlaced hw.offered hw.orderly.whole hfed hshort
  have hdone : Done e ↔ Frame.CleanCut ws fed ∧ e.life.closing = false := by
    rw [cleanCut_iff_of_short hgo.toPlaced hw.offered hw.orderly.whole hfed hshort]
    exact ⟨fun h => ⟨⟨⟨h.stage, h.bytes⟩, h.whole⟩, h.closing⟩,
      fun h => ⟨h.1.1.1, h.1.1.2, h.1.2, h.2⟩⟩
  have hnone : e.life.errors = [] := by
    refine hacc.errors_of_sound (fun err hr => ?_) fun j f hj => ?_
    · obtain ⟨c, hc⟩ := hgo.chunks _ hr
      cases hc
    · exact absurd (hopen.symm.trans (hacc.failed j f hj)) Bool.false_ne_true
  rcases readerStep_of_short hlistens hfault hshort hstep with
    ⟨hclean, rfl⟩ | ⟨hcut, f, hkind, rfl⟩
  · have hclosing : (e.teardown.endRead .ended).life.closing = e.life.closing :=
      congrArg Outgoing.closing (outgoing_teardown e)
    refine ⟨.stopped .ended ⟨⟨0, ?_⟩, fun _ _ => ⟨rfl, ?_⟩, fun hnot => ?_, closed_teardown e⟩
      hended, .of_same (by rw [endRead, outbox_teardown])⟩
    · rw [endRead, reader_teardown, Array.toList_push, hparts, List.replicate_zero]
    · exact (Calm.teardown e).errors.trans hnone
    · rw [hclosing] at hnot
      exact absurd (hdone.mp hclean) hnot
  · have hout : (e.failRead f).outgoing = { e.outgoing with closed := true } := by
      rw [← outgoing_report e (.fault f), ← outgoing_teardown]
      rfl
    have hreads : (e.failRead f).reader.reads = e.reader.reads.push (.failed (.fault f)) := by
      rw [reader_failRead]
      rfl
    have hclosing : (e.failRead f).life.closing = e.life.closing :=
      congrArg Outgoing.closing hout
    refine ⟨.stopped (.failed (.fault f)) ⟨⟨0, ?_⟩, fun hc hcl => ?_, fun _ => ⟨f, hkind, rfl, ?_⟩,
      congrArg Outgoing.closed hout⟩ hended, .of_same (congrArg (·.outbox.queue) hout)⟩
    · rw [hreads, Array.toList_push, hparts, List.replicate_zero]
    · rw [hclosing] at hcl
      exact absurd (hdone.mpr ⟨hc, hcl⟩) hcut
    · refine hacc'.read _ ?_
      rw [hreads]
      exact Array.mem_push_self

theorem Receives.readerStep (h : Receives config ws fed e) (hp : Passive e) (hc : e.config = config)
    (hin : e.InOrder fits) (hw : Frame.LawfulRow config ws) (hfed : fed <+: Frame.rowBytes ws)
    (hacc : e.Accounted) (hacc' : e'.Accounted) (hstep : e.readerStep = some e') :
    Receives config ws fed e' ∧ Gains Job.IsPassive e e' := by
  subst hc
  cases h with
  | stopped x h hended =>
    have hover := readerStep_of_over (by simp [h.closed]) hstep
    have hs : Step (fun _ => False) e e' := .reader hstep
    refine ⟨.stopped x (h.step hs hin (fun _ hno => hno.elim) (.inr ?_)) ?_, ?_⟩
    · rw [hover]
      rfl
    · rw [hover]
      exact hended
    · rw [hover]
      exact .of_same rfl
  | going fs hgo hh hfault hopen =>
    rcases Nat.lt_or_ge e.reader.input.bytes.length e.wanted with hshort | hmet
    · exact cut hgo hh hfault hopen hw hfed hacc hacc' hshort hstep
    · rcases readerStep_stepped hgo hmet hw.offered hfed hw.orderly.kinds hstep with
        ⟨hclosed, -⟩ | hstepped
      · exact absurd (hopen.symm.trans hclosed) Bool.false_ne_true
      cases hstepped with
      | going gs hg ha =>
        have hstays := readerStep_staysOn hin.sending hin.stage hin.calls hstep
        have hopen' : e'.life.closed = false := by
          rcases hstays with hend | ⟨-, -, hclosed⟩
          · exact absurd (hg.unfinished.symm.trans hend) Bool.false_ne_true
          · exact hclosed.trans hopen
        obtain ⟨bytes, hinput⟩ := input_readerStep hstep
        exact ⟨.going gs hg (hh.adds hgo.toKept (Config.partSize_pos _) ha)
          (by rw [hinput]; exact hfault) hopen', hp.gains hin hstep hg.unfinished⟩
      | refused hns => exact absurd hw.text hns
      | closed f hf hop => exact absurd hop (hw.frames f hf).stays

theorem reader_of_passive {ev : Event} (hev : ev.Passive) :
    ∃ m ended, (e.reader.input.ended = true → ended = true) ∧
      (e.accept ev).1.reader =
        { e.reader with reading := m, input := { e.reader.input with ended } } := by
  cases ev with
  | endInput => exact ⟨_, true, fun _ => rfl, rfl⟩
  | write c =>
    obtain ⟨m, hm⟩ := reader_accept (d := e) (show (Event.write c).isIncoming = false from rfl)
    exact ⟨m, e.reader.input.ended, id, hm⟩
  | read r =>
    obtain ⟨m, hm⟩ := reader_accept (d := e) (show (Event.read r).isIncoming = false from rfl)
    exact ⟨m, e.reader.input.ended, id, hm⟩
  | feed | failInput | allow | failWrites | takeNothing | failFlushes | advance | drop =>
    exact hev.elim

theorem Receives.event (h : Receives config ws fed e) (hin : e.InOrder fun _ _ => True) {ev : Event}
    (hev : ev.Passive) (hclosed : (e.accept ev).1.life.closed = e.life.closed) :
    Receives config ws fed (e.accept ev).1 := by
  obtain ⟨m, ended, hended, hreader⟩ := reader_of_passive (e := e) hev
  cases h with
  | going fs hgo hh hfault hopen =>
    obtain ⟨b, hplace, hb⟩ := hgo.place
    refine .going fs ?_ ?_ ?_ (hclosed.trans hopen)
    · rw [hreader]
      exact { hgo with place := ⟨b, hplace.congr rfl rfl rfl, hb⟩ }
    · rw [hreader]
      exact ⟨hh.reads, hh.controls⟩
    · rw [hreader]
      exact hfault
  | stopped x h hend =>
    have hs : Step Event.Passive e (e.accept ev).1 := .event ev hev
    refine .stopped x (h.step hs hin (fun c _ => c.within_any) (.inl (reads_accept e ev).1)) ?_
    rw [hreader]
    exact hended hend

theorem Receives.writer (h : Receives config ws fed e) (hin : e.InOrder fits)
    (hopen : e.life.closed = false → e'.life.closed = false) (hstep : e.writerStep = some e') :
    Receives config ws fed e' := by
  have hreader : e'.reader = e.reader := (sendingWork_writerStep hstep).1
  cases h with
  | going fs hgo hh hfault hc =>
    rw [← hreader] at hgo hh hfault
    exact .going fs hgo hh hfault (hopen hc)
  | stopped x h hended =>
    have hs : Step (fun _ => False) e e' := .writer hstep
    rw [← hreader] at hended
    exact .stopped x (h.step hs hin (fun _ hno => hno.elim) (.inl (by rw [hreader]))) hended

theorem Receives.feed (h : Receives config ws fed e) (b : Bytes)
    (hmore : e.reader.input.ended = false) :
    Receives config ws (fed ++ b) (e.accept (.feed b)).1 := by
  cases h with
  | going fs hgo hh hfault hopen =>
    obtain ⟨b', hplace, rfl⟩ := hgo.place
    exact .going fs { hgo with place := ⟨b', hplace.congr rfl rfl rfl, List.append_assoc _ _ _⟩ }
      ⟨hh.reads, hh.controls⟩ hfault hopen
  | stopped x h hended => exact absurd (hmore.symm.trans hended) Bool.false_ne_true

/-- An end whose application is passive receives the row, throughout. -/
theorem Course.receives (h : Course config Event.Passive fed (e :: past))
    (ht : ∀ d ∈ e :: past, d.transport.Taking) (htimeout : config.closeTimeout.toNat ≠ 0)
    (hw : Frame.LawfulRow config ws) (hfed : fed <+: Frame.rowBytes ws) :
    Passive e ∧ Receives config ws fed e := by
  have hany : ∀ c : WriteCall, (Event.Passive (.write c) ∨ ∃ b, Event.write c = .feed b) →
      c.Within fun _ _ => True := fun c _ => c.within_any
  refine h.always (Q := fun fed d => Passive d ∧ Receives config ws fed d) ht hfed ?_ ?_ ?_
  · intro callbacks keys quota maxWrite hcalls
    obtain ⟨hp, hopen⟩ := Passive.opened hcalls htimeout keys quota maxWrite
    have hgoing (rules : HeaderRules) := opened_going rules config callbacks keys quota maxWrite
    refine ⟨hp, .going [] (hgoing _).toAmid ?_ (hgoing ⟨config.role, 0⟩).fault hopen⟩
    rw [opened, reader_writeAll]
    exact ⟨⟨[], rfl, rfl⟩, rfl⟩
  · rintro fed c c' earlier h hpast - hfed hstep ⟨hp, hr⟩
    have hin := h.inOrder
    have hc := h.config_eq
    have htimeout' : c.config.closeTimeout.toNat ≠ 0 := hc ▸ htimeout
    cases hstep with
    | event ev hev =>
      obtain ⟨hp', hclosed⟩ := hp.event hin.sending htimeout' hev.1
      exact ⟨hp', hr.event hin hev.1 hclosed⟩
    | reader hstep =>
      have hrun := h.run
      have hacc' := (hrun.step (.reader hstep)).accounted hany
      obtain ⟨hr', hg⟩ := hr.readerStep hp hc hin hw hfed (hrun.accounted hany) hacc' hstep
      have hacts := readerStep_acts hin.sending hin.stage hin.calls hstep
      exact ⟨hp.react htimeout' hacts.reaction hg, hr'⟩
    | writer hstep =>
      have htaking := hpast c List.mem_cons_self
      exact ⟨hp.writer hin.sending hstep, hr.writer hin
        (fun hopen => hp.closed_writerStep hin.sending htaking hopen hstep) hstep⟩
    | timer hstep =>
      rw [hp.time.early.timerStep] at hstep
      cases hstep
    | turn t =>
      refine ⟨⟨hp.held, hp.calls, hp.time, hp.jobs⟩, ?_⟩
      cases hr with
      | going fs hgo hh hfault hopen => exact .going fs hgo hh hfault hopen
      | stopped x h hended => exact .stopped x ⟨h.reads, h.clean, h.cut, h.closed⟩ hended
  · rintro fed c b hmore ⟨hp, hr⟩
    exact ⟨⟨hp.held, hp.calls, hp.time, hp.jobs⟩, hr.feed b hmore⟩

theorem Passive.cutOff_at_rest (hp : Passive e) (hr : Receives config ws fed e)
    (hin : e.InOrder fits) (hterse : e.outgoing.Terse) (ht : e.transport.Taking)
    (hended : e.reader.input.ended = true) (hrest : e.tick = none)
    (hreading : e.reader.finished = false → e.reader.reading.isSome = true) :
    ∃ x, CutOff config ws fed x e := by
  cases hr with
  | stopped x h => exact ⟨x, h⟩
  | going fs hgo hh hfault hopen =>
    have hdone : e.outbox.frame.remaining = 0 := by
      refine hterse.whole fun j hj => ?_
      rcases hp.jobs j hj with hk | ⟨hk, -⟩ <;> rw [hk] <;> rfl
    have hease : AtEase e := ⟨hrest, hopen, ht.quota⟩
    have hpong := pongOutstanding_of_held (hease.cleared hin.sending hdone).outstanding
    cases (waits_of_readerStep (waits_of_tick hrest).1 (hreading hgo.unfinished)).2 with
    | header _ _ hwait | data _ _ hwait | control _ _ hwait =>
      cases Input.yields hwait with
      | waits _ _ hmore => exact absurd (hmore.symm.trans hended) Bool.false_ne_true
    | answer _ _ hout => exact absurd (hpong.symm.trans hout) Bool.false_ne_true

/-- What becomes of an end whose stream ends behind some bytes of a row of frames. -/
structure Truncated (config : Config) (ws : List Frame) (fed : Bytes) (e : Endpoint) : Prop where
  result : ∃ x, CutOff config ws fed x e
  /-- The end of the stream is not answered with a close frame: all close frames come of calls. -/
  closes : ∀ j ∈ e.outgoing.lineUp, j.kind = .close → j.last = false ∧ e.life.closing = true
  once : e.outgoing.lineUp.Pairwise fun j i => j.kind = .close → i.kind ≠ .close

/-- Wherever a stream ends, its end is told from a truncation. -/
theorem truncation_classified_of_course (h : Course config Event.Passive fed (e :: past))
    (ht : ∀ d ∈ e :: past, d.transport.Taking) (htimeout : config.closeTimeout.toNat ≠ 0)
    (hw : Frame.LawfulRow config ws) (hfed : fed <+: Frame.rowBytes ws)
    (hended : e.reader.input.ended = true) (hrest : e.tick = none)
    (hreading : e.reader.finished = false → e.reader.reading.isSome = true) :
    Truncated config ws fed e := by
  have hany : ∀ c : WriteCall, (Event.Passive (.write c) ∨ ∃ b, Event.write c = .feed b) →
      c.Within fun _ _ => True := fun c _ => c.within_any
  obtain ⟨hp, hr⟩ := h.receives ht htimeout hw hfed
  have hsealed := h.run.sealed hany
  have hlast : ∀ j ∈ e.outgoing.lineUp, j.kind = .close → j.last = false := by
    intro j hj hk
    rcases hp.jobs j hj with hpong | ⟨-, hl⟩
    · rw [hk] at hpong
      cases hpong
    · exact hl
  refine ⟨hp.cutOff_at_rest hr h.inOrder (h.run.terse hany) (ht e List.mem_cons_self) hended hrest
    hreading, fun j hj hk => ⟨hlast j hj hk, hsealed.announced j hj hk (hlast j hj hk)⟩, ?_⟩
  refine hsealed.behind.imp_of_mem fun {j i} hj _ hbehind hk hclose => ?_
  rw [hbehind hk (hlast j hj hk)] at hclose
  cases hclose

/-- A server reads byte by byte. Behind a ping the stream ends inside the payload of a text
frame. -/
theorem truncation_classified_of_course_inside_payload :
    ∃ (ws : List Frame) (e : Endpoint) (past : List Endpoint),
      Course { Config.server with readChunkSize := 0 } Event.Passive
        ((Frame.rowBytes ws).take 13) (e :: past) ∧
      (∀ d ∈ e :: past, d.transport.Taking) ∧
      Frame.LawfulRow { Config.server with readChunkSize := 0 } ws ∧
      ws.map Frame.payload = [[], [0x61, 0x62]] ∧
      e.reader.input.ended = true ∧ e.tick = none ∧ e.reader.finished = true ∧
      e.reader.reads.toList = [.chunk ⟨[0x61], false, true, false⟩,
        .failed (.fault (.unexpectedEof "stream ended inside a frame payload"))] ∧
      Truncated { Config.server with readChunkSize := 0 } ws ((Frame.rowBytes ws).take 13) e := by
  let key : Key := ⟨1, 2, 3, 4⟩
  let ws : List Frame := [⟨.plain true .ping 0 (some key), []⟩,
    ⟨.plain true .text 2 (some key), [0x61, 0x62]⟩]
  have hw : Frame.LawfulRow { Config.server with readChunkSize := 0 } ws := by
    refine ⟨?_, ⟨.initial, rfl⟩, ?_⟩
    · intro w hm
      simp only [ws, List.mem_cons, List.not_mem_nil, or_false] at hm
      rcases hm with rfl | rfl <;>
        exact ⟨by decide, by decide, by decide, by decide, by decide,
          fun k => by cases k <;> decide, by decide⟩
    · have h1 : Mark.TextSound ([] ++ [.byte 0x61 false]) :=
        .concat .nil nofun ⟨[], ⟨['a'], by decide⟩⟩
      have h2 : Mark.TextSound ([] ++ [.byte 0x61 false] ++ [.byte 0x62 false]) :=
        h1.concat nofun ⟨[], ⟨['a', 'b'], by decide⟩⟩
      exact h2.concat (m := .frameEnd true false) (fun _ _ => ⟨['a', 'b'], by decide⟩)
        ⟨[], ⟨[], rfl⟩⟩
  have h0 : Course { Config.server with readChunkSize := 0 } Event.Passive []
      [opened _ .none (fun _ => .zero) none (some 3)] :=
    .start _ _ _ _ fun c hc => absurd hc List.not_mem_nil
  obtain ⟨e, past, h, ht, hy⟩ := (h0.feed ((Frame.rowBytes ws).take 13) rfl).driven
    (P := fun d => d.transport.Taking) (n := 60)
    (f := fun e => e.reader.input.ended && e.tick.isNone && e.reader.finished &&
      e.reader.reads.toList == [.chunk ⟨[0x61], false, true, false⟩,
        .failed (.fault (.unexpectedEof "stream ended inside a frame payload"))])
    (y := true) [.read .all, .endInput] (fun _ _ hd => hd) (by simp [Event.Passive])
    (by simp) (by decide +kernel)
  simp only [Bool.and_eq_true, beq_iff_eq] at hy
  obtain ⟨⟨⟨hended, hrest⟩, hfin⟩, hreads⟩ := hy
  have hfed : [] ++ (Frame.rowBytes ws).take 13 ++ [Event.read .all, .endInput].flatMap fedBy =
      (Frame.rowBytes ws).take 13 := by decide
  rw [hfed] at h
  have hrest : e.tick = none := Option.isNone_iff_eq_none.mp hrest
  exact ⟨ws, e, past, h, ht, hw, rfl, hended, hrest, hfin, hreads,
    truncation_classified_of_course h ht (by decide) hw (List.take_prefix _ _) hended hrest
      fun hgo => absurd (hgo.symm.trans hfin) (by simp)⟩

end Endpoint

end WebSocket
