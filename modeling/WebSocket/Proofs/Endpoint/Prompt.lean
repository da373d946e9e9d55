import WebSocket.Proofs.Endpoint.Driven

/-! An end on a stream that takes every write at once, with data frames handed in whole. A job that
has been taken up is written before anyone else goes on. -/

namespace WebSocket

/-- The stream takes every write at once. -/
structure Transport.Willing (t : Transport) : Prop where
  quota : t.quota = none
  maxWrite : t.maxWrite = none
  writeFault : t.writeFault = none
  takes : t.takesNothing = false
  flushFault : t.flushFault = none

instance (t : Transport) : Decidable t.Willing :=
  decidable_of_iff
    (t.quota = none ∧ t.maxWrite = none ∧ t.writeFault = none ∧ t.takesNothing = false ∧
      t.flushFault = none)
    ⟨fun ⟨h1, h2, h3, h4, h5⟩ => ⟨h1, h2, h3, h4, h5⟩,
        fun ⟨h1, h2, h3, h4, h5⟩ => ⟨h1, h2, h3, h4, h5⟩⟩

theorem Transport.Willing.write {t : Transport} (h : t.Willing) {b : Bytes} (hb : b ≠ []) :
    t.write b = .took [] { t with wire := t.wire ++ b.toArray } := by
  have hpart : t.part b = b := by
    unfold part
    rw [h.quota, h.maxWrite]
  rw [Transport.write, h.writeFault]
  simp only [h.takes, h.quota, hpart, Bool.false_eq_true, if_false, reduceCtorEq]
  cases b with
  | nil => exact absurd rfl hb
  | cons x xs => simp

/-- The stream takes some of what it is given, and all that it takes goes through. -/
structure Transport.Taking (t : Transport) : Prop where
  quota : t.quota ≠ some 0
  maxWrite : t.maxWrite ≠ some 0
  writeFault : t.writeFault = none
  takes : t.takesNothing = false
  flushFault : t.flushFault = none

instance (t : Transport) : Decidable t.Taking :=
  decidable_of_iff
    (t.quota ≠ some 0 ∧ t.maxWrite ≠ some 0 ∧ t.writeFault = none ∧ t.takesNothing = false ∧
      t.flushFault = none)
    ⟨fun ⟨h1, h2, h3, h4, h5⟩ => ⟨h1, h2, h3, h4, h5⟩,
      fun ⟨h1, h2, h3, h4, h5⟩ => ⟨h1, h2, h3, h4, h5⟩⟩

theorem Transport.Taking.write {t : Transport} (h : t.Taking) {b : Bytes} (hb : b ≠ [])
    (f : Fault) : t.write b ≠ .failed f := by
  obtain ⟨x, xs, rfl⟩ := List.exists_cons_of_ne_nil hb
  have hpart : t.part (x :: xs) ≠ [] := by
    have hquota := h.quota
    have hmax := h.maxWrite
    unfold part
    generalize t.quota = quota at *
    generalize t.maxWrite = maxWrite at *
    rcases quota with _ | _ | q <;> rcases maxWrite with _ | _ | m <;>
      simp_all [Nat.succ_min_succ]
  unfold Transport.write
  rw [h.writeFault]
  dsimp only
  rw [if_neg (by simp [h.takes]), if_neg h.quota]
  split
  · next hnone => exact absurd hnone hpart
  · simp

/-- On what terms the stream takes something: how much of it at a time, with what faults, and
whether it will ever wait. -/
def Transport.terms (t : Transport) : Option Nat × Option Fault × Bool × Option Fault × Bool :=
  (t.maxWrite, t.writeFault, t.takesNothing, t.flushFault, t.quota.isSome)

theorem Transport.willing_iff {t : Transport} :
    t.Willing ↔ t.terms = (none, none, false, none, false) := by
  constructor
  · intro h
    simp [terms, h.quota, h.maxWrite, h.writeFault, h.takes, h.flushFault]
  · intro h
    simp only [terms, Prod.mk.injEq, Option.isSome_eq_false_iff, Option.isNone_iff_eq_none] at h
    obtain ⟨hmax, hfault, htakes, hflush, hquota⟩ := h
    exact ⟨hquota, hmax, hfault, htakes, hflush⟩

theorem Transport.terms_of_write {t t' : Transport} {b rest : Bytes}
    (h : t.write b = .took rest t') : t'.terms = t.terms := by
  unfold write at h
  split at h
  · simp at h
  · split at h
    · simp at h
    · split at h
      · simp at h
      · split at h
        · simp at h
        · cases h
          simp [terms]

/-- A data frame comes with its first job. -/
def Entire (announced given : Nat) : Prop := announced = given

variable {masked : Bool}

theorem Follows.entire {f g : OutgoingFrame} {j : Job} (hj : Follows masked Entire f j g)
    (hf : f.remaining = 0) : g.remaining = 0 := by
  cases hj with
  | first n fin op len key data _ _ _ _ hfits =>
    show len.toNat - data.length = 0
    rw [show len.toNat = data.length from hfits, Nat.sub_self]
  | further n data hopen => exact absurd hf hopen
  | control => exact hf

theorem Laid.entire {js : List Job} {f : OutgoingFrame} (h : Laid masked Entire js f) :
    f.remaining = 0 := by
  induction h with
  | nil => rfl
  | snoc _ hj _ _ ih => exact hj.entire ih

namespace Outgoing

variable {fits : Nat → Nat → Prop} {o o' : Outgoing}

/-- What becomes of the sending side when the writer goes on and no write fails. -/
inductive Brisk (o : Outgoing) : Outgoing → Prop where
  | take (j : Job) (rest : List Job) (hopen : o.closed = false) (hs : o.writer.state = .idle)
      (hc : o.writer.closeSent = false) (hq : o.outbox.queue = j :: rest) :
      Brisk o
        { o with
          writer := { o.writer with state := .sending j j.bytes }
          outbox := { o.outbox with queue := rest } }
  | drop (j : Job) (rest : List Job) (hopen : o.closed = false) (hs : o.writer.state = .idle)
      (hc : o.writer.closeSent = true) (hq : o.outbox.queue = j :: rest) :
      Brisk o
        { o.settle [⟨j, .aborted⟩] with
          outbox := { (o.settle [⟨j, .aborted⟩]).outbox with queue := rest } }
  | put (j : Job) (u : Bytes) (hopen : o.closed = false) (hs : o.writer.state = .sending j u) :
      Brisk o { o.setState (.sending j []) with wire := o.wire ++ u.toArray }
  | write (j : Job) (hopen : o.closed = false) (hs : o.writer.state = .sending j [])
      (hl : j.last = false) (hk : j.kind ≠ .close) : Brisk o (o.complete j)
  | writeClose (j : Job) (hopen : o.closed = false) (hs : o.writer.state = .sending j [])
      (hl : j.last = false) (hk : j.kind = .close) :
      Brisk o
        { (o.complete j).abort with
          writer := { (o.complete j).abort.writer with closeSent := true } }
  | writeLast (j : Job) (hopen : o.closed = false) (hs : o.writer.state = .sending j [])
      (hl : j.last = true) : Brisk o (o.complete j).stop
  | stop (hs : o.writer.state = .idle) (hwhy : o.closed = true ∨ o.outbox.queue = []) :
      Brisk o o.stop

theorem Brisk.deferred_eq (h : Brisk o o') (hd : o.writer.deferred = []) :
    o'.writer.deferred = [] := by
  cases h with
  | writeClose | writeLast | stop => rfl
  | _ => exact hd

theorem Sound.wire_of_sent (h : o.Sound masked fits) {j : Job}
    (hs : o.writer.state = .sending j []) (hw : o'.wire = o.wire)
    (hwr : o'.written = o.written ++ [j]) : o'.wire.toList = o'.written.flatMap Job.bytes := by
  obtain ⟨part, tail, f, hb, -, hp⟩ := h.wired
  obtain ⟨-, ht⟩ := hp.of_sending hs
  rw [List.append_nil] at ht
  rw [hw, hb, hwr, ht]
  simp

theorem Brisk.wire_eq (h : Brisk o o') (hs : o.Sound masked fits) (hi : o'.inHand = [])
    (hw : o.inHand = [] → o.wire.toList = o.written.flatMap Job.bytes) :
    o'.wire.toList = o'.written.flatMap Job.bytes := by
  cases h with
  | take j rest hopen hidle => cases hi
  | put j u hopen hsend => cases hi
  | drop j rest hopen hidle =>
    have hwr := written_settle_aborted o j
    exact (hw (inHand_idle hidle)).trans (by rw [← hwr]; rfl)
  | write j hopen hsend => exact hs.wire_of_sent hsend rfl (written_complete o j)
  | writeClose j hopen hsend =>
    exact hs.wire_of_sent hsend rfl (written_abort_complete o j)
  | writeLast j hopen hsend =>
    exact hs.wire_of_sent hsend rfl (written_abort_complete o j)
  | stop hidle =>
    rw [wire_stop, written_stop]
    exact hw (inHand_idle hidle)

theorem Brisk.completions_eq (h : Brisk o o') : ∃ cs : List Completion,
    o'.completions = o.completions ++ cs ∧ ∀ c ∈ cs, ∀ f, c.outcome ≠ .failed f := by
  cases h with
  | take | put => exact ⟨[], (List.append_nil _).symm, List.forall_mem_nil _⟩
  | drop j => exact ⟨_, completions_settle o _, by simp⟩
  | write j => exact ⟨_, completions_complete o j, by simp⟩
  | writeClose j => exact ⟨_, completions_abort_complete o j, by simp⟩
  | writeLast j => exact ⟨_, completions_abort_complete o j, by simp⟩
  | stop => exact ⟨_, completions_stop o, by simp⟩

theorem Brisk.of_closed (h : Brisk o o') (hshut : o.closed = true) : o' = o.stop := by
  cases h with
  | take j rest hopen | drop j rest hopen =>
    exact absurd (hopen.symm.trans hshut) Bool.false_ne_true
  | put j u hopen | write j hopen | writeClose j hopen | writeLast j hopen =>
    exact absurd (hopen.symm.trans hshut) Bool.false_ne_true
  | stop => rfl

end Outgoing

namespace Endpoint

variable {fits : Nat → Nat → Prop} {e e' : Endpoint}

/-- The writer takes up a job, writes it, or ends. -/
theorem writerStep_brisk (hsend : e.Sending Entire) (hw : e.transport.Willing)
    (hd : e.writer.deferred = [])
    (hturn : ∀ j u, e.writer.state = .sending j u → e.life.closed = false)
    (h : e.writerStep = some e') : Outgoing.Brisk e.outgoing e'.outgoing := by
  cases writerStep_cases h with
  | cut job u hs hshut => exact absurd ((hturn job u hs).symm.trans hshut) Bool.false_ne_true
  | fail job u f hs hopen hf =>
    rcases hf with hf | ⟨hne, hf⟩
    · exact absurd (hw.flushFault.symm.trans hf) (by simp)
    · exact absurd ((hw.write hne).symm.trans hf) (by simp)
  | complete job hs hopen =>
    rw [outgoing_complete]
    split
    · next hl => exact .writeLast job hopen hs hl
    · next hl =>
      rw [Bool.not_eq_true] at hl
      split
      · next hk => exact .writeClose job hopen hs hl hk
      · next hk => exact .write job hopen hs hl hk
  | put job u rest t hs hopen hne hput =>
    obtain ⟨rfl, rfl⟩ := WriteResult.took.inj ((hw.write hne).symm.trans hput)
    exact .put job u hopen hs
  | takeHeld job rest hs hopen hf hheld => exact absurd (hd.symm.trans hheld) (by simp)
  | takeNew job rest hs hopen _ hq =>
    unfold takeUp
    split
    · next hc =>
      rw [outgoing_finish]
      exact .drop job rest hopen hs hc hq
    · next hc =>
      rw [Bool.not_eq_true] at hc
      obtain ⟨f, hflow⟩ := hsend.flowing
        (by simp [show e.outgoing.writer.state = .idle from hs]) hc
      have hframe : e.writer.frameOpen = false := hflow.closed_iff.mpr hflow.laid.entire
      rw [show (e.setQueue rest).writer.frameOpen = false from hframe, Bool.false_and,
        if_neg Bool.false_ne_true]
      exact .take job rest hopen hs hc hq
  | stop hs hwhy =>
    rw [outgoing_stop]
    rcases hwhy with hshut | ⟨-, hq, -⟩
    · exact .stop hs (.inl hshut)
    · exact .stop hs (.inr hq)

theorem terms_stop (e : Endpoint) : e.stop.transport.terms = e.transport.terms := by
  have hsame : e.abortWaiting.teardown.transport = e.transport :=
    (Reaction.teardown e.abortWaiting : Reaction Entire _ _).transport
  have hstop : e.stop.transport = { e.transport with shutDown := true } := by
    rw [← hsame]
    rfl
  rw [hstop]
  rfl

theorem writerStep_terms (h : e.writerStep = some e') :
    e'.transport.terms = e.transport.terms := by
  cases writerStep_cases h with
  | cut job => exact terms_stop _
  | fail job unsent f =>
    have hreport : ((e.finish job (.failed f)).report (.fault f)).transport = e.transport :=
      (Reaction.report (e.finish job (.failed f)) _ : Reaction Entire _ _).transport
    rw [failJob, terms_stop, hreport]
  | complete job =>
    unfold complete
    dsimp only
    split
    · rw [terms_stop, (Reaction.teardown _ : Reaction Entire _ _).transport]
      rfl
    · split <;> rfl
  | put job unsent rest t hs hopen hne hput => exact Transport.terms_of_write hput
  | takeHeld job | takeNew job =>
    rw [transport_takeUp]
    rfl
  | stop => exact terms_stop e

theorem writerStep_willing (hw : e.transport.Willing) (h : e.writerStep = some e') :
    e'.transport.Willing :=
  Transport.willing_iff.mpr ((writerStep_terms h).trans (Transport.willing_iff.mp hw))

theorem held_of_waits (hsend : e.Sending fits) (hw : e.transport.Willing)
    (hd : e.writer.deferred = []) (hopen : e.life.closed = false) (h : e.writerStep = none) :
    e.outgoing.held = [] := by
  obtain ⟨hs, hq, -⟩ := idle_of_waits hsend hopen (by simp [hw.quota]) h
  rw [Outgoing.held_idle hs]
  show e.writer.deferred ++ e.outbox.queue = []
  rw [hd, hq]
  rfl

/-- The writer holds nothing back and is not interrupted. -/
structure Prompt (e : Endpoint) : Prop where
  deferred : e.writer.deferred = []
  turn : ∀ j u, e.writer.state = .sending j u → e.turn = .writer ∧ e.life.closed = false
  wire : e.outgoing.inHand = [] →
    e.transport.wire.toList = e.outgoing.written.flatMap Job.bytes
  fresh : e.Fresh

theorem Prompt.quiet (h : Prompt e) (hs : Shift fits e e') (hg : GoesOn e e')
    (hsend : e'.Sending fits) (hnot : e.outgoing.inHand = []) : Prompt e' := by
  refine ⟨by rw [hs.writer, h.deferred], ?_, ?_, ?_⟩
  · intro j u hj
    rw [hs.writer] at hj
    have : e.outgoing.inHand = [j] := Outgoing.inHand_sending hj
    rw [hnot] at this
    simp at this
  · intro _
    have hwr : e'.outgoing.written = e.outgoing.written := by
      unfold Outgoing.written Outgoing.completions
      rw [show e'.outgoing.writer = e.outgoing.writer from hs.writer]
    rw [hs.wire, hwr]
    exact h.wire hnot
  · exact h.fresh.shift hs hg hsend

theorem Prompt.write (h : Prompt e) (hsend : e.Sending Entire) (hw : e.transport.Willing)
    (hstep : e.writerStep = some e') : Prompt (e'.giveTurn .writer) := by
  have hb := writerStep_brisk hsend hw h.deferred (fun j u hs => (h.turn j u hs).2) hstep
  refine ⟨hb.deferred_eq h.deferred, fun i v hs => ⟨rfl, ?_⟩, ?_, ?_⟩
  · show e'.outgoing.closed = false
    have hs : e'.outgoing.writer.state = .sending i v := hs
    generalize e'.outgoing = o' at hb hs
    cases hb with
    | take j rest hopen => exact hopen
    | put j u hopen => exact hopen
    | drop j rest hopen hidle =>
      have : e.outgoing.writer.state = .sending i v := hs
      rw [hidle] at this
      simp at this
    | write | writeClose | writeLast | stop => cases hs
  · intro hi
    exact hb.wire_eq hsend hi h.wire
  · have hf : Fresh e' := h.fresh.write hsend hstep
    exact hf

theorem Prompt.giveTurn (h : Prompt e) (hnot : e.outgoing.inHand = []) (t : Turn) :
    Prompt (e.giveTurn t) := by
  refine ⟨h.deferred, ?_, h.wire, h.fresh⟩
  intro j u hs
  have : e.outgoing.inHand = [j] := Outgoing.inHand_sending hs
  rw [hnot] at this
  simp at this

theorem Prompt.inHand_eq_nil (h : Prompt e) (hw : e.transport.Willing)
    (hturn : e.turn = .reader ∨ e.writerStep = none) : e.outgoing.inHand = [] := by
  cases hs : e.writer.state with
  | idle => exact Outgoing.inHand_idle hs
  | stopped => exact Outgoing.inHand_stopped hs
  | sending j u =>
    obtain ⟨ht, hopen⟩ := h.turn j u hs
    rcases hturn with hr | hwait
    · exact absurd (ht.symm.trans hr) (by simp)
    · unfold writerStep at hwait
      rw [hs] at hwait
      dsimp only at hwait
      rw [if_neg (by simp [hopen])] at hwait
      split at hwait
      · split at hwait <;> cases hwait
      · rw [hw.write (by simp)] at hwait
        simp at hwait

theorem InOrder.reaction (h : e.InOrder fits)
    (hstep : e.readerStep = some e' ∨ e.timerStep = some e') : Reaction fits e e' := by
  rcases hstep with hr | ht
  · exact (readerStep_acts h.sending h.stage h.calls hr).reaction
  · exact timerStep_reaction ht

theorem Prompt.tick (h : Prompt e) (hin : e.InOrder Entire) (hw : e.transport.Willing)
    (ht : e.tick = some e') : Prompt e' := by
  rcases tick_cases ht with ⟨w, hstep, rfl⟩ | ⟨d, hstep, hd, hturn⟩
  · exact h.write hin.sending hw hstep
  · have hnot := h.inHand_eq_nil hw hturn
    have hshift := (hin.reaction hstep).toShift
    have hgo : GoesOn e d := by
      rcases hstep with hr | hs
      · exact (readerStep_staysOn hin.sending hin.stage hin.calls hr).goesOn
      · exact timerStep_goesOn hs
    have hp : Prompt d := h.quiet hshift hgo (hin.sending.shift hshift) hnot
    rcases hd with rfl | rfl
    · exact hp
    · exact hp.giveTurn (hshift.inHand_eq.trans hnot) .reader

theorem Prompt.event (h : Prompt e) (hin : e.InOrder Entire) (hw : e.transport.Willing)
    (hrest : e.tick = none) {ev : Event} (hev : ∀ c, ev = .write c → c.Within Entire) :
    Prompt ((e.accept ev).1.giveTurn .reader) := by
  have hnot := h.inHand_eq_nil hw (.inr (waits_of_tick hrest).2.1)
  have hshift := accept_shift hin.sending hev
  exact (h.quiet hshift (accept_goesOn hin.sending hev) (hin.sending.shift hshift)
    hnot).giveTurn (hshift.inHand_eq.trans hnot) .reader

theorem Prompt.opened {ok : Event → Prop} (config : Config) (callbacks : Callbacks)
    (keys : Nat → Key) (quota maxWrite : Option Nat)
    (hcalls : ∀ c ∈ callbacks.calls, ok (.write c)) (hok : ∀ c, ok (.write c) → c.Within Entire) :
    Prompt (Endpoint.opened config callbacks keys quota maxWrite) := by
  have hs : (Endpoint.fresh config callbacks keys (.fresh quota maxWrite)).Sending Entire :=
    initial_sending config callbacks keys quota maxWrite
  have hcs : ∀ c ∈ callbacks.onConnect.getD [], c.Within Entire := fun c hc =>
    hok c (hcalls c (List.mem_append_left _ hc))
  have hshift := (writeAll_acts hs _ hcs).reaction.toShift
  have hfresh : Prompt (Endpoint.fresh config callbacks keys (.fresh quota maxWrite)) :=
    ⟨rfl, fun _ _ h => WriterState.noConfusion h, fun _ => rfl, fun _ _ => List.forall_mem_nil _⟩
  rw [Endpoint.opened]
  refine hfresh.quiet hshift (.inr ⟨?_, (writeAll_plain hs _ hcs).1⟩) (hs.shift hshift) rfl
  rw [reader_writeAll]

variable {ok : Event → Prop} {past : List Endpoint}

theorem Driven.inOrder (h : Driven ok (e :: past)) (hok : ∀ c, ok (.write c) → c.Within fits) :
    e.InOrder fits := by
  obtain ⟨past', hrun⟩ := h.run
  exact hrun.inOrder hok

/-- An end on a willing stream is prompt throughout. -/
theorem Driven.prompt (h : Driven ok (e :: past)) (hok : ∀ c, ok (.write c) → c.Within Entire)
    (hw : ∀ d ∈ e :: past, d.transport.Willing) : Prompt e := by
  generalize hs : e :: past = states at h
  induction h generalizing e past with
  | start config callbacks keys quota maxWrite hcalls =>
    cases hs
    exact .opened config callbacks keys quota maxWrite hcalls hok
  | tick h ht ih =>
    cases hs
    exact (ih (fun d hd => hw d (List.mem_cons_of_mem _ hd)) rfl).tick (h.inOrder hok)
      (hw _ (by simp)) ht
  | event h hrest ev hev ih =>
    cases hs
    exact (ih (fun d hd => hw d (List.mem_cons_of_mem _ hd)) rfl).event (h.inOrder hok)
      (hw _ (by simp)) hrest fun c hc => hok c (hc ▸ hev)

end Endpoint

end WebSocket
