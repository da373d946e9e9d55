import Mathlib.Logic.Relation
import WebSocket.Endpoint.Schedule
import WebSocket.Proofs.Endpoint.Calls

/-! The steps of an end as moves of its sending side. A step of the writer is one move. The reader,
the timer and the application let jobs enter and tear the connection down, and leave the writer
alone. -/

namespace WebSocket

/-- A move that leaves the writer alone. -/
inductive Outgoing.Entry (masked : Bool) (fits : Nat → Nat → Prop) (o : Outgoing) :
    Outgoing → Prop where
  | enter (j : Job) (f : OutgoingFrame) (keys : Nat) (hj : Outgoing.Enters masked fits o j f) :
      Entry masked fits o
        { o with
          outbox := o.outbox.enter j f keys
          closing := o.closing || (j.kind == .close && !j.last) }
  | shut : Entry masked fits o { o with closed := true }

namespace Outgoing.Entry

variable {masked : Bool} {fits : Nat → Nat → Prop} {o o' : Outgoing}

theorem move (h : Entry masked fits o o') : Outgoing.Move masked fits o o' := by
  cases h with
  | enter j f keys hj => exact .enter j f keys hj
  | shut => exact .shut o

theorem writer_eq (h : Entry masked fits o o') : o'.writer = o.writer := by
  cases h <;> rfl

theorem wire_eq (h : Entry masked fits o o') : o'.wire = o.wire := by
  cases h <;> rfl

end Outgoing.Entry

/-- The payload of a control frame that is being read is short. -/
def Stage.Bounded : Stage → Prop
  | .control h => h.payloadLength.toNat ≤ maxControlPayload
  | .answer payload => payload.length ≤ maxControlPayload
  | .header _ | .data _ => True

def Callbacks.calls (c : Callbacks) : List WriteCall := c.onConnect.getD [] ++ c.onControl.getD []

namespace Endpoint

/-! The steps of the writer. -/

section

variable (e : Endpoint) (job : Job)

@[simp] theorem outgoing_teardown : e.teardown.outgoing = { e.outgoing with closed := true } := by
  unfold teardown
  split
  · next h => simp [outgoing, h]
  · rfl

@[simp] theorem outgoing_report (err : Error) : (e.report err).outgoing = e.outgoing := by
  unfold report
  split <;> rfl

@[simp] theorem outgoing_finish (x : Outcome) :
    (e.finish job x).outgoing = e.outgoing.settle [⟨job, x⟩] := by
  simp [outgoing, finish, Outgoing.settle]

@[simp] theorem outgoing_abortWaiting : e.abortWaiting.outgoing = e.outgoing.abort := by
  simp [outgoing, abortWaiting, Outgoing.abort, Outgoing.settle, Outgoing.waiting, List.foldl_map]

@[simp] theorem outgoing_stop : e.stop.outgoing = e.outgoing.stop := by
  have := outgoing_teardown e.abortWaiting
  rw [outgoing_abortWaiting] at this
  rw [Outgoing.stop, ← show (e.abortWaiting.teardown.setWriterState .stopped).outgoing =
    e.stop.outgoing from rfl]
  show Outgoing.setState e.abortWaiting.teardown.outgoing .stopped = _
  rw [this]
  rfl

theorem closed_teardown : e.teardown.life.closed = true :=
  congrArg Outgoing.closed (outgoing_teardown e)

theorem closed_stop : e.stop.life.closed = true := congrArg Outgoing.closed (outgoing_stop e)

end

variable {masked : Bool} {fits : Nat → Nat → Prop} {e e' : Endpoint}

theorem outgoing_complete (e : Endpoint) (job : Job) :
    (e.complete job).outgoing =
      if job.last then (e.outgoing.complete job).stop
      else if job.kind = .close then
        { (e.outgoing.complete job).abort with
          writer := { (e.outgoing.complete job).abort.writer with closeSent := true } }
      else e.outgoing.complete job := by
  have hc : (((e.finish job .written).setWriterState .idle).setFrameOpen (0 < job.owed)).outgoing =
      e.outgoing.complete job := by
    rw [Outgoing.complete, ← outgoing_finish]
    rfl
  unfold complete
  dsimp only
  split
  · rw [outgoing_stop, outgoing_teardown, hc]
    rfl
  · split
    · rw [← hc, ← outgoing_abortWaiting]
      rfl
    · exact hc

theorem complete_move {job : Job} (hopen : e.life.closed = false)
    (hs : e.writer.state = .sending job []) :
    Outgoing.Move masked fits e.outgoing (e.complete job).outgoing := by
  rw [outgoing_complete]
  split
  · next hl => exact .writeLast job hopen hs hl
  · next hl =>
    rw [Bool.not_eq_true] at hl
    split
    · next hk => exact .writeClose job hopen hs hl hk
    · next hk => exact .write job hopen hs hl hk

theorem wire_of_write {t t' : Transport} {b rest : Bytes} (h : t.write b = .took rest t') :
    ∃ front, b = front ++ rest ∧ t'.wire = t.wire ++ front.toArray := by
  unfold Transport.write at h
  split at h
  · simp at h
  · split at h
    · simp at h
    · split at h
      · simp at h
      · split at h
        · simp at h
        · cases h
          have hpre : t.part b <+: b := by
            unfold Transport.part
            split <;> first | exact List.prefix_rfl | exact List.take_prefix _ _
          refine ⟨t.part b, ?_, rfl⟩
          conv_lhs => rw [← List.take_append_drop (t.part b).length b]
          rw [← List.prefix_iff_eq_take.mp hpre]

theorem write_ne_waits {t : Transport} (hq : t.quota ≠ some 0) (b : Bytes) :
    t.write b ≠ .waits := by
  unfold Transport.write
  rw [if_neg hq]
  split
  · simp
  · split
    · simp
    · split <;> simp

theorem idle_of_waits (hsend : e.Sending fits) (hopen : e.life.closed = false)
    (hq : e.transport.quota ≠ some 0) (h : e.writerStep = none) : e.writer.state = .idle ∧
      e.outbox.queue = [] ∧ (e.writer.frameOpen = true ∨ e.writer.deferred = []) := by
  unfold writerStep at h
  split at h
  · next hs => exact absurd hs (hsend.running hopen)
  · next job unsent hs =>
    rw [if_neg (by simp [hopen])] at h
    split at h
    · split at h <;> cases h
    · next b bs =>
      split at h
      · next hw => exact absurd hw (write_ne_waits hq (b :: bs))
      · cases h
      · cases h
  · next hs =>
    rw [if_neg (by simp [hopen])] at h
    split at h
    · simp at h
    · next hd =>
      split at h
      · simp at h
      · next hnew =>
        refine ⟨hs, hnew, ?_⟩
        split at hd
        · next hf => exact .inl hf
        · exact .inr hd

/-- A step of the writer is a move. -/
theorem writerStep_move (h : e.writerStep = some e') :
    Outgoing.Move masked fits e.outgoing e'.outgoing := by
  cases writerStep_cases h with
  | cut job unsent hs hshut =>
    rw [outgoing_stop, outgoing_finish]
    exact .cut job unsent hshut hs
  | fail job unsent f hs hopen =>
    rw [failJob, outgoing_stop, outgoing_report, outgoing_finish]
    exact .fail job unsent f hopen hs
  | complete job hs hopen => exact complete_move hopen hs
  | put job unsent rest t hs hopen hne hw =>
    obtain ⟨front, rfl, hwire⟩ := wire_of_write hw
    have hmove : Outgoing.Move masked fits e.outgoing _ := .put job front rest hopen hs
    rw [show e.outgoing.wire = e.transport.wire from rfl, ← hwire] at hmove
    exact hmove
  | takeHeld job rest hs hopen hf hd =>
    unfold takeUp
    split
    · next hc =>
      rw [outgoing_finish]
      exact .dropHeld job rest hopen hs hc hf hd
    · next hc =>
      rw [Bool.not_eq_true] at hc
      rw [show (e.setDeferred rest).writer.frameOpen = false from hf, Bool.false_and,
        if_neg Bool.false_ne_true]
      exact .takeHeld job rest hopen hs hc hf hd
  | takeNew job rest hs hopen hd hq =>
    unfold takeUp
    split
    · next hc =>
      rw [outgoing_finish]
      exact .dropNew job rest hopen hs hc hd hq
    · next hc =>
      rw [Bool.not_eq_true] at hc
      split
      · next hk =>
        rw [Bool.and_eq_true, bne_iff_ne] at hk
        exact .hold job rest hopen hs hc hk.1 hk.2 hq
      · next hk =>
        refine .takeNew job rest hopen hs hc hd ?_ hq
        intro hf
        by_contra hne
        apply hk
        rw [show (e.setQueue rest).writer.frameOpen = true from hf]
        simpa using hne
  | stop hs =>
    rw [outgoing_stop]
    exact .stop hs

/-- What the writer has nothing to do with. -/
def settings (e : Endpoint) : Config × Callbacks × Turn × Bool :=
  (e.config, e.callbacks, e.turn, e.held)

section

variable (e : Endpoint) (job : Job)

@[simp] theorem settings_teardown : e.teardown.settings = e.settings := by
  unfold teardown
  split <;> rfl

@[simp] theorem settings_stop : e.stop.settings = e.settings :=
  settings_teardown e.abortWaiting

@[simp] theorem settings_report (err : Error) : (e.report err).settings = e.settings := by
  unfold report
  split <;> rfl

@[simp] theorem settings_failJob (f : Fault) : (e.failJob job f).settings = e.settings := by
  rw [failJob, settings_stop, settings_report]
  rfl

@[simp] theorem settings_complete : (e.complete job).settings = e.settings := by
  unfold complete
  dsimp only
  split
  · rw [settings_stop, settings_teardown]
    rfl
  · split <;> rfl

@[simp] theorem settings_takeUp : (e.takeUp job).settings = e.settings := by
  unfold takeUp
  split
  · rfl
  · split <;> rfl

@[simp] theorem life_takeUp : (e.takeUp job).life = e.life := by
  unfold takeUp
  split
  · rfl
  · split <;> rfl

@[simp] theorem transport_takeUp : (e.takeUp job).transport = e.transport := by
  unfold takeUp
  split
  · rfl
  · split <;> rfl

end

theorem writerStep_settings (h : e.writerStep = some e') :
    e'.config = e.config ∧ e'.callbacks = e.callbacks ∧ e'.turn = e.turn ∧ e'.held = e.held := by
  have : e'.settings = e.settings := by
    cases writerStep_cases h with
    | cut job => exact settings_stop _
    | fail job unsent f => exact settings_failJob e job f
    | complete job => exact settings_complete e job
    | put => rfl
    | takeHeld job | takeNew job => exact settings_takeUp _ job
    | stop => exact settings_stop e
  simpa [settings] using this

def callsOf (o : Outgoing) : OutgoingFrame × Nat × Bool :=
  (o.outbox.frame, o.outbox.nextSerial, o.closing)

/-- Only calls hand in jobs. -/
theorem writerStep_calls (h : e.writerStep = some e') : e'.outbox.frame = e.outbox.frame ∧
    e'.outbox.nextSerial = e.outbox.nextSerial ∧ e'.life.closing = e.life.closing := by
  have : callsOf e'.outgoing = callsOf e.outgoing := by
    cases writerStep_cases h with
    | cut | fail | stop => simp only [failJob, outgoing_stop, outgoing_report, outgoing_finish]; rfl
    | complete job =>
      rw [outgoing_complete]
      split
      · rfl
      · split <;> rfl
    | put => rfl
    | takeHeld job | takeNew job =>
      unfold takeUp
      split
      · rfl
      · split <;> rfl
  obtain ⟨hframe, hserial, hclosing⟩ := by simpa only [callsOf, Prod.mk.injEq] using this
  exact ⟨hframe, hserial, hclosing⟩

theorem lineUp_writerStep (hsend : e.Sending fits) (hstep : e.writerStep = some e') :
    e'.outgoing.lineUp.Perm e.outgoing.lineUp :=
  (Outgoing.LineMove.of_move hsend.phased
    (writerStep_move hstep : Outgoing.Move e.masks fits _ _)).perm (writerStep_calls hstep).2.1

theorem writerStep_life (h : e.writerStep = some e') :
    e'.life = e.life ∨ e'.life.closed = true := by
  cases writerStep_cases h with
  | cut | fail | stop => exact .inr (closed_stop _)
  | complete job =>
    unfold complete
    dsimp only
    split
    · exact .inr (closed_stop _)
    · split <;> exact .inl rfl
  | put => exact .inl rfl
  | takeHeld job | takeNew job => exact .inl (life_takeUp _ job)

/-- The clock and the close timer, which may have been turned off. -/
structure KeepsTime (l l' : Life) : Prop where
  clock : l'.clock = l.clock
  timer : l'.timer = l.timer ∨ l'.timer = none

theorem KeepsTime.teardown (e : Endpoint) : KeepsTime e.life e.teardown.life := by
  unfold Endpoint.teardown
  split
  · exact ⟨rfl, .inl rfl⟩
  · exact ⟨rfl, .inr rfl⟩

theorem KeepsTime.report (e : Endpoint) (err : Error) : KeepsTime e.life (e.report err).life := by
  unfold Endpoint.report
  split <;> exact ⟨rfl, .inl rfl⟩

theorem KeepsTime.stop (e : Endpoint) : KeepsTime e.life e.stop.life :=
  teardown e.abortWaiting

theorem KeepsTime.trans {l l' l'' : Life} (h : KeepsTime l l') (h' : KeepsTime l' l'') :
    KeepsTime l l'' := by
  refine ⟨h'.clock.trans h.clock, ?_⟩
  rcases h'.timer with ht | ht
  · rw [ht]
    exact h.timer
  · exact .inr ht

theorem writerStep_time (h : e.writerStep = some e') : KeepsTime e.life e'.life := by
  cases writerStep_cases h with
  | cut job => exact .stop (e.finish job .aborted)
  | fail job unsent f => exact (KeepsTime.report (e.finish job (.failed f)) _).trans (.stop _)
  | complete job =>
    unfold complete
    dsimp only
    split
    · exact (KeepsTime.teardown (((e.finish job .written).setWriterState .idle).setFrameOpen
        (0 < job.owed))).trans (.stop _)
    · split <;> exact ⟨rfl, .inl rfl⟩
  | put => exact ⟨rfl, .inl rfl⟩
  | takeHeld job | takeNew job =>
    rw [life_takeUp]
    exact ⟨rfl, .inl rfl⟩
  | stop => exact .stop e

/-! The steps of the others. -/

/-- What becomes of an end while its writer waits. -/
structure Shift (fits : Nat → Nat → Prop) (e e' : Endpoint) : Prop where
  entries : Relation.ReflTransGen (Outgoing.Entry e.masks fits) e.outgoing e'.outgoing
  config : e'.config = e.config
  callbacks : e'.callbacks = e.callbacks

theorem Shift.of_same (ho : e'.outgoing = e.outgoing) (hc : e'.config = e.config)
    (hb : e'.callbacks = e.callbacks) : Shift fits e e' :=
  ⟨by rw [ho], hc, hb⟩

theorem Shift.refl (e : Endpoint) : Shift fits e e := .of_same rfl rfl rfl

theorem Shift.masks (h : Shift fits e e') : e'.masks = e.masks := by
  rw [Endpoint.masks, h.config, Endpoint.masks]

theorem Shift.trans {e'' : Endpoint} (h : Shift fits e e') (h' : Shift fits e' e'') :
    Shift fits e e'' := by
  refine ⟨h.entries.trans ?_, h'.config.trans h.config, h'.callbacks.trans h.callbacks⟩
  rw [← h.masks]
  exact h'.entries

theorem Shift.keeps {P : Outgoing → Prop} (h : Shift fits e e') (hp : P e.outgoing)
    (hentry : ∀ {o o'}, Outgoing.Entry e.masks fits o o' → P o → P o') : P e'.outgoing := by
  have : ∀ o, Relation.ReflTransGen (Outgoing.Entry e.masks fits) e.outgoing o → P o := by
    intro o ho
    induction ho with
    | refl => exact hp
    | tail _ hm ih => exact hentry hm ih
  exact this _ h.entries

theorem Shift.writer (h : Shift fits e e') : e'.writer = e.writer :=
  h.keeps (P := fun o => o.writer = e.writer) rfl fun hm hw => hm.writer_eq.trans hw

theorem Shift.inHand_eq (h : Shift fits e e') : e'.outgoing.inHand = e.outgoing.inHand := by
  unfold Outgoing.inHand
  rw [show e'.outgoing.writer = e.outgoing.writer from h.writer]

theorem Shift.wire (h : Shift fits e e') : e'.transport.wire = e.transport.wire :=
  h.keeps (P := fun o => o.wire = e.transport.wire) rfl fun hm hw => hm.wire_eq.trans hw

theorem Shift.closing (h : Shift fits e e') (hc : e'.life.closing = false) :
    e.life.closing = false := by
  refine h.keeps (P := fun o => o.closing = false → e.life.closing = false) id ?_ hc
  intro o o' hm hstart hf
  cases hm with
  | enter j f keys hj => exact hstart (Bool.or_eq_false_iff.mp hf).1
  | shut => exact hstart hf

theorem Shift.mem_lineUp (h : Shift fits e e') {j : Job} (hj : j ∈ e'.outgoing.lineUp) :
    j ∈ e.outgoing.lineUp ∨ j ∈ e'.outbox.queue := by
  have hw : e'.outgoing.writer = e.outgoing.writer := h.writer
  unfold Outgoing.lineUp Outgoing.held Outgoing.completions Outgoing.inHand Outgoing.waiting at *
  rw [hw] at hj
  simp only [List.mem_append] at hj ⊢
  tauto

theorem Shift.of_closed (h : Shift fits e e') (hc : e.life.closed = true) :
    e'.outgoing = e.outgoing := by
  refine h.keeps (P := fun o => o = e.outgoing) rfl ?_
  rintro o o' hm rfl
  cases hm with
  | enter j f keys hj => exact absurd (hj.opened.symm.trans hc) Bool.false_ne_true
  | shut =>
    rw [show ({ e.outgoing with closed := true } : Outgoing) =
      { e.outgoing with closed := e.life.closed } by rw [hc]]
    rfl

theorem Sending.shift (h : e.Sending fits) (hs : Shift fits e e') : e'.Sending fits := by
  rw [Sending, hs.masks]
  exact hs.keeps h fun hm hsound => hsound.move hm.move

/-- What every entry keeps. The sending side is in order all along. -/
theorem Shift.lift {P : Outgoing → Prop} (h : Shift fits e e') (hs : e.Sending fits)
    (hp : P e.outgoing)
    (hentry : ∀ {o o'}, o.Sound e.masks fits → Outgoing.Entry e.masks fits o o' → P o → P o') :
    P e'.outgoing := by
  refine (h.keeps (P := fun o => o.Sound e.masks fits ∧ P o) ⟨hs, hp⟩ ?_).2
  exact fun hm ⟨hsound, hp⟩ => ⟨hsound.move hm.move, hentry hsound hm hp⟩

def surroundings (e : Endpoint) : Config × Callbacks × Transport × Bool × Nat × Option Timer :=
  (e.config, e.callbacks, e.transport, e.held, e.life.clock, e.life.timer)

/-- What becomes of an end when a call is made, or the reader or the timer goes on: nothing happens
to the stream below, the application keeps its hold, and no time goes by. -/
structure Reaction (fits : Nat → Nat → Prop) (e e' : Endpoint) : Prop extends Shift fits e e' where
  transport : e'.transport = e.transport
  held : e'.held = e.held
  clock : e'.life.clock = e.life.clock
  timer : e.Rearmed e'.life.timer

theorem Reaction.of_same (ho : e'.outgoing = e.outgoing) (hs : e'.surroundings = e.surroundings) :
    Reaction fits e e' := by
  obtain ⟨hc, hb, ht, hh, hclock, htimer⟩ := by simpa only [surroundings, Prod.mk.injEq] using hs
  exact ⟨.of_same ho hc hb, ht, hh, hclock, htimer ▸ .kept⟩

theorem Reaction.refl (e : Endpoint) : Reaction fits e e := .of_same rfl rfl

theorem Rearmed.trans {e' : Endpoint} (hclock : e'.life.clock = e.life.clock)
    (hconfig : e'.config = e.config) (h : e.Rearmed e'.life.timer) {timer : Option Timer}
    (h' : e'.Rearmed timer) : e.Rearmed timer := by
  cases h' with
  | kept => exact h
  | off => exact .off
  | armed afterWriter =>
    rw [hclock, hconfig]
    exact .armed afterWriter

theorem Reaction.trans {e'' : Endpoint} (h : Reaction fits e e') (h' : Reaction fits e' e'') :
    Reaction fits e e'' :=
  ⟨h.toShift.trans h'.toShift, h'.transport.trans h.transport, h'.held.trans h.held,
    h'.clock.trans h.clock, .trans h.clock h.config h.timer h'.timer⟩

theorem Reaction.teardown (e : Endpoint) : Reaction fits e e.teardown := by
  have hshut : Relation.ReflTransGen (Outgoing.Entry e.masks fits) e.outgoing
      e.teardown.outgoing := by
    rw [outgoing_teardown]
    exact .single .shut
  refine ⟨⟨hshut, ?_, ?_⟩, ?_, ?_, ?_, ?_⟩ <;> unfold Endpoint.teardown <;> split
  all_goals first | rfl | exact .kept | exact .off

theorem Reaction.report (e : Endpoint) (err : Error) : Reaction fits e (e.report err) := by
  apply Reaction.of_same (outgoing_report e err)
  unfold Endpoint.report
  split <;> rfl

/-- One thing that a party other than the writer does. -/
inductive Act (fits : Nat → Nat → Prop) (e : Endpoint) : Endpoint → Prop where
  | read (r : Reader) : Act fits e { e with reader := r }
  | report (err : Error) : Act fits e (e.report err)
  | teardown : Act fits e e.teardown
  | attempt {makes : Job → Prop} {a : Attempt} (h : Entered fits makes e a) : Act fits e a.1

/-- What a party other than the writer does, one thing after the other. -/
def Acts (fits : Nat → Nat → Prop) : Endpoint → Endpoint → Prop :=
  Relation.ReflTransGen (Act fits)

theorem Act.reaction (h : Act fits e e') : Reaction fits e e' := by
  cases h with
  | read => exact .of_same rfl rfl
  | report err => exact .report e err
  | teardown => exact .teardown e
  | attempt h =>
    cases h with
    | refused => exact .refl e
    | accepted j f keys timer hj _ htimer =>
      exact ⟨⟨.single (.enter j f keys hj), rfl, rfl⟩, rfl, rfl, rfl, htimer.rearmed⟩

theorem Acts.reaction (h : Acts fits e e') : Reaction fits e e' := by
  induction h with
  | refl => exact .refl e
  | tail _ ha ih => exact ih.trans ha.reaction

theorem Acts.lift {P : Endpoint → Prop} (h : Acts fits e e') (hs : e.Sending fits) (hp : P e)
    (hact : ∀ d d', d.Sending fits → Act fits d d' → P d → P d') : P e' := by
  induction h with
  | refl => exact hp
  | tail hacts ha ih =>
    have hd : Acts fits e _ := hacts
    exact hact _ _ (hs.shift hd.reaction.toShift) ha ih

theorem Acts.sending (h : Acts fits e e') (hs : e.Sending fits) : e'.Sending fits :=
  hs.shift h.reaction.toShift

theorem Acts.refl (e : Endpoint) : Acts fits e e := Relation.ReflTransGen.refl

theorem Acts.trans {e'' : Endpoint} (h : Acts fits e e') (h' : Acts fits e' e'') :
    Acts fits e e'' :=
  Relation.ReflTransGen.trans h h'

theorem Act.acts (h : Act fits e e') : Acts fits e e' := Relation.ReflTransGen.single h

theorem Acts.read (e : Endpoint) (r : Reader) : Acts fits e { e with reader := r } :=
  (Act.read r).acts

theorem Acts.report (e : Endpoint) (err : Error) : Acts fits e (e.report err) :=
  (Act.report err).acts

theorem Acts.teardown (e : Endpoint) : Acts fits e e.teardown := Act.teardown.acts

theorem Acts.endRead (e : Endpoint) (r : ReadResult) : Acts fits e (e.endRead r) := .read e _

theorem Entered.acts {makes : Job → Prop} {a : Attempt} (h : Entered fits makes e a) :
    Acts fits e a.1 :=
  (Act.attempt h).acts

theorem writeAll_acts (h : e.Sending fits) (cs : List WriteCall)
    (hcs : ∀ c ∈ cs, c.Within fits) : Acts fits e (e.writeAll cs).1 := by
  induction cs generalizing e with
  | nil => exact .refl e
  | cons c cs ih =>
    have hfirst := (write_entered h (hcs c (by simp))).acts
    exact hfirst.trans (ih (hfirst.sending h) fun c' hc => hcs c' (by simp [hc]))

theorem closeDown_acts (h : e.Sending fits) (code : CloseCode) (reason : String)
    (hbusy : e.life.closed = false → e.life.closing = true →
      e.outbox.slots.isBusy .close = true) : Acts fits e (e.closeDown code reason) := by
  have hentered := queueFinalClose_entered h code reason hbusy
  unfold closeDown
  split
  · next heq =>
    rw [heq] at hentered
    exact hentered.acts
  · next heq =>
    rw [heq] at hentered
    exact hentered.acts.trans (.teardown _)

theorem failRead_acts (e : Endpoint) (f : Fault) : Acts fits e (e.failRead f) :=
  (Acts.report e _).trans ((Acts.teardown _).trans (.endRead _ _))

theorem rejectPeer_acts (h : e.Sending fits) (v : Violation) : Acts fits e (e.rejectPeer v) := by
  have hreport : Acts fits e (e.report v.toError) := .report e _
  unfold rejectPeer
  dsimp only
  split
  · exact hreport.trans ((Acts.teardown _).trans (.endRead _ _))
  · next hc =>
    refine hreport.trans (.trans ?_ (.endRead _ _))
    exact closeDown_acts (hreport.sending h) _ _ fun _ hcl => absurd hcl hc

theorem openFrame_acts (h : e.Sending fits) (hd : Header) : Acts fits e (e.openFrame hd) := by
  unfold openFrame
  split
  · exact rejectPeer_acts h _
  · exact .read e _
  · split
    · exact .read e _
    · exact rejectPeer_acts h _

theorem readHeaderPiece_acts (h : e.Sending fits) (p : HeaderProgress) (piece : Bytes) :
    Acts fits e (e.readHeaderPiece p piece) := by
  unfold readHeaderPiece
  split
  · exact rejectPeer_acts h _
  · exact .read e _
  · exact openFrame_acts h _

theorem endOfStream_acts (e : Endpoint) : Acts fits e e.endOfStream := by
  unfold endOfStream
  split
  · exact failRead_acts e _
  · split
    · exact failRead_acts e _
    · exact (Acts.teardown e).trans (.endRead _ _)

theorem deliverText_acts (h : e.Sending fits) (c : Chunk) : Acts fits e (e.deliverText c) := by
  have htext : Acts fits e
      { e with reader := { e.reader with text := (e.reader.text.feed c.data).2 } } := .read e _
  unfold deliverText
  dsimp only
  split
  · exact htext.trans (rejectPeer_acts (htext.sending h) _)
  · split
    · exact htext.trans (rejectPeer_acts (htext.sending h) _)
    · exact .read e _

theorem readData_acts (h : e.Sending fits) (f : IncomingFrame) (piece : Bytes) :
    Acts fits e (e.readData f piece) := by
  have hstage : ∀ stage, Acts fits e (e.setStage stage) := fun _ => .read e _
  unfold readData
  dsimp only
  split
  · exact .read e _
  · exact (hstage _).trans (deliverText_acts ((hstage _).sending h) _)

theorem notify_acts (h : e.Sending fits) (hcalls : ∀ c ∈ e.callbacks.calls, c.Within fits)
    (c : Control) : Acts fits e (e.notify c) := by
  have := writeAll_acts h (e.callbacks.onControl.getD []) fun c hc =>
    hcalls c (List.mem_append_right _ hc)
  exact this.trans (.read _ _)

/-- A close call of the callback is still to be written when the reader goes on. -/
theorem close_busy_after_notify (h : e.Sending fits) (hs : Shift fits e e')
    (hcl : e.life.closing = false) :
    e'.life.closed = false → e'.life.closing = true → e'.outbox.slots.isBusy .close = true := by
  intro hopen hclosing
  have h' := h.shift hs
  refine Outgoing.Sound.close_busy h' hclosing ?_ (h'.running hopen)
  apply Bool.eq_false_iff.mpr
  intro hsent
  rw [show e'.outgoing.writer = e.outgoing.writer from hs.writer] at hsent
  exact absurd (hcl.symm.trans (h.closes.spent hsent).1) Bool.false_ne_true

theorem handleControl_acts (h : e.Sending fits)
    (hcalls : ∀ c ∈ e.callbacks.calls, c.Within fits) (c : Control) :
    Acts fits e (e.handleControl c) := by
  cases c with
  | close p =>
    unfold handleControl
    dsimp only
    split
    · exact (Acts.teardown e).trans (.endRead _ _)
    · next hcl =>
      rw [Bool.not_eq_true] at hcl
      have hnote := notify_acts h hcalls (.close p)
      refine hnote.trans (.trans ?_ (.endRead _ _))
      exact closeDown_acts (hnote.sending h) _ _
        (close_busy_after_notify h hnote.reaction.toShift hcl)
  | ping payload => exact (notify_acts h hcalls (.ping payload)).trans (.read _ _)
  | pong payload => exact (notify_acts h hcalls (.pong payload)).trans (.read _ _)

theorem readControl_acts (h : e.Sending fits)
    (hcalls : ∀ c ∈ e.callbacks.calls, c.Within fits) (hd : Header) (piece : Bytes) :
    Acts fits e (e.readControl hd piece) := by
  unfold readControl
  split
  · exact rejectPeer_acts h _
  · exact .read e _
  · exact handleControl_acts h hcalls _

theorem answerPing_acts (h : e.Sending fits) {payload : Bytes}
    (hlen : payload.length ≤ maxControlPayload) : Acts fits e (e.answerPing payload) :=
  (queuePong_entered h hlen).acts.trans (.read _ _)

/-- A step of the reader. -/
theorem readerStep_acts (h : e.Sending fits) (hstage : e.reader.stage.Bounded)
    (hcalls : ∀ c ∈ e.callbacks.calls, c.Within fits) (hstep : e.readerStep = some e') :
    Acts fits e e' := by
  have hinput : ∀ rest, Acts fits e (e.setInput rest) := fun _ => .read e _
  cases (readerStep_cases hstep).2 with
  | leave => exact .endRead e _
  | fail f => exact failRead_acts e f
  | finish => exact endOfStream_acts e
  | header p piece rest =>
    exact (hinput rest).trans (readHeaderPiece_acts ((hinput rest).sending h) p piece)
  | data f piece rest =>
    exact (hinput rest).trans (readData_acts ((hinput rest).sending h) f piece)
  | control c piece rest =>
    exact (hinput rest).trans (readControl_acts ((hinput rest).sending h) hcalls c piece)
  | answer payload hopen hs =>
    rw [hs] at hstage
    exact answerPing_acts h hstage

/-! What the reader may have to answer is short. -/

@[simp] theorem reader_closeDown (e : Endpoint) (code : CloseCode) (reason : String) :
    (e.closeDown code reason).reader = e.reader := by
  have := reader_queueFinalClose e code reason
  unfold closeDown
  split
  · next heq => rwa [heq] at this
  · next heq =>
    rw [heq] at this
    rw [reader_teardown, this]

@[simp] theorem reader_failRead (e : Endpoint) (f : Fault) :
    (e.failRead f).reader = (e.endRead (.failed (.fault f))).reader := by
  simp [failRead, endRead]

@[simp] theorem reader_rejectPeer (e : Endpoint) (v : Violation) :
    (e.rejectPeer v).reader = (e.endRead (.failed v.toError)).reader := by
  unfold rejectPeer
  dsimp only
  split <;> simp [endRead]

@[simp] theorem stage_endOfStream (e : Endpoint) :
    e.endOfStream.reader.stage = e.reader.stage := by
  unfold endOfStream
  split
  · simp [endRead]
  · split <;> simp [endRead]

@[simp] theorem stage_deliverText (e : Endpoint) (c : Chunk) :
    (e.deliverText c).reader.stage = e.reader.stage := by
  unfold deliverText
  dsimp only
  split
  · simp [endRead]
  · split
    · simp [endRead]
    · rfl

theorem isControl_of_accept {s t : Sequencing} {op : Opcode} {fin : Bool}
    (h : s.accept op fin = .ok (none, t)) : op.isControl = true := by
  cases op with
  | close | ping | pong => rfl
  | text | binary =>
    simp only [Sequencing.accept, Sequencing.start] at h
    split at h <;> cases h
  | continuation =>
    simp only [Sequencing.accept] at h
    split at h <;> cases h

theorem short_of_check {r : HeaderRules} {h h' : Header} (hc : r.check h = .ok h')
    (hop : h.opcode.isControl = true) : h' = h ∧ h.payloadLength.toNat ≤ maxControlPayload := by
  unfold HeaderRules.check at hc
  rw [if_pos hop] at hc
  split at hc
  · simp at hc
  · split at hc
    · simp at hc
    · next hl =>
      cases hc
      exact ⟨rfl, by omega⟩

theorem check_eq {r : HeaderRules} {h h' : Header} (hc : r.check h = .ok h') : h' = h := by
  unfold HeaderRules.check at hc
  repeat' split at hc
  all_goals cases hc
  all_goals rfl

theorem check_of_read {r : HeaderRules} {p : HeaderProgress} {piece : Bytes} {h : Header}
    (hr : p.read r piece = .ok (.done h)) : r.check h = .ok h := by
  -- a complete header is given back by the checks alone, whichever piece completes it
  have hmap : ∀ x : Header, (r.check x).map HeaderStep.done = .ok (.done h) →
      r.check h = .ok h := by
    intro x hx
    cases hc : r.check x with
    | error v => rw [hc] at hx; cases hx
    | ok y =>
      rw [hc] at hx
      cases hx
      have := check_eq hc
      rwa [← this] at hc
  have hafter : ∀ fin op masked n,
      HeaderProgress.afterLength r fin op masked n = .ok (.done h) → r.check h = .ok h := by
    intro fin op masked n ha
    unfold HeaderProgress.afterLength at ha
    split at ha
    · simp at ha
    · exact hmap _ ha
  cases p with
  | start =>
    simp only [HeaderProgress.read] at hr
    split at hr
    · simp at hr
    · split at hr <;> cases hr
  | opened fin op =>
    simp only [HeaderProgress.read] at hr
    split at hr
    · simp at hr
    · split at hr
      · simp at hr
      · split at hr
        · simp at hr
        · exact hafter _ _ _ _ hr
  | extended fin op masked wide =>
    simp only [HeaderProgress.read] at hr
    split at hr
    · simp at hr
    · exact hafter _ _ _ _ hr
  | keyed fin op n => exact hmap _ hr

theorem bounded_openFrame (hstage : e.reader.stage.Bounded) {r : HeaderRules} {h : Header}
    (hc : r.check h = .ok h) : (e.openFrame h).reader.stage.Bounded := by
  unfold openFrame
  split
  · simpa [endRead] using hstage
  · next hacc => exact (short_of_check hc (isControl_of_accept hacc)).2
  · split
    · trivial
    · simpa [endRead] using hstage

theorem bounded_readControl (hstage : e.reader.stage.Bounded) {h : Header} {piece : Bytes}
    (hlen : piece.length ≤ maxControlPayload) : (e.readControl h piece).reader.stage.Bounded := by
  unfold readControl
  split
  · simpa [endRead] using hstage
  · trivial
  · next c hc =>
    cases c with
    | close p =>
      unfold handleControl
      dsimp only
      split
      · simpa [endRead] using hstage
      · simpa [endRead, notify] using hstage
    | pong payload => trivial
    | ping payload =>
      show payload.length ≤ maxControlPayload
      have : payload = maskWith h.mask 0 piece := by
        unfold Control.parse at hc
        split at hc
        · cases hc
          rfl
        · simp at hc
        · cases hp : ClosePayload.parse (maskWith h.mask 0 piece) <;> rw [hp] at hc <;> cases hc
        · simp at hc
        · simp at hc
        · simp at hc
      rwa [this, length_maskWith]

theorem readerStep_bounded (hstage : e.reader.stage.Bounded) (hstep : e.readerStep = some e') :
    e'.reader.stage.Bounded := by
  have hinput : ∀ rest, (e.setInput rest).reader.stage.Bounded := fun _ => hstage
  cases (readerStep_cases hstep).2 with
  | leave => exact hstage
  | fail | finish => simpa [endRead] using hstage
  | header p piece rest =>
    unfold readHeaderPiece
    split
    · rw [reader_rejectPeer]
      exact hstage
    · trivial
    · next hr => exact bounded_openFrame (hinput rest) (check_of_read hr)
  | data f piece rest =>
    unfold readData
    dsimp only
    split
    · show Stage.Bounded (if _ then _ else _)
      split <;> trivial
    · rw [stage_deliverText]
      show Stage.Bounded (if _ then _ else _)
      split <;> trivial
  | control c piece rest hopen hs ht =>
    have hlen : c.payloadLength.toNat ≤ maxControlPayload := by
      rw [hs] at hstage
      exact hstage
    apply bounded_readControl (hinput rest)
    rwa [(Input.length_of_take ht).1]
  | answer => trivial

end Endpoint

end WebSocket
