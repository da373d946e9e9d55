import WebSocket.Proofs.Endpoint.Run

/-! Runs as an end makes them: it goes on until it is at rest, and then it meets an event. -/

namespace WebSocket

namespace Endpoint

/-- The states of an end that meets the events in `ok`, the latest first. -/
inductive Driven (ok : Event → Prop) : List Endpoint → Prop where
  | start (config : Config) (callbacks : Callbacks) (keys : Nat → Key)
      (quota maxWrite : Option Nat) (hcalls : ∀ c ∈ callbacks.calls, ok (.write c)) :
      Driven ok [opened config callbacks keys quota maxWrite]
  | tick {e e' : Endpoint} {past : List Endpoint} (h : Driven ok (e :: past))
      (ht : e.tick = some e') : Driven ok (e' :: e :: past)
  | event {e : Endpoint} {past : List Endpoint} (h : Driven ok (e :: past)) (hrest : e.tick = none)
      (ev : Event) (hev : ok ev) : Driven ok ((e.accept ev).1.giveTurn .reader :: e :: past)

variable {ok : Event → Prop} {e e' : Endpoint} {past : List Endpoint}

theorem Driven.run (h : Driven ok (e :: past)) : ∃ past', Run ok (e :: past') := by
  generalize hs : e :: past = states at h
  induction h generalizing e past with
  | start config callbacks keys quota maxWrite hcalls =>
    cases hs
    exact ⟨[], .start config callbacks keys quota maxWrite hcalls⟩
  | @tick c c' states h ht ih =>
    cases hs
    obtain ⟨past', hrun⟩ := ih rfl
    have hstep : Step ok c c' ∨ ∃ d t, Step ok c d ∧ c' = d.giveTurn t := tick_step ht
    rcases hstep with hs | ⟨d, t, hs, rfl⟩
    · exact ⟨_, hrun.step hs⟩
    · exact ⟨_, (hrun.step hs).step (.turn d t)⟩
  | event h hrest ev hev ih =>
    cases hs
    obtain ⟨past', hrun⟩ := ih rfl
    exact ⟨_, (hrun.step (.event ev hev)).step (.turn _ .reader)⟩

theorem waits_of_tick (h : e.tick = none) :
    e.readerStep = none ∧ e.writerStep = none ∧ e.timerStep = none := by
  unfold tick at h
  split at h <;> simp only [Option.orElse_eq_orElse, Option.orElse_eq_or, Option.or_eq_none_iff,
    Option.map_eq_none_iff] at h
  · exact ⟨h.1, h.2.2.1, h.2.2.2⟩
  · exact ⟨h.2.2, h.1, h.2.1⟩

theorem giveTurn_eq {t : Turn} (h : e.turn = t) : e.giveTurn t = e := by
  subst h
  rfl

/-- The writer goes on, or another party while the writer is not interrupted. -/
theorem tick_cases (h : e.tick = some e') :
    (∃ w, e.writerStep = some w ∧ e' = w.giveTurn .writer) ∨
      ∃ d, (e.readerStep = some d ∨ e.timerStep = some d) ∧ (e' = d ∨ e' = d.giveTurn .reader) ∧
        (e.turn = .reader ∨ e.writerStep = none) := by
  rcases tick_parties h with ⟨w, hw, hsame⟩ | hother
  · left
    refine ⟨w, hw, ?_⟩
    rcases hsame with ⟨ht, rfl⟩ | rfl
    · exact (giveTurn_eq ((writerStep_settings hw).2.2.1.trans ht)).symm
    · rfl
  · exact .inr hother

/-! The close frame that ends the connection comes with the end of reading. -/

/-- The jobs that enter are as `P` says. -/
def Gains (P : Job → Prop) (e e' : Endpoint) : Prop :=
  ∀ j ∈ e'.outbox.queue, j ∈ e.outbox.queue ∨ P j

theorem Gains.trans {P : Job → Prop} {e'' : Endpoint} (h : Gains P e e') (h' : Gains P e' e'') :
    Gains P e e'' := by
  intro j hj
  rcases h' j hj with hj | hp
  · exact h j hj
  · exact .inr hp

theorem Gains.of_same {P : Job → Prop} (h : e'.outbox.queue = e.outbox.queue) : Gains P e e' := by
  intro j hj
  rw [h] at hj
  exact .inl hj

/-- The jobs that enter do not end the connection. -/
abbrev Plain : Endpoint → Endpoint → Prop := Gains fun j => j.last = false

section

variable {fits : Nat → Nat → Prop} {P : Job → Prop}

theorem Entered.gains {makes : Job → Prop} {a : Attempt} (h : Entered fits makes e a)
    (hP : ∀ f g j, Follows e.masks fits f j g → makes j → P j) : Gains P e a.1 := by
  cases h with
  | refused => exact .of_same rfl
  | accepted j f keys timer hj hm =>
    intro i hi
    rcases List.mem_append.mp hi with hi | hi
    · exact .inl hi
    · rw [List.mem_singleton.mp hi]
      exact .inr (hP _ f j hj.follows hm)

theorem Entered.plain {makes : Job → Prop} {a : Attempt} (h : Entered fits makes e a)
    (hmakes : ∀ j, makes j → j.kind = .close → j.last = false) : Plain e a.1 := by
  refine h.gains fun f g j hj hm => ?_
  cases hl : j.last with
  | false => rfl
  | true =>
    have hfirst := hmakes j hm (hj.kind_of_last hl)
    exact absurd (hfirst.symm.trans hl) Bool.false_ne_true

theorem Entered.closed {makes : Job → Prop} {a : Attempt} (h : Entered fits makes e a) :
    a.1.life.closed = e.life.closed := by
  cases h <;> rfl

theorem last_of_makes {c : WriteCall} {j : Job} (h : c.Makes j) (hk : j.kind = .close) :
    j.last = false := by
  cases c with
  | firstChunk | message => exact absurd (hk.symm.trans h.1) (by simp)
  | continuation | ping | pong => exact absurd (hk.symm.trans h.1) (by simp)
  | close => exact h.2.1

theorem writeAll_gains (h : e.Sending fits) (cs : List WriteCall)
    (hcs : ∀ c ∈ cs, c.Within fits)
    (hP : ∀ c ∈ cs, ∀ masked f g j, Follows masked fits f j g → c.Makes j → P j) :
    Gains P e (e.writeAll cs).1 := by
  induction cs generalizing e with
  | nil => exact .of_same rfl
  | cons c cs ih =>
    have hfirst := write_entered h (hcs c (by simp))
    have hrest := ih (hfirst.acts.sending h) (fun c' hc => hcs c' (by simp [hc]))
      fun c' hc => hP c' (by simp [hc])
    exact (hfirst.gains (hP c (by simp) e.masks)).trans hrest

theorem writeAll_plain (h : e.Sending fits) (cs : List WriteCall)
    (hcs : ∀ c ∈ cs, c.Within fits) :
    Plain e (e.writeAll cs).1 ∧ (e.writeAll cs).1.life.closed = e.life.closed := by
  induction cs generalizing e with
  | nil => exact ⟨.of_same rfl, rfl⟩
  | cons c cs ih =>
    have hfirst := write_entered h (hcs c (by simp))
    obtain ⟨hplain, hclosed⟩ := ih (hfirst.acts.sending h) fun c' hc =>
      hcs c' (by simp [hc])
    exact ⟨(hfirst.plain fun _ => last_of_makes).trans hplain, hclosed.trans hfirst.closed⟩

theorem notify_plain (h : e.Sending fits) (hcalls : ∀ c ∈ e.callbacks.calls, c.Within fits)
    (c : Control) : Plain e (e.notify c) ∧ (e.notify c).life.closed = e.life.closed :=
  writeAll_plain h (e.callbacks.onControl.getD []) fun c hc =>
    hcalls c (List.mem_append_right _ hc)

theorem answerPing_plain (h : e.Sending fits) {payload : Bytes}
    (hlen : payload.length ≤ maxControlPayload) : Plain e (e.answerPing payload) :=
  (queuePong_entered h hlen).plain fun _ hj hk => absurd (hk.symm.trans hj.1) (by simp)

def GoesOn (e e' : Endpoint) : Prop :=
  e'.reader.finished = true ∨ e'.reader.finished = e.reader.finished ∧ Plain e e'

theorem GoesOn.of_same (hf : e'.reader.finished = e.reader.finished) (ho : e'.outbox = e.outbox) :
    GoesOn e e' :=
  .inr ⟨hf, .of_same (by rw [ho])⟩

/-- Reading goes on or ends, and while it goes on the connection stays as it is. -/
def StaysOn (e e' : Endpoint) : Prop :=
  e'.reader.finished = true ∨ e'.reader.finished = e.reader.finished ∧ Plain e e' ∧
    e'.life.closed = e.life.closed

theorem StaysOn.goesOn (h : StaysOn e e') : GoesOn e e' :=
  h.imp_right fun ⟨hfin, hplain, _⟩ => ⟨hfin, hplain⟩

def Mute (e e' : Endpoint) : Prop :=
  e'.reader.finished = true ∨ e'.reader.finished = e.reader.finished ∧ e'.outgoing = e.outgoing

theorem Mute.staysOn (h : Mute e e') : StaysOn e e' :=
  h.imp_right fun ⟨hfin, ho⟩ =>
    ⟨hfin, .of_same (congrArg (·.outbox.queue) ho), congrArg Outgoing.closed ho⟩

theorem rejectPeer_mute (d : Endpoint) (v : Violation) : Mute e (d.rejectPeer v) := .inl rfl

theorem readHeaderPiece_mute (e : Endpoint) (p : HeaderProgress) (piece : Bytes) :
    Mute e (e.readHeaderPiece p piece) := by
  unfold readHeaderPiece
  split
  · exact rejectPeer_mute _ _
  · exact .inr ⟨rfl, rfl⟩
  · unfold openFrame
    split
    · exact rejectPeer_mute _ _
    · exact .inr ⟨rfl, rfl⟩
    · split
      · exact .inr ⟨rfl, rfl⟩
      · exact rejectPeer_mute _ _

theorem deliverText_mute (e : Endpoint) (c : Chunk) : Mute e (e.deliverText c) := by
  unfold deliverText
  dsimp only
  split
  · exact rejectPeer_mute _ _
  · split
    · exact rejectPeer_mute _ _
    · exact .inr ⟨rfl, rfl⟩

theorem readData_mute (e : Endpoint) (f : IncomingFrame) (piece : Bytes) :
    Mute e (e.readData f piece) := by
  have htext : ∀ stage c, Mute e ((e.setStage stage).deliverText c) := fun stage c =>
    deliverText_mute (e.setStage stage) c
  unfold readData
  dsimp only
  by_cases hb : f.kind.isBinary = true
  · rw [if_pos hb]
    exact .inr ⟨rfl, rfl⟩
  · rw [if_neg hb]
    exact htext _ _

theorem readControl_staysOn (h : e.Sending fits)
    (hcalls : ∀ c ∈ e.callbacks.calls, c.Within fits) (hd : Header) (piece : Bytes) :
    StaysOn e (e.readControl hd piece) := by
  unfold readControl
  split
  · exact (rejectPeer_mute _ _).staysOn
  · exact .inr ⟨rfl, .of_same rfl, rfl⟩
  · next c _ =>
    cases c with
    | close p =>
      unfold handleControl
      dsimp only
      split <;> exact .inl rfl
    | ping payload =>
      have hnote := notify_plain h hcalls (.ping payload)
      exact .inr ⟨by simp [handleControl, notify, setStage], hnote⟩
    | pong payload =>
      have hnote := notify_plain h hcalls (.pong payload)
      exact .inr ⟨by simp [handleControl, notify, setStage], hnote⟩

theorem readerStep_staysOn (h : e.Sending fits) (hstage : e.reader.stage.Bounded)
    (hcalls : ∀ c ∈ e.callbacks.calls, c.Within fits) (hstep : e.readerStep = some e') :
    StaysOn e e' := by
  have hinput : ∀ rest, Shift fits e (e.setInput rest) := fun rest => .of_same rfl rfl rfl
  have hsame : ∀ rest {d}, StaysOn (e.setInput rest) d → StaysOn e d := fun _ _ hd => hd
  cases (readerStep_cases hstep).2 with
  | leave | fail => exact .inl rfl
  | finish =>
    unfold endOfStream
    split
    · exact .inl rfl
    · split <;> exact .inl rfl
  | header p piece rest => exact hsame rest (readHeaderPiece_mute _ _ _).staysOn
  | data f piece rest => exact hsame rest (readData_mute _ _ _).staysOn
  | control c piece rest =>
    exact hsame rest (readControl_staysOn (h.shift (hinput rest)) hcalls _ _)
  | answer payload hopen hs =>
    rw [hs] at hstage
    exact .inr ⟨by simp [answerPing], answerPing_plain h hstage,
      (queuePong_entered h hstage).closed⟩

theorem accept_goesOn (h : e.Sending fits) {ev : Event}
    (hev : ∀ c, ev = .write c → c.Within fits) : GoesOn e (e.accept ev).1 := by
  cases ev with
  | write c =>
    rw [fst_accept_write]
    split
    · exact .inr ⟨by rw [reader_write], (write_entered h (hev c rfl)).plain fun _ => last_of_makes⟩
    · exact .of_same rfl rfl
  | read m =>
    unfold accept
    dsimp only
    split <;> exact .of_same rfl rfl
  | _ => exact .of_same rfl rfl

theorem timerStep_goesOn (h : e.timerStep = some e') : GoesOn e e' := by
  refine .inr ⟨by rw [(sendingWork_timerStep h).1], .of_same ?_⟩
  obtain ⟨t, -, -, rfl⟩ := timerStep_cases h
  rw [outbox_teardown]

/-- As long as the connection is read and this end is not closing, it has handed in no close
frame. -/
def Fresh (e : Endpoint) : Prop :=
  e.life.closing = false → e.reader.finished = false → ∀ j ∈ e.outgoing.lineUp, j.kind ≠ .close

theorem Fresh.free (h : Fresh e) (hsend : e.Sending fits) (hcl : e.life.closing = false)
    (hfin : e.reader.finished = false) : e.outbox.slots.isBusy .close = false := by
  rw [← Bool.not_eq_true]
  intro hbusy
  obtain ⟨j, hj, hk⟩ := List.mem_map.mp ((hsend.slotted.busy .close).mp hbusy)
  exact h hcl hfin j (Outgoing.mem_lineUp_of_held hj) hk

theorem Fresh.shift (h : Fresh e) (hs : Shift fits e e') (hg : GoesOn e e')
    (hsend : e'.Sending fits) : Fresh e' := by
  intro hc hf j hj hk
  rcases hg with hg | ⟨hfin, hplain⟩
  · exact absurd (hf.symm.trans hg) Bool.false_ne_true
  rw [hfin] at hf
  have hold : j ∉ e.outgoing.lineUp := fun hj => h (hs.closing hc) hf j hj hk
  rcases hs.mem_lineUp hj with hj | hj
  · exact hold hj
  · rcases hplain j hj with hj | hl
    · exact hold (Outgoing.mem_lineUp_of_held (Outgoing.mem_held_of_queue hj))
    · have := hsend.closes.announced j (Outgoing.mem_held_of_queue hj) hk hl
      exact absurd (hc.symm.trans this) Bool.false_ne_true

theorem Fresh.write (h : Fresh e) (hsend : e.Sending fits) (hstep : e.writerStep = some e') :
    Fresh e' := by
  intro hc hf j hj
  rw [(writerStep_calls hstep).2.2] at hc
  rw [(sendingWork_writerStep hstep).1] at hf
  exact h hc hf j ((lineUp_writerStep hsend hstep).mem_iff.mp hj)

theorem Fresh.step {ok : Event → Prop} (h : Fresh e) (hin : e.InOrder fits)
    (hok : ∀ c, ok (.write c) → c.Within fits) (hs : Step ok e e') : Fresh e' := by
  have hafter := hin.step hok hs
  cases hs with
  | event ev hev =>
    have hev : ∀ c, ev = .write c → c.Within fits := fun c hc => hok c (hc ▸ hev)
    exact h.shift (accept_shift hin.sending hev) (accept_goesOn hin.sending hev) hafter.sending
  | reader hr =>
    exact h.shift (readerStep_acts hin.sending hin.stage hin.calls hr).reaction.toShift
      (readerStep_staysOn hin.sending hin.stage hin.calls hr).goesOn hafter.sending
  | writer hw => exact h.write hin.sending hw
  | timer ht =>
    exact h.shift (timerStep_reaction ht).toShift (timerStep_goesOn ht) hafter.sending
  | turn t => exact h

theorem Fresh.opened (config : Config) (callbacks : Callbacks) (keys : Nat → Key)
    (quota maxWrite : Option Nat) (hcalls : ∀ c ∈ callbacks.calls, c.Within fits) :
    Fresh (opened config callbacks keys quota maxWrite) := by
  have hs : (fresh config callbacks keys (.fresh quota maxWrite)).Sending fits :=
    initial_sending config callbacks keys quota maxWrite
  have hcs : ∀ c ∈ callbacks.onConnect.getD [], c.Within fits := fun c hc =>
    hcalls c (List.mem_append_left _ hc)
  have hfresh : Fresh (fresh config callbacks keys (.fresh quota maxWrite)) :=
    fun _ _ => List.forall_mem_nil _
  have hshift := (writeAll_acts hs _ hcs).reaction.toShift
  refine hfresh.shift hshift (.inr ⟨?_, (writeAll_plain hs _ hcs).1⟩) (hs.shift hshift)
  rw [Endpoint.opened, reader_writeAll]

theorem Run.fresh {ok : Event → Prop} {past : List Endpoint} (h : Run ok (e :: past))
    (hok : ∀ c, ok (.write c) → c.Within fits) : Fresh e :=
  h.always (Q := fun _ c => Fresh c) hok Fresh.opened fun _ _ _ _ hin hs hfresh =>
    hfresh.step hin hok hs

end

end Endpoint

end WebSocket
