import WebSocket.Endpoint.Event
import WebSocket.Proofs.Endpoint.Steps

/-! Runs of an end. Any party may go on at any time, and an event may come at any time; an end that
deals with events one by one makes such runs. -/

namespace WebSocket.Endpoint

/-- An end whose application has just been told of it. -/
def opened (config : Config) (callbacks : Callbacks) (keys : Nat → Key)
    (quota maxWrite : Option Nat) : Endpoint :=
  ((fresh config callbacks keys (.fresh quota maxWrite)).writeAll
    (callbacks.onConnect.getD [])).1

/-- One step of an end at which the events in `ok` can happen. -/
inductive Step (ok : Event → Prop) : Endpoint → Endpoint → Prop where
  | event {e : Endpoint} (ev : Event) (h : ok ev) : Step ok e (e.accept ev).1
  | reader {e e' : Endpoint} (h : e.readerStep = some e') : Step ok e e'
  | writer {e e' : Endpoint} (h : e.writerStep = some e') : Step ok e e'
  | timer {e e' : Endpoint} (h : e.timerStep = some e') : Step ok e e'
  | turn (e : Endpoint) (t : Turn) : Step ok e (e.giveTurn t)

theorem Step.mono {ok ok' : Event → Prop} {e e' : Endpoint} (hs : Step ok e e')
    (h : ∀ ev, ok ev → ok' ev) : Step ok' e e' := by
  cases hs with
  | event ev hev => exact .event ev (h ev hev)
  | reader hr => exact .reader hr
  | writer hw => exact .writer hw
  | timer ht => exact .timer ht
  | turn t => exact .turn e t

/-- The states of a run, the latest first. -/
inductive Run (ok : Event → Prop) : List Endpoint → Prop where
  | start (config : Config) (callbacks : Callbacks) (keys : Nat → Key)
      (quota maxWrite : Option Nat) (hcalls : ∀ c ∈ callbacks.calls, ok (.write c)) :
      Run ok [opened config callbacks keys quota maxWrite]
  | step {e e' : Endpoint} {past : List Endpoint} (h : Run ok (e :: past)) (hs : Step ok e e') :
      Run ok (e' :: e :: past)

structure InOrder (fits : Nat → Nat → Prop) (e : Endpoint) : Prop where
  sending : e.Sending fits
  stage : e.reader.stage.Bounded
  calls : ∀ c ∈ e.callbacks.calls, c.Within fits

variable {ok : Event → Prop} {fits : Nat → Nat → Prop} {e e' d d' : Endpoint}
  {past : List Endpoint}

/-- What holds at one state of a run and is kept by every step from there on. -/
theorem Run.onward {Q : Endpoint → Prop} (h : Run ok (e :: past)) (hd : d ∈ e :: past) (hq : Q d)
    (hstep : ∀ c c' past, Run ok (c :: past) → d ∈ c :: past → Step ok c c' → Q c → Q c') :
    Q e := by
  generalize hs : e :: past = states at h
  induction h generalizing e past with
  | start =>
    cases hs
    rwa [← List.mem_singleton.mp hd]
  | step h hnext ih =>
    cases hs
    rcases List.mem_cons.mp hd with rfl | hd
    · exact hq
    · exact hstep _ _ _ h hd hnext (ih hd rfl)

theorem Run.of_mem (h : Run ok (e :: past)) (hd : d ∈ e :: past) :
    ∃ earlier, Run ok (d :: earlier) := by
  generalize hs : e :: past = states at h
  induction h generalizing e past with
  | start config callbacks keys quota maxWrite hcalls =>
    cases hs
    rw [List.mem_singleton.mp hd]
    exact ⟨[], .start config callbacks keys quota maxWrite hcalls⟩
  | @step c c' earlier h hnext ih =>
    cases hs
    rcases List.mem_cons.mp hd with rfl | hd
    · exact ⟨c :: earlier, h.step hnext⟩
    · exact ih hd rfl

def Passes (states : List Endpoint) (d d' : Endpoint) : Prop := [d', d] <:+: states

theorem Run.of_passes (h : Run ok (e :: past)) (hp : Passes (e :: past) d d') :
    d' ∈ e :: past ∧ Step ok d d' ∧ ∃ earlier, Run ok (d :: earlier) := by
  refine ⟨hp.subset (by simp), ?_⟩
  generalize hs : e :: past = states at h
  induction h generalizing e past with
  | start =>
    cases hs
    have := hp.length_le
    simp at this
  | @step c c' earlier h hnext ih =>
    cases hs
    rcases List.infix_cons_iff.mp hp with hpre | hp
    · obtain ⟨hfirst, hpre⟩ := List.cons_prefix_cons.mp hpre
      obtain ⟨hsecond, -⟩ := List.cons_prefix_cons.mp hpre
      rw [hfirst, hsecond]
      exact ⟨hnext, earlier, h⟩
    · exact ih hp rfl

/-! What an end does on its own is a run. -/

theorem tick_step (h : e.tick = some e') :
    Step ok e e' ∨ ∃ d t, Step ok e d ∧ e' = d.giveTurn t := by
  rcases tick_parties h with ⟨w, hw, ⟨-, rfl⟩ | rfl⟩ | ⟨d, hd, hsame, -⟩
  · exact .inl (.writer hw)
  · exact .inr ⟨w, .writer, .writer hw, rfl⟩
  · have hstep : Step ok e d := by
      rcases hd with hd | hd
      · exact .reader hd
      · exact .timer hd
    rcases hsame with rfl | rfl
    · exact .inl hstep
    · exact .inr ⟨d, .reader, hstep, rfl⟩

theorem settle_steps (ok : Event → Prop) (e : Endpoint) :
    Relation.ReflTransGen (Step ok) e e.settle := by
  fun_induction Endpoint.settle e with
  | case1 e hrest => exact .refl
  | case2 e e' hgo ih =>
    have hstep : Step ok e e' ∨ ∃ d t, Step ok e d ∧ e' = d.giveTurn t := tick_step hgo
    rcases hstep with hs | ⟨d, t, hs, rfl⟩
    · exact .head hs ih
    · exact .head hs (.head (.turn d t) ih)

theorem handle_steps {ok : Event → Prop} (e : Endpoint) (ev : Event) (hev : ok ev) :
    Relation.ReflTransGen (Step ok) e (e.handle ev).1 :=
  .head (.event ev hev) (.head (.turn _ .reader) (settle_steps ok _))

theorem Run.settle (h : Run ok (e :: past)) : ∃ later, Run ok (e.settle :: later ++ past) := by
  fun_induction Endpoint.settle e generalizing past with
  | case1 e hrest => exact ⟨[], h⟩
  | case2 e e' hgo ih =>
    have hstep : Step ok e e' ∨ ∃ d t, Step ok e d ∧ e' = d.giveTurn t := tick_step hgo
    rcases hstep with hs | ⟨d, t, hs, rfl⟩
    · obtain ⟨later, hl⟩ := ih (h.step hs)
      exact ⟨later ++ [e], by simpa using hl⟩
    · obtain ⟨later, hl⟩ := ih ((h.step hs).step (.turn d t))
      exact ⟨later ++ [d, e], by simpa using hl⟩

theorem fst_accept_write (c : WriteCall) :
    (e.accept (.write c)).1 = if e.held then (e.write c).1 else e := by
  unfold accept
  dsimp only
  split
  · split <;> next heq => rw [heq]
  · rfl

@[simp] theorem stage_accept (e : Endpoint) (ev : Event) :
    (e.accept ev).1.reader.stage = e.reader.stage := by
  cases ev with
  | write c =>
    rw [fst_accept_write]
    split <;> simp
  | read m =>
    unfold accept
    dsimp only
    split <;> rfl
  | _ => rfl

theorem reads_accept (e : Endpoint) (ev : Event) :
    (e.accept ev).1.reader.reads = e.reader.reads ∧
      (e.accept ev).1.reader.finished = e.reader.finished := by
  cases ev with
  | write c =>
    rw [fst_accept_write]
    split
    · rw [reader_write]
      exact ⟨rfl, rfl⟩
    · exact ⟨rfl, rfl⟩
  | read m =>
    unfold accept
    dsimp only
    split <;> exact ⟨rfl, rfl⟩
  | _ => exact ⟨rfl, rfl⟩

/-- Goes on for less than `n` steps; none if the end is not at rest then. -/
def settleWithin : Nat → Endpoint → Option Endpoint
  | 0, _ => none
  | n + 1, e =>
    match e.tick with
    | none => some e
    | some e' => settleWithin n e'

theorem settle_of_within {n : Nat} (h : e.settleWithin n = some e') : e.settle = e' := by
  induction n generalizing e with
  | zero => cases h
  | succ n ih =>
    rw [Endpoint.settle]
    rw [settleWithin] at h
    split
    · next hrest =>
      rw [hrest] at h
      exact Option.some.inj h
    · next hgo =>
      rw [hgo] at h
      exact ih h

theorem Run.handle (h : Run ok (e :: past)) (ev : Event) (hev : ok ev) :
    ∃ later, Run ok ((e.handle ev).1 :: later ++ e :: past) := by
  obtain ⟨later, hl⟩ := ((h.step (.event ev hev)).step (.turn _ .reader)).settle
  exact ⟨later ++ [(e.accept ev).1], by simpa [Endpoint.handle] using hl⟩

def handleAll (n : Nat) (e : Endpoint) : List Event → Option Endpoint
  | [] => some e
  | ev :: evs =>
    match ((e.accept ev).1.giveTurn .reader).settleWithin n with
    | none => none
    | some e' => handleAll n e' evs

theorem handle_of_all {n : Nat} {evs : List Event} (h : e.handleAll n evs = some e') :
    evs.foldl (fun e ev => (e.handle ev).1) e = e' := by
  induction evs generalizing e with
  | nil => exact Option.some.inj h
  | cons ev evs ih =>
    rw [handleAll] at h
    split at h
    · cases h
    · next d hd =>
      rw [List.foldl_cons, show (e.handle ev).1 = d from settle_of_within hd]
      exact ih h

/-- Dealing with events makes a run longer. What is seen at its end can be computed. -/
theorem Run.handleAll_onward {α : Type} {f : Endpoint → α} {y : α} {n : Nat}
    (h : Run ok (e :: past)) (evs : List Event) (hevs : ∀ ev ∈ evs, ok ev)
    (hy : (e.handleAll n evs).map f = some y) :
    ∃ e' past', Run ok (e' :: past') ∧ f e' = y ∧ e :: past <:+ e' :: past' := by
  induction evs generalizing e past with
  | nil => exact ⟨e, past, h, Option.some.inj hy, List.suffix_rfl⟩
  | cons ev evs ih =>
    rw [Endpoint.handleAll] at hy
    split at hy
    · simp at hy
    · next d hd =>
      obtain ⟨later, hl⟩ := h.handle ev (hevs ev (by simp))
      rw [show (e.handle ev).1 = d from settle_of_within hd] at hl
      obtain ⟨e', past', hrun, hsame, hsuffix⟩ := ih hl (fun ev' hm => hevs ev' (by simp [hm])) hy
      exact ⟨e', past', hrun, hsame, (List.suffix_append (d :: later) (e :: past)).trans hsuffix⟩

theorem Run.handleAll {α : Type} {f : Endpoint → α} {y : α} {n : Nat} (h : Run ok (e :: past))
    (evs : List Event) (hevs : ∀ ev ∈ evs, ok ev) (hy : (e.handleAll n evs).map f = some y) :
    ∃ e' past', Run ok (e' :: past') ∧ f e' = y := by
  obtain ⟨e', past', hrun, hsame, -⟩ := h.handleAll_onward evs hevs hy
  exact ⟨e', past', hrun, hsame⟩

/-! What a step does to the sending side. -/

theorem accept_shift (h : e.Sending fits) {ev : Event}
    (hev : ∀ c, ev = .write c → c.Within fits) : Shift fits e (e.accept ev).1 := by
  cases ev with
  | write c =>
    rw [fst_accept_write]
    split
    · exact (write_entered h (hev c rfl)).acts.reaction.toShift
    · exact .refl e
  | read m =>
    unfold accept
    dsimp only
    split
    · exact .of_same rfl rfl rfl
    · exact .refl e
  | _ => exact .of_same rfl rfl rfl

theorem timerStep_reaction (h : e.timerStep = some e') : Reaction fits e e' := by
  obtain ⟨t, -, -, rfl⟩ := timerStep_cases h
  have hoff : Reaction fits e { e with life := { e.life with timer := none } } :=
    ⟨.of_same rfl rfl rfl, rfl, rfl, rfl, .off⟩
  exact hoff.trans (.teardown _)

theorem Step.shift_or (hs : Step ok e e') (h : e.InOrder fits)
    (hok : ∀ c, ok (.write c) → c.Within fits) : Shift fits e e' ∨ e.writerStep = some e' := by
  cases hs with
  | event ev hev => exact .inl (accept_shift h.sending fun c hc => hok c (hc ▸ hev))
  | reader hr => exact .inl (readerStep_acts h.sending h.stage h.calls hr).reaction.toShift
  | writer hw => exact .inr hw
  | timer ht => exact .inl (timerStep_reaction ht).toShift
  | turn t => exact .inl (.of_same rfl rfl rfl)

theorem Step.config_eq (hs : Step ok e e') (h : e.InOrder fits)
    (hok : ∀ c, ok (.write c) → c.Within fits) : e'.config = e.config := by
  rcases hs.shift_or h hok with hshift | hw
  · exact hshift.config
  · exact (writerStep_settings hw).1

theorem Step.closed (hs : Step ok e e') (h : e.InOrder fits)
    (hok : ∀ c, ok (.write c) → c.Within fits) (hc : e.life.closed = true) :
    e'.life.closed = true := by
  rcases hs.shift_or h hok with hshift | hw
  · exact (congrArg Outgoing.closed (hshift.of_closed hc)).trans hc
  · rcases writerStep_life hw with hlife | hshut
    · exact (congrArg Life.closed hlife).trans hc
    · exact hshut

theorem Step.nextSerial_of_closed (hs : Step ok e e') (h : e.InOrder fits)
    (hok : ∀ c, ok (.write c) → c.Within fits) (hc : e.life.closed = true) :
    e'.outbox.nextSerial = e.outbox.nextSerial := by
  rcases hs.shift_or h hok with hshift | hw
  · exact congrArg (·.outbox.nextSerial) (hshift.of_closed hc)
  · exact (writerStep_calls hw).2.1

theorem Step.closing_of_closed (hs : Step ok e e') (h : e.InOrder fits)
    (hok : ∀ c, ok (.write c) → c.Within fits) (hc : e.life.closed = true) :
    e'.life.closing = e.life.closing := by
  rcases hs.shift_or h hok with hshift | hw
  · exact congrArg Outgoing.closing (hshift.of_closed hc)
  · exact (writerStep_calls hw).2.2

theorem Step.wire_prefix (hs : Step ok e e') (h : e.InOrder fits)
    (hok : ∀ c, ok (.write c) → c.Within fits) :
    e.transport.wire.toList <+: e'.transport.wire.toList := by
  rcases hs.shift_or h hok with hshift | hw
  · exact hshift.wire ▸ List.prefix_rfl
  · have hm : Outgoing.Move e.masks fits e.outgoing e'.outgoing := writerStep_move hw
    exact hm.wire_prefix

theorem InOrder.step (h : e.InOrder fits) (hok : ∀ c, ok (.write c) → c.Within fits)
    (hs : Step ok e e') : e'.InOrder fits := by
  have hstage : e'.reader.stage.Bounded := by
    cases hs with
    | event ev hev =>
      rw [stage_accept]
      exact h.stage
    | reader hr => exact readerStep_bounded h.stage hr
    | writer hw =>
      rw [(sendingWork_writerStep hw).1]
      exact h.stage
    | timer ht =>
      rw [(sendingWork_timerStep ht).1]
      exact h.stage
    | turn t => exact h.stage
  rcases hs.shift_or h hok with hshift | hw
  · exact ⟨h.sending.shift hshift, hstage, by rw [hshift.callbacks]; exact h.calls⟩
  · obtain ⟨hc, hb, -⟩ := writerStep_settings hw
    refine ⟨?_, hstage, by rw [hb]; exact h.calls⟩
    rw [Sending, masks, hc, ← masks]
    exact h.sending.move (writerStep_move hw)

/-- Every step is made of moves of the sending side. -/
theorem Step.moves (hs : Step ok e e') (h : e.InOrder fits)
    (hok : ∀ c, ok (.write c) → c.Within fits) :
    Relation.ReflTransGen (Outgoing.Move e.masks fits) e.outgoing e'.outgoing := by
  rcases hs.shift_or h hok with hshift | hw
  · exact Relation.ReflTransGen.mono (fun _ _ => Outgoing.Entry.move) _ _ hshift.entries
  · exact .single (writerStep_move hw)

theorem initial_sending (config : Config) (callbacks : Callbacks) (keys : Nat → Key)
    (quota maxWrite : Option Nat) :
    (fresh config callbacks keys (.fresh quota maxWrite)).Sending fits := Outgoing.Sound.initial

theorem opened_acts (config : Config) (callbacks : Callbacks) (keys : Nat → Key)
    (quota maxWrite : Option Nat) (hcalls : ∀ c ∈ callbacks.calls, c.Within fits) :
    Acts fits (fresh config callbacks keys (.fresh quota maxWrite))
      (opened config callbacks keys quota maxWrite) :=
  writeAll_acts (initial_sending config callbacks keys quota maxWrite) _ fun c hc =>
    hcalls c (List.mem_append_left _ hc)

theorem config_opened (config : Config) (callbacks : Callbacks) (keys : Nat → Key)
    (quota maxWrite : Option Nat) :
    (opened config callbacks keys quota maxWrite).config = config := by
  have hacts : Acts (fun _ _ => True) _ (opened config callbacks keys quota maxWrite) :=
    opened_acts config callbacks keys quota maxWrite fun c _ => c.within_any
  exact hacts.reaction.config

theorem InOrder.opened (config : Config) (callbacks : Callbacks) (keys : Nat → Key)
    (quota maxWrite : Option Nat) (hcalls : ∀ c ∈ callbacks.calls, c.Within fits) :
    (opened config callbacks keys quota maxWrite).InOrder fits := by
  have hacts := opened_acts config callbacks keys quota maxWrite hcalls
  refine ⟨hacts.sending (initial_sending config callbacks keys quota maxWrite), ?_, ?_⟩
  · rw [Endpoint.opened, reader_writeAll]
    trivial
  · rw [show (Endpoint.opened config callbacks keys quota maxWrite).callbacks = callbacks from
      hacts.reaction.callbacks]
    exact hcalls

/-- Everything is in order throughout a run. -/
theorem Run.inOrder (h : Run ok (e :: past)) (hok : ∀ c, ok (.write c) → c.Within fits) :
    e.InOrder fits := by
  generalize hs : e :: past = states at h
  induction h generalizing e past with
  | start config callbacks keys quota maxWrite hcalls =>
    cases hs
    exact .opened config callbacks keys quota maxWrite fun c hc => hok c (hcalls c hc)
  | step h hstep ih =>
    cases hs
    exact (ih rfl).step hok hstep

/-- What holds when the application has been told of the connection, and is kept by every step,
holds throughout a run. -/
theorem Run.always {Q : List Endpoint → Endpoint → Prop} (h : Run ok (e :: past))
    (hok : ∀ c, ok (.write c) → c.Within fits)
    (hstart : ∀ config callbacks keys quota maxWrite, (∀ c ∈ callbacks.calls, c.Within fits) →
      Q [opened config callbacks keys quota maxWrite] (opened config callbacks keys quota maxWrite))
    (hstep : ∀ c c' past, Run ok (c :: past) → c.InOrder fits → Step ok c c' → Q (c :: past) c →
      Q (c' :: c :: past) c') : Q (e :: past) e := by
  generalize hs : e :: past = states at h
  induction h generalizing e past with
  | start config callbacks keys quota maxWrite hcalls =>
    cases hs
    exact hstart config callbacks keys quota maxWrite fun c hc => hok c (hcalls c hc)
  | step h hnext ih =>
    cases hs
    exact hstep _ _ _ h (h.inOrder hok) hnext (ih rfl)

/-- What holds of the sending side at one state of a run, and is kept by every move, holds from
there on. -/
theorem Run.carry {P : Outgoing → Prop} (h : Run ok (e :: past))
    (hok : ∀ c, ok (.write c) → c.Within fits) (hd : d ∈ e :: past) (hp : P d.outgoing)
    (hmove : ∀ o o', o.Sound d.masks fits → Outgoing.Move d.masks fits o o' → P o → P o') :
    P e.outgoing := by
  have : e.masks = d.masks ∧ P e.outgoing := by
    refine h.onward (Q := fun c => c.masks = d.masks ∧ P c.outgoing) hd ⟨rfl, hp⟩ ?_
    rintro c c' earlier hrun - hs ⟨hmasks, hp⟩
    have hin := hrun.inOrder hok
    refine ⟨by rw [masks, hs.config_eq hin hok, ← masks, hmasks], ?_⟩
    have hsound := hin.sending
    have hmoves := hs.moves hin hok
    rw [Sending, hmasks] at hsound
    rw [hmasks] at hmoves
    have : ∀ o, Relation.ReflTransGen (Outgoing.Move d.masks fits) c.outgoing o →
        o.Sound d.masks fits ∧ P o := by
      intro o ho
      induction ho with
      | refl => exact ⟨hsound, hp⟩
      | tail _ hm ih => exact ⟨ih.1.move hm, hmove _ _ ih.1 hm ih.2⟩
    exact (this _ hmoves).2
  exact this.2

def HadWriter (states : List Endpoint) (w : Writer) : Prop := ∃ d ∈ states, d.writer = w

/-- What every move keeps, as the states pile up, holds throughout a run. -/
theorem Run.lift {P : List Endpoint → Bool → Outgoing → Prop}
    (hinit : ∀ states masked, P states masked .initial)
    (hpast : ∀ e states masked o, P states masked o → P (e :: states) masked o)
    (hmove : ∀ states masked o o', o.Sound masked fits → HadWriter states o.writer →
      Outgoing.Move masked fits o o' → P states masked o → P states masked o')
    (hok : ∀ c, ok (.write c) → c.Within fits) (h : Run ok (e :: past)) :
    P (e :: past) e.masks e.outgoing := by
  have hshift : ∀ {states : List Endpoint} {d d' : Endpoint}, HadWriter states d.writer →
      d.Sending fits → P states d.masks d.outgoing → Shift fits d d' →
      P states d'.masks d'.outgoing := by
    intro states d d' hw hs hp hd
    rw [hd.masks]
    refine (hd.lift (P := fun o => o.writer = d.writer ∧ P states d.masks o) hs ⟨rfl, hp⟩ ?_).2
    rintro o o' hsound hm ⟨hsame, hp⟩
    exact ⟨hm.writer_eq.trans hsame, hmove _ _ _ _ hsound (hsame ▸ hw) hm.move hp⟩
  generalize hs : e :: past = states at h
  induction h generalizing e past with
  | start config callbacks keys quota maxWrite hcalls =>
    cases hs
    have hd := (opened_acts config callbacks keys quota maxWrite fun c hc =>
      hok c (hcalls c hc)).reaction.toShift
    refine hshift ⟨_, List.mem_singleton_self _, ?_⟩
      (initial_sending config callbacks keys quota maxWrite) (hinit _ _) hd
    exact hd.writer
  | @step d d' past' h hstep ih =>
    cases hs
    have hin := h.inOrder hok
    have hw : HadWriter (d' :: d :: past') d.writer := ⟨d, by simp, rfl⟩
    have hp := hpast d' _ _ _ (ih rfl)
    rcases hstep.shift_or hin hok with hd | hd
    · exact hshift hw hin.sending hp hd
    · rw [masks, (writerStep_settings hd).1, ← masks]
      exact hmove _ _ _ _ hin.sending hw (writerStep_move hd) hp

end WebSocket.Endpoint
