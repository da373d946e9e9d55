import WebSocket.Proofs.Endpoint.Run

/-! The close timer. A close frame arms it as it is handed in, and while the connection is open
there is one close frame at most, so that the timer is armed once. A teardown turns it off. -/

namespace WebSocket

namespace Outgoing

def closes (o : Outgoing) : List Job := o.lineUp.filter (·.kind = .close)

variable {masked : Bool} {fits : Nat → Nat → Prop} {o o' : Outgoing}

theorem mem_closes {j : Job} : j ∈ o.closes ↔ j ∈ o.lineUp ∧ j.kind = .close := by
  rw [closes, List.mem_filter, decide_eq_true_eq]

theorem closes_perm (h : o'.lineUp.Perm o.lineUp) : o'.closes.Perm o.closes := h.filter _

theorem Sound.closes_eq_nil (h : o.Sound masked fits) {j : Job} {f : OutgoingFrame}
    (hj : Enters masked fits o j f) (hk : j.kind = .close) : o.closes = [] := by
  have hcl : o.closing = false := by
    apply Bool.eq_false_iff.mpr
    intro hc
    exact absurd (hk.symm.trans (hj.closing hc)) (by simp)
  have hsent : o.writer.closeSent = false := by
    apply Bool.eq_false_iff.mpr
    intro hs
    exact absurd (hcl.symm.trans (h.closes.spent hs).1) Bool.false_ne_true
  obtain ⟨g, hflow⟩ := h.flowing hj.running hsent
  apply List.filter_eq_nil_iff.mpr
  intro i hi
  rw [decide_eq_true_eq]
  intro hki
  rcases List.mem_append.mp hi with hi | hi
  · rw [h.all_written hj.running hsent, List.map_map] at hi
    obtain ⟨k, hk', rfl⟩ := List.mem_map.mp hi
    exact hflow.noClose k hk' hki
  · have hbusy : o.outbox.slots.isBusy .close = true :=
      (h.slotted.busy .close).mpr (hki ▸ List.mem_map_of_mem hi)
    have hfree := hj.slot
    rw [hk] at hfree
    exact absurd (hfree.symm.trans hbusy) Bool.false_ne_true

end Outgoing

namespace Endpoint

variable {ok : Event → Prop} {fits : Nat → Nat → Prop} {e e' : Endpoint} {past : List Endpoint}

/-! After a teardown the timer is off. -/

/-- The timer is not armed once the connection is closed. -/
def Disarmed (e : Endpoint) : Prop := e.life.closed = true → e.life.timer = none

theorem Disarmed.of_life (h : e.Disarmed) (hc : e'.life.closed = e.life.closed)
    (ht : e'.life.timer = e.life.timer) : e'.Disarmed := by
  intro hclosed
  rw [ht]
  exact h (hc ▸ hclosed)

theorem Disarmed.teardown (h : e.Disarmed) : e.teardown.Disarmed := by
  unfold Endpoint.teardown
  split
  · exact h
  · exact fun _ => rfl

theorem Disarmed.report (h : e.Disarmed) (err : Error) : (e.report err).Disarmed := by
  unfold Endpoint.report
  split
  · exact h
  · exact h

theorem Disarmed.stop (h : e.Disarmed) : e.stop.Disarmed :=
  Disarmed.teardown (e := e.abortWaiting) h

theorem Disarmed.act (h : e.Disarmed) (ha : Act fits e e') : e'.Disarmed := by
  cases ha with
  | read => exact h
  | report err => exact h.report err
  | teardown => exact h.teardown
  | attempt ha =>
    cases ha with
    | refused => exact h
    | accepted j f keys timer hj =>
      exact fun hclosed => absurd (hj.opened.symm.trans hclosed) Bool.false_ne_true

theorem Disarmed.acts (h : e.Disarmed) (hs : e.Sending fits) (ha : Acts fits e e') : e'.Disarmed :=
  ha.lift hs h fun _ _ _ ha h => h.act ha

theorem Disarmed.writerStep (h : e.Disarmed) (hw : e.writerStep = some e') : e'.Disarmed := by
  cases writerStep_cases hw with
  | cut job => exact Disarmed.stop (e := e.finish job .aborted) h
  | fail job _ f =>
    exact (Disarmed.report (e := e.finish job (.failed f)) h (.fault f)).stop
  | complete job =>
    unfold Endpoint.complete
    dsimp only
    split
    · exact (Disarmed.teardown (e := ((e.finish job .written).setWriterState .idle).setFrameOpen
        (0 < job.owed)) h).stop
    · split
      · exact h
      · exact h
  | put => exact h
  | takeHeld job rest =>
    have hlife := life_takeUp (e.setDeferred rest) job
    exact h.of_life (congrArg Life.closed hlife) (congrArg Life.timer hlife)
  | takeNew job rest =>
    have hlife := life_takeUp (e.setQueue rest) job
    exact h.of_life (congrArg Life.closed hlife) (congrArg Life.timer hlife)
  | stop => exact h.stop

/-- Only calls hand in jobs, and an event by itself closes nothing. -/
theorem life_accept (e : Endpoint) {ev : Event} (hev : ∀ c, ev ≠ .write c) :
    (e.accept ev).1.life.closed = e.life.closed ∧ (e.accept ev).1.life.timer = e.life.timer ∧
      (e.accept ev).1.outgoing.lineUp = e.outgoing.lineUp := by
  cases ev with
  | write c => exact absurd rfl (hev c)
  | read m =>
    unfold accept
    dsimp only
    split <;> exact ⟨rfl, rfl, rfl⟩
  | _ => exact ⟨rfl, rfl, rfl⟩

theorem accept_write_acts (h : e.Sending fits) {c : WriteCall} (hc : c.Within fits) :
    Acts fits e (e.accept (.write c)).1 := by
  rw [fst_accept_write]
  split
  · exact (write_entered h hc).acts
  · exact .refl e

theorem Disarmed.step (h : e.Disarmed) (hin : e.InOrder fits)
    (hok : ∀ c, ok (.write c) → c.Within fits) (hs : Step ok e e') : e'.Disarmed := by
  cases hs with
  | event ev hev =>
    by_cases hw : ∃ c, ev = .write c
    · obtain ⟨c, rfl⟩ := hw
      exact h.acts hin.sending (accept_write_acts hin.sending (hok c hev))
    · obtain ⟨hc, ht, -⟩ := life_accept e fun c hc => hw ⟨c, hc⟩
      exact h.of_life hc ht
  | reader hr => exact h.acts hin.sending (readerStep_acts hin.sending hin.stage hin.calls hr)
  | writer hw => exact h.writerStep hw
  | timer ht =>
    obtain ⟨t, -, -, rfl⟩ := timerStep_cases ht
    exact Disarmed.teardown (e := { e with life := { e.life with timer := none } }) fun _ => rfl
  | turn => exact h

theorem Run.disarmed (h : Run ok (e :: past)) (hok : ∀ c, ok (.write c) → c.Within fits) :
    e.Disarmed := by
  refine h.always (Q := fun _ c => c.Disarmed) hok ?_ fun _ _ _ _ hin hs hd => hd.step hin hok hs
  intro config callbacks keys quota maxWrite hcalls
  have hfresh : (Endpoint.fresh config callbacks keys (.fresh quota maxWrite)).Disarmed :=
    fun _ => rfl
  exact hfresh.acts (initial_sending config callbacks keys quota maxWrite)
    (opened_acts config callbacks keys quota maxWrite hcalls)

/-! The timer runs from the moment at which a close frame is handed in. -/

/-- What becomes of the timer and of the close frames handed in, as long as the connection is
open. -/
inductive Times (e e' : Endpoint) : Prop where
  | shut (hclosed : e'.life.closed = true)
  | kept (htimer : e'.life.timer = e.life.timer)
      (hcloses : e'.outgoing.closes.Perm e.outgoing.closes)
  | armed (j : Job) (afterWriter : Bool) (hnone : e.outgoing.closes = [])
      (hj : e'.outgoing.closes = [j]) (hclock : e'.life.clock = e.life.clock)
      (htimer : e'.life.timer =
        some (.after e.life.clock e.config.closeTimeout.toNat afterWriter))

theorem Act.times (h : Act fits e e') (hs : e.Sending fits) : Times e e' := by
  cases h with
  | read => exact .kept rfl (.refl _)
  | report err =>
    refine .kept ?_ (by rw [outgoing_report])
    unfold Endpoint.report
    split <;> rfl
  | teardown => exact .shut (closed_teardown e)
  | attempt ha =>
    cases ha with
    | refused => exact .kept rfl (.refl _)
    | accepted j f keys timer hj _ htimer =>
      have hcloses : (e.enter j f keys timer).outgoing.closes =
          e.outgoing.closes ++ [j].filter (·.kind = .close) := by
        rw [Outgoing.closes, Outgoing.closes, ← List.filter_append]
        exact congrArg (List.filter _) (Outgoing.lineUp_enter e.outgoing j f keys _)
      cases htimer with
      | kept hk =>
        refine .kept rfl ?_
        rw [hcloses]
        simp [hk]
      | armed hk afterWriter =>
        have hnone := hs.closes_eq_nil hj hk
        refine .armed j afterWriter hnone ?_ rfl rfl
        rw [hcloses, hnone]
        simp [hk]

theorem Times.trans {e'' : Endpoint} (h : Times e e') (h' : Times e' e'')
    (hclock : e'.life.clock = e.life.clock) (hconfig : e'.config = e.config)
    (hclock' : e''.life.clock = e'.life.clock)
    (hclosed : e'.life.closed = true → e''.life.closed = true) : Times e e'' := by
  cases h' with
  | shut hc => exact .shut hc
  | kept htimer' hcloses' =>
    cases h with
    | shut hc => exact .shut (hclosed hc)
    | kept htimer hcloses => exact .kept (htimer'.trans htimer) (hcloses'.trans hcloses)
    | armed j afterWriter hnone hj hsame htimer =>
      rw [hj] at hcloses'
      exact .armed j afterWriter hnone (List.perm_singleton.mp hcloses') (hclock'.trans hsame)
        (htimer'.trans htimer)
  | armed j afterWriter hnone hj hsame htimer =>
    cases h with
    | shut hc => exact .shut (hclosed hc)
    | kept htimer₀ hcloses =>
      rw [hnone] at hcloses
      refine .armed j afterWriter (List.nil_perm.mp hcloses) hj (hsame.trans hclock) ?_
      rw [htimer, hclock, hconfig]
    | armed i _ _ hi => exact absurd (hnone.symm.trans hi) (by simp)

theorem Reaction.closed (h : Reaction fits e e') (hc : e.life.closed = true) :
    e'.life.closed = true :=
  (congrArg Outgoing.closed (h.of_closed hc)).trans hc

theorem Acts.times (h : Acts fits e e') (hs : e.Sending fits) : Times e e' := by
  have : Reaction fits e e' ∧ Times e e' := by
    refine h.lift (P := fun d => Reaction fits e d ∧ Times e d) hs
      ⟨.refl e, .kept rfl (.refl _)⟩ ?_
    rintro d d' hd ha ⟨hreaction, htimes⟩
    exact ⟨hreaction.trans ha.reaction, htimes.trans (ha.times hd) hreaction.clock hreaction.config
      ha.reaction.clock ha.reaction.closed⟩
  exact this.2

theorem Step.times (hs : Step ok e e') (h : e.InOrder fits)
    (hok : ∀ c, ok (.write c) → c.Within fits) : Times e e' := by
  cases hs with
  | event ev hev =>
    by_cases hw : ∃ c, ev = .write c
    · obtain ⟨c, rfl⟩ := hw
      exact (accept_write_acts h.sending (hok c hev)).times h.sending
    · obtain ⟨-, ht, hl⟩ := life_accept e fun c hc => hw ⟨c, hc⟩
      exact .kept ht (Outgoing.closes_perm (by rw [hl]))
  | reader hr => exact (readerStep_acts h.sending h.stage h.calls hr).times h.sending
  | writer hw =>
    rcases writerStep_life hw with hlife | hclosed
    · exact .kept (congrArg Life.timer hlife)
        (Outgoing.closes_perm (lineUp_writerStep h.sending hw))
    · exact .shut hclosed
  | timer ht =>
    obtain ⟨t, -, -, rfl⟩ := timerStep_cases ht
    exact .shut (closed_teardown _)
  | turn => exact .kept rfl (.refl _)

end Endpoint

end WebSocket
