import WebSocket.Proofs.CloseReply
import WebSocket.Proofs.Endpoint.Timer

/-! The deadline of the close handshake. It is set when the one close frame of this end is handed
in. Nothing postpones it, and the timer closes the connection at no other time. -/

namespace WebSocket.Endpoint

/-- A close frame is handed in at the given time. -/
inductive ClosesAt (states : List Endpoint) : Nat → Prop where
  | later {d d' : Endpoint} {j : Job} (hp : Passes states d d') (hj : j ∈ d'.outgoing.closes)
      (hnew : j ∉ d.outgoing.closes) : ClosesAt states d.life.clock
  | first {d : Endpoint} {j : Job} (hd : states.getLast? = some d) (hj : j ∈ d.outgoing.closes) :
      ClosesAt states d.life.clock

/-- The moment at which a close handshake is given up that starts at the time `t`. A timer runs no
longer than `Timer.longest`, and it goes off at `Timer.latest` at the latest. -/
def deadline (e : Endpoint) (t : Nat) : Nat :=
  min (t + min e.config.closeTimeout.toNat Timer.longest) Timer.latest

/-- The close handshake is given up in time, and not before. -/
structure KeepsDeadline (states : List Endpoint) (e : Endpoint) : Prop where
  call : ∀ d code reason timed n, Passes states d (d.accept (.write (.close code reason timed))).1 →
    (d.accept (.write (.close code reason timed))).2 = .accepted n → ClosesAt states d.life.clock
  due : ∀ t, ClosesAt states t → e.tick = none →
    t + e.config.closeTimeout.toNat ≤ e.life.clock → e.life.closed = true
  early : ∀ e', e.timerStep = some e' → ∃ t, ClosesAt states t ∧ e.deadline t ≤ e.life.clock

variable {ok : Event → Prop} {fits : Nat → Nat → Prop} {e e' d d' : Endpoint}
  {past : List Endpoint} {t : Nat}

theorem closesAt_cons : ClosesAt (e' :: e :: past) t ↔ ClosesAt (e :: past) t ∨
    t = e.life.clock ∧ ∃ j ∈ e'.outgoing.closes, j ∉ e.outgoing.closes := by
  constructor
  · intro h
    cases h with
    | @later d d' j hp hj hnew =>
      rcases List.infix_cons_iff.mp hp with hpre | hp
      · obtain ⟨hlater, hpre⟩ := List.cons_prefix_cons.mp hpre
        obtain ⟨hearlier, -⟩ := List.cons_prefix_cons.mp hpre
        rw [hlater] at hj
        rw [hearlier] at hnew ⊢
        exact .inr ⟨rfl, j, hj, hnew⟩
      · exact .inl (.later hp hj hnew)
    | first hd hj =>
      rw [List.getLast?_cons_cons] at hd
      exact .inl (.first hd hj)
  · rintro (h | ⟨rfl, j, hj, hnew⟩)
    · cases h with
      | later hp hj hnew => exact .later (hp.trans (List.suffix_cons _ _).isInfix) hj hnew
      | first hd hj => exact .first (by rwa [List.getLast?_cons_cons]) hj
    · exact .later (List.prefix_append [e', e] past).isInfix hj hnew

/-- How the timer stands while the connection is open. -/
inductive Timed (states : List Endpoint) (e : Endpoint) : Prop where
  | shut (hclosed : e.life.closed = true)
  | off (hnone : e.outgoing.closes = []) (htimer : e.life.timer = none)
      (hnever : ∀ t, ¬ ClosesAt states t)
  | on (j : Job) (t : Nat) (afterWriter : Bool) (hone : e.outgoing.closes = [j])
      (htimer : e.life.timer = some (.after t e.config.closeTimeout.toNat afterWriter))
      (honly : ∀ t', ClosesAt states t' ↔ t' = t)

theorem Timed.step (h : Timed (e :: past) e) (hclosed : e.life.closed = true →
    e'.life.closed = true) (hconfig : e'.config = e.config) (ht : Times e e') :
    Timed (e' :: e :: past) e' := by
  cases ht with
  | shut hc => exact .shut hc
  | kept htimer hcloses =>
    have hold : ∀ t, ClosesAt (e' :: e :: past) t ↔ ClosesAt (e :: past) t := by
      intro t
      rw [closesAt_cons, or_iff_left]
      rintro ⟨-, j, hj, hnew⟩
      exact hnew (hcloses.subset hj)
    cases h with
    | shut hc => exact .shut (hclosed hc)
    | off hnone hoff hnever =>
      rw [hnone] at hcloses
      exact .off (List.perm_nil.mp hcloses) (htimer.trans hoff) fun t hc =>
        hnever t ((hold t).mp hc)
    | on j t afterWriter hone hon honly =>
      rw [hone] at hcloses
      refine .on j t afterWriter (List.perm_singleton.mp hcloses) ?_ fun t' =>
        (hold t').trans (honly t')
      rw [htimer, hon, hconfig]
  | armed j afterWriter hnone hj hclock htimer =>
    cases h with
    | shut hc => exact .shut (hclosed hc)
    | off _ _ hnever =>
      refine .on j e.life.clock afterWriter hj (by rw [htimer, hconfig]) fun t => ?_
      rw [closesAt_cons, or_iff_right (hnever t), and_iff_left_iff_imp]
      rintro -
      exact ⟨j, by simp [hj], by simp [hnone]⟩
    | on i _ _ hone => exact absurd (hnone.symm.trans hone) (by simp)

theorem Timed.opened (config : Config) (callbacks : Callbacks) (keys : Nat → Key)
    (quota maxWrite : Option Nat) (hcalls : ∀ c ∈ callbacks.calls, c.Within fits) :
    Timed [Endpoint.opened config callbacks keys quota maxWrite]
      (Endpoint.opened config callbacks keys quota maxWrite) := by
  have hacts := opened_acts config callbacks keys quota maxWrite hcalls
  have hconfig := config_opened config callbacks keys quota maxWrite
  generalize Endpoint.opened config callbacks keys quota maxWrite = e at hacts hconfig
  have hclock : e.life.clock = 0 := hacts.reaction.clock
  have hfirst : ∀ t, ClosesAt [e] t ↔ t = 0 ∧ e.outgoing.closes ≠ [] := by
    intro t
    constructor
    · intro h
      cases h with
      | later hp => exact absurd hp.length_le (by simp)
      | first hd hj =>
        cases Option.some.inj hd
        exact ⟨hclock, List.ne_nil_of_mem hj⟩
    · rintro ⟨rfl, hne⟩
      obtain ⟨j, hj⟩ := List.exists_mem_of_ne_nil _ hne
      rw [← hclock]
      exact .first rfl hj
  cases hacts.times (initial_sending config callbacks keys quota maxWrite) with
  | shut hc => exact .shut hc
  | kept htimer hcloses =>
    have hnone := List.perm_nil.mp hcloses
    exact .off hnone htimer fun t hc => ((hfirst t).mp hc).2 hnone
  | armed j afterWriter _ hj _ htimer =>
    refine .on j 0 afterWriter hj ?_ fun t => ?_
    · rw [hconfig]
      exact htimer
    · rw [hfirst, hj, and_iff_left (by simp)]

theorem Run.timed (h : Run ok (e :: past)) (hok : ∀ c, ok (.write c) → c.Within fits) :
    Timed (e :: past) e := by
  refine h.always hok Timed.opened fun c c' past _ hin hs htimed => ?_
  exact htimed.step (hs.closed hin hok) (hs.config_eq hin hok) (hs.times hin hok)

/-- At rest an armed timer is not due. -/
theorem lt_deadline_of_rest {timer : Timer} (h : e.timerStep = none)
    (htimer : e.life.timer = some timer) : e.life.clock < timer.deadline := by
  unfold timerStep at h
  rw [htimer] at h
  dsimp only at h
  split at h
  · cases h
  · next hnot => exact Nat.not_le.mp hnot

/-- An accepted close call hands in a close frame. -/
theorem closes_of_accepted (h : e.Sending fits) {code : CloseCode} {reason : String} {timed : Bool}
    {n : Nat} (hn : (e.accept (.write (.close code reason timed))).2 = .accepted n) :
    ∃ j ∈ (e.accept (.write (.close code reason timed))).1.outgoing.closes,
      j ∉ e.outgoing.closes := by
  have hentered := write_entered h (c := .close code reason timed) trivial
  unfold accept at hn ⊢
  dsimp only at hn ⊢
  split at hn
  · next hheld =>
    rw [if_pos hheld]
    generalize e.write (.close code reason timed) = a at hentered hn
    cases hentered with
    | refused r => cases hn
    | accepted j f keys timer hj hmakes =>
      refine ⟨j, Outgoing.mem_closes.mpr ⟨?_, hmakes.1⟩, ?_⟩
      · show j ∈ Outgoing.lineUp { e.outgoing with
          outbox := e.outgoing.outbox.enter j f keys
          closing := e.life.closing || (j.kind == .close && !j.last) }
        rw [Outgoing.lineUp_enter]
        simp
      · rw [h.closes_eq_nil hj hmakes.1]
        exact List.not_mem_nil
  · cases hn

/-- In every run the connection is closed by the time that the close timeout allows from the moment
at which a close frame is handed in, whatever happens in between; and the timer does not close it
before it is due, nor without a close frame. -/
theorem keepsDeadline_of_run (h : Run (fun _ => True) (e :: past)) :
    KeepsDeadline (e :: past) e := by
  have hok : ∀ c : WriteCall, True → c.Within fun _ _ => True := fun c _ => c.within_any
  have htimed := h.timed hok
  refine ⟨?_, ?_, ?_⟩
  · intro d code reason timed n hp hn
    obtain ⟨-, -, earlier, hrun⟩ := h.of_passes hp
    obtain ⟨j, hj, hnew⟩ := closes_of_accepted (hrun.inOrder hok).sending hn
    exact .later hp hj hnew
  · intro t hc hrest hdue
    cases htimed with
    | shut hclosed => exact hclosed
    | off _ _ hnever => exact absurd hc (hnever t)
    | on j t' afterWriter _ htimer honly =>
      obtain rfl := (honly t).mp hc
      have hlt := lt_deadline_of_rest (waits_of_tick hrest).2.2 htimer
      simp only [Timer.after] at hlt
      omega
  · intro e' hstep
    obtain ⟨timer, htimer, hdue, -⟩ := timerStep_cases hstep
    cases htimed with
    | shut hclosed => exact absurd ((h.disarmed hok hclosed).symm.trans htimer) (by simp)
    | off _ hoff => exact absurd (hoff.symm.trans htimer) (by simp)
    | on j t afterWriter _ hon honly =>
      refine ⟨t, (honly t).mpr rfl, ?_⟩
      cases Option.some.inj (hon.symm.trans htimer)
      exact hdue

/-- A server that has part of a message on the wire, and a close frame held back behind it, when
the stream takes nothing more. The timer closes the connection after five seconds. -/
theorem keepsDeadline_of_run_stalled :
    ∃ (e : Endpoint) (past : List Endpoint), Run (fun _ => True) (e :: past) ∧ e.tick = none ∧
      e.life.clock = 5000 ∧ e.life.closed = true ∧ e.transport.wire.toList = [0x82, 0x02, 0x61] ∧
      KeepsDeadline (e :: past) e := by
  have h : Run (fun _ => True) [opened .server .none (fun _ => .zero) (some 3) none] :=
    .start _ _ _ _ _ fun _ _ => trivial
  obtain ⟨e, past, h, hy⟩ := h.handleAll (n := 8)
    (f := fun e => (e.tick.isNone, e.life.clock, e.life.closed, e.transport.wire.toList))
    [.write (.firstChunk 2 [0x61] true true), .write (.close .normal "" true), .advance 4999,
      .write (.close .normal "" true), .advance 1]
    (fun _ _ => trivial) (y := (true, 5000, true, [0x82, 0x02, 0x61])) (by decide)
  obtain ⟨hrest, hclock, hclosed, hwire⟩ := by simpa only [Prod.mk.injEq] using hy
  exact ⟨e, past, h, Option.isNone_iff_eq_none.mp hrest, hclock, hclosed, hwire,
    keepsDeadline_of_run h⟩

/-- A timeout that is longer than a timer runs. The timer closes the connection before the time is
up. -/
theorem closed_before_timeout :
    ∃ (e e' : Endpoint) (past : List Endpoint),
      Run (· ∈ [Event.write (.close .normal "" true), .advance 946080000000]) (e :: past) ∧
      e.config.closeTimeout.toNat = 1000000000000 ∧ (∃ t, ClosesAt (e :: past) t) ∧
      e.life.closed = false ∧ e.timerStep = some e' ∧ e'.life.closed = true ∧
      ∀ t, ClosesAt (e :: past) t → e.life.clock < t + e.config.closeTimeout.toNat := by
  have h : Run (· ∈ [Event.write (.close .normal "" true), .advance 946080000000])
      [opened { Config.server with closeTimeout := 1000000000000 } .none (fun _ => .zero) none
        none] := .start _ _ _ _ _ nofun
  obtain ⟨d, past, h, hy⟩ := h.handleAll (n := 8)
    (f := fun e => (e.life.closed, e.life.clock, e.life.timer, e.config.closeTimeout.toNat))
    [.write (.close .normal "" true)] (by simp)
    (y := (false, 0, some ⟨946080000000, false⟩, 1000000000000)) (by decide +kernel)
  obtain ⟨hopen, hclock, htimer, htimeout⟩ := by simpa only [Prod.mk.injEq] using hy
  have hnow : (d.accept (.advance 946080000000)).1.life.clock = 946080000000 := by
    show d.life.clock + 946080000000 = _
    rw [hclock]
  have hstep : (d.accept (.advance 946080000000)).1.timerStep =
      some { (d.accept (.advance 946080000000)).1 with
        life := { (d.accept (.advance 946080000000)).1.life with timer := none } }.teardown := by
    have hdue : (d.accept (.advance 946080000000)).1.life.timer = some ⟨946080000000, false⟩ :=
      htimer
    rw [timerStep, hdue, hnow]
    rfl
  have hnext := h.step (.event (.advance 946080000000) (by simp))
  refine ⟨_, _, _, hnext, htimeout, ?_, hopen, hstep, closed_teardown _, ?_⟩
  · have hok : ∀ c, .write c ∈ [Event.write (.close .normal "" true), .advance 946080000000] →
        c.Within fun _ _ => True := fun c _ => c.within_any
    cases h.timed hok with
    | shut hclosed => exact absurd (hopen.symm.trans hclosed) Bool.false_ne_true
    | off _ hoff => exact absurd (hoff.symm.trans htimer) (by simp)
    | on j t _ _ _ honly => exact ⟨t, closesAt_cons.mpr (.inl ((honly t).mpr rfl))⟩
  · intro t _
    have htimeout : (d.accept (.advance 946080000000)).1.config.closeTimeout.toNat =
        1000000000000 := htimeout
    rw [hnow, htimeout]
    omega

end WebSocket.Endpoint
