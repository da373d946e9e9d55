import WebSocket.Exchange
import WebSocket.Proofs.Delivery.Reading
import WebSocket.Proofs.Delivery.Said

/-! Two ends joined by their wires. Either end may go on at any time, and any number of bytes may be
passed on at any time. What one application gets is at every moment the front of what the other has
handed in. -/

namespace WebSocket

theorem Role.masksOutgoing_of_ne {role role' : Role} (h : role ≠ role') :
    role.masksOutgoing = role'.expectsMasked := by
  revert h
  cases role <;> cases role' <;> decide

namespace Exchange

def setEndpoint (x : Exchange) (side : Side) (e : Endpoint) : Exchange :=
  x.setStation side { x.station side with endpoint := some e }

/-- Passes on at most `n` bytes of what one side has written. -/
def pass (x : Exchange) (side : Side) (n : Nat) : Exchange :=
  let s := x.station side
  let b := s.undelivered.take n
  let x := x.setStation side { s with passedOn := s.passedOn + b.length }
  match (x.station side.other).endpoint with
  | some e => x.setEndpoint side.other (e.accept (.feed b)).1
  | none => x

def opened (config : Side → Config) (callbacks : Side → Callbacks) (keys : Side → Nat → Key)
    (quota maxWrite : Side → Option Nat) : Exchange :=
  let station (side : Side) : Station := ⟨some (Endpoint.opened (config side) (callbacks side)
    (keys side) (quota side) (maxWrite side)), 0⟩
  ⟨station .first, station .second⟩

/-- What becomes of two ends at which the events in `ok` can happen. -/
inductive Linked (config : Side → Config) (ok : Side → Event → Prop) : Exchange → Prop where
  | start (callbacks : Side → Callbacks) (keys : Side → Nat → Key)
      (quota maxWrite : Side → Option Nat)
      (hcalls : ∀ side, ∀ c ∈ (callbacks side).calls, ok side (.write c)) :
      Linked config ok (opened config callbacks keys quota maxWrite)
  | step {x : Exchange} {e e' : Endpoint} (side : Side) (h : Linked config ok x)
      (he : (x.station side).endpoint = some e) (hs : Endpoint.Step (ok side) e e') :
      Linked config ok (x.setEndpoint side e')
  | pass {x : Exchange} (side : Side) (n : Nat) (h : Linked config ok x) :
      Linked config ok (x.pass side n)

variable {config : Side → Config} {ok : Side → Event → Prop} {x : Exchange} {side s : Side}
  {e e' r : Endpoint} {n m : Nat}

theorem other_ne (side : Side) : side.other ≠ side := by
  cases side <;> rintro ⟨⟩

theorem other_other (side : Side) : side.other.other = side := by
  cases side <;> rfl

theorem eq_or_eq_other (side s : Side) : side = s ∨ side = s.other := by
  cases side <;> cases s <;> simp [Side.other]

theorem station_setEndpoint (h : x.station side = ⟨some e, n⟩) (e' : Endpoint) :
    (x.setEndpoint side e').station side = ⟨some e', n⟩ := by
  rw [setEndpoint, station_setStation, if_pos rfl, h]

theorem station_setEndpoint_of_ne (h : s ≠ side) (e' : Endpoint) :
    (x.setEndpoint side e').station s = x.station s := by
  rw [setEndpoint, station_setStation, if_neg h]

theorem setEndpoint_self (h : x.station side = ⟨some e, n⟩) : x.setEndpoint side e = x := by
  cases side <;> simp only [setEndpoint, h] <;> exact congrArg _ h.symm

theorem setEndpoint_setEndpoint (x : Exchange) (side : Side) (e e' : Endpoint) :
    (x.setEndpoint side e).setEndpoint side e' = x.setEndpoint side e' := by
  cases side <;> rfl

def passed (e : Endpoint) (n k : Nat) : Bytes := (e.transport.wire.toList.drop n).take k

theorem undelivered_take (he : x.station side = ⟨some e, n⟩) (k : Nat) :
    (x.station side).undelivered.take k = passed e n k := by
  rw [he, passed, Station.undelivered]
  simp [List.take_of_length_le]

theorem take_passed (e : Endpoint) (n k : Nat) :
    e.transport.wire.toList.take (n + (passed e n k).length) =
      e.transport.wire.toList.take n ++ passed e n k := by
  rw [List.take_add, passed, ← List.prefix_iff_eq_take.mp (List.take_prefix k _)]

theorem length_passed_le (h : n ≤ e.transport.wire.toList.length) (k : Nat) :
    n + (passed e n k).length ≤ e.transport.wire.toList.length := by
  rw [passed, List.length_take, List.length_drop]
  omega

theorem pass_eq (he : x.station side = ⟨some e, n⟩) (hr : x.station side.other = ⟨some r, m⟩)
    (k : Nat) : x.pass side k =
      (x.setStation side ⟨some e, n + (passed e n k).length⟩).setEndpoint side.other
        (r.accept (.feed (passed e n k))).1 := by
  unfold pass
  dsimp only
  rw [undelivered_take he, he, station_setStation, if_neg (other_ne side), hr]

theorem station_pass (he : x.station side = ⟨some e, n⟩) (hr : x.station side.other = ⟨some r, m⟩)
    (k : Nat) : (x.pass side k).station side = ⟨some e, n + (passed e n k).length⟩ ∧
      (x.pass side k).station side.other = ⟨some (r.accept (.feed (passed e n k))).1, m⟩ := by
  have hset : (x.setStation side ⟨some e, n + (passed e n k).length⟩).station side.other =
      ⟨some r, m⟩ := by
    rw [station_setStation, if_neg (other_ne side), hr]
  rw [pass_eq he hr]
  refine ⟨?_, station_setEndpoint hset _⟩
  rw [station_setEndpoint_of_ne (other_ne side).symm, station_setStation, if_pos rfl]

/-- What happens at an end that is joined to another. -/
def Fed (ok : Event → Prop) (ev : Event) : Prop := ok ev ∨ ∃ b, ev = .feed b

theorem Step.fed {ok : Event → Prop} (hs : Endpoint.Step ok e e') :
    Endpoint.Step (Fed ok) e e' := hs.mono fun _ => .inl

/-- Each end goes through a run. -/
theorem Linked.run (h : Linked config ok x) (side : Side) :
    ∃ e n past, x.station side = ⟨some e, n⟩ ∧ e.config = config side ∧
      Endpoint.Run (Fed (ok side)) (e :: past) := by
  -- with each step the run grows by one state, and the configuration stays
  have hstep {e e' : Endpoint} {past : List Endpoint} {side : Side} (hc : e.config = config side)
      (hrun : Endpoint.Run (Fed (ok side)) (e :: past)) (hs : Endpoint.Step (Fed (ok side)) e e') :
      e'.config = config side ∧ Endpoint.Run (Fed (ok side)) (e' :: e :: past) := by
    have hany : ∀ c : WriteCall, Fed (ok side) (.write c) → c.Within fun _ _ => True :=
      fun c _ => c.within_any
    exact ⟨(hs.config_eq (hrun.inOrder hany) hany).trans hc, hrun.step hs⟩
  induction h generalizing side with
  | start callbacks keys quota maxWrite hcalls =>
    have hc := fun side => Endpoint.config_opened (config side) (callbacks side) (keys side)
      (quota side) (maxWrite side)
    cases side with
    | first =>
      exact ⟨_, _, _, rfl, hc .first, .start _ _ _ _ _ fun c hm => .inl (hcalls .first c hm)⟩
    | second =>
      exact ⟨_, _, _, rfl, hc .second, .start _ _ _ _ _ fun c hm => .inl (hcalls .second c hm)⟩
  | @step x e e' side' h he hs ih =>
    obtain ⟨d, n, past, hd, hc, hrun⟩ := ih side
    by_cases hside : side = side'
    · subst hside
      rw [hd] at he
      cases he
      obtain ⟨hc', hrun'⟩ := hstep hc hrun (Step.fed hs)
      exact ⟨e', n, _, station_setEndpoint hd e', hc', hrun'⟩
    · exact ⟨d, n, past, by rwa [station_setEndpoint_of_ne hside], hc, hrun⟩
  | @pass x side' k h ih =>
    obtain ⟨e, n, past, he, hc, hrun⟩ := ih side'
    obtain ⟨r, m, past', hr, hc', hrun'⟩ := ih side'.other
    obtain ⟨hpass, hfeed⟩ := station_pass he hr k
    rcases eq_or_eq_other side side' with rfl | rfl
    · exact ⟨e, _, past, hpass, hc, hrun⟩
    · obtain ⟨hc'', hrun''⟩ := hstep hc' hrun' (.event (.feed (passed e n k)) (.inr ⟨_, rfl⟩))
      exact ⟨_, m, _, hfeed, hc'', hrun''⟩

theorem Linked.run_at (h : Linked config ok x) (he : x.station s = ⟨some e, n⟩) :
    e.config = config s ∧ ∃ past, Endpoint.Run (Fed (ok s)) (e :: past) := by
  obtain ⟨_, _, past, hstation, hc, hrun⟩ := h.run s
  rw [he] at hstation
  cases hstation
  exact ⟨hc, past, hrun⟩

/-! What two ends do on their own is such a course of things. -/

theorem Linked.steps (h : Linked config ok x) (he : x.station side = ⟨some e, n⟩)
    (hs : Relation.ReflTransGen (Endpoint.Step (ok side)) e e') :
    Linked config ok (x.setEndpoint side e') := by
  induction hs with
  | refl => rwa [setEndpoint_self he]
  | @tail c d _ hstep ih =>
    rw [← setEndpoint_setEndpoint x side c d]
    exact ih.step side (by rw [station_setEndpoint he]) hstep

theorem handleAlone_eq (he : x.station side = ⟨some e, n⟩) (ev : Event) :
    (x.handleAlone side ev).1 = x.setEndpoint side (e.handle ev).1 := by
  unfold handleAlone setEndpoint
  rw [he]
  rfl

theorem Linked.handleAlone (h : Linked config ok x) (side : Side) {ev : Event} (hev : ok side ev) :
    Linked config ok (x.handleAlone side ev).1 := by
  obtain ⟨e, n, -, he, -⟩ := h.run side
  rw [handleAlone_eq he]
  exact h.steps he (Endpoint.handle_steps e ev hev)

theorem deliver_eq (he : x.station side = ⟨some e, n⟩) (hr : x.station side.other = ⟨some r, m⟩)
    (limit : Option Nat) : (x.deliver side limit).1 =
      (x.pass side (limit.getD (x.station side).undelivered.length)).setEndpoint side.other
        (r.handle (.feed (passed e n (limit.getD (x.station side).undelivered.length)))).1 := by
  have hlimit : (limit.map (x.station side).undelivered.take).getD (x.station side).undelivered =
      passed e n (limit.getD (x.station side).undelivered.length) := by
    rw [← undelivered_take he]
    cases limit with
    | some k => rfl
    | none => exact List.take_length.symm
  generalize limit.getD (x.station side).undelivered.length = k at *
  have hset : (x.setStation side ⟨some e, n + (passed e n k).length⟩).station side.other =
      ⟨some r, m⟩ := by
    rw [station_setStation, if_neg (other_ne side), hr]
  unfold Exchange.deliver
  dsimp only
  rw [hlimit, he, handleAlone_eq hset, pass_eq he hr, setEndpoint_setEndpoint]

theorem Linked.deliver (h : Linked config ok x) (side : Side) (limit : Option Nat) :
    Linked config ok (x.deliver side limit).1 := by
  obtain ⟨e, n, -, he, -⟩ := h.run side
  obtain ⟨r, m, -, hr, -⟩ := h.run side.other
  rw [deliver_eq he hr]
  exact (h.pass side _).steps (station_pass he hr _).2
    (.head (.turn _ .reader) (Endpoint.settle_steps (ok side.other) _))

def settleWithin (n : Nat) (x : Exchange) (side : Side) : Option Exchange :=
  match (x.station side).endpoint with
  | some e => ((e.giveTurn .reader).settleWithin n).map (x.setEndpoint side)
  | none => none

/-- Deals with one event after the other; where there is none, all is passed on that the side has
written. The ends go on for less than `n` steps each time. -/
def playAll (n : Nat) (x : Exchange) : List (Side × Option Event) → Option Exchange
  | [] => some x
  | (side, some ev) :: more =>
    match (x.station side).endpoint with
    | some e =>
      match (x.setEndpoint side (e.accept ev).1).settleWithin n side with
      | some x' => playAll n x' more
      | none => none
    | none => none
  | (side, none) :: more =>
    match (x.pass side (x.station side).undelivered.length).settleWithin n side.other with
    | some x' => playAll n x' more
    | none => none

theorem settleWithin_eq {x' : Exchange} {k : Nat} (he : x.station side = ⟨some e, n⟩)
    (hx : x.settleWithin k side = some x') :
    x' = x.setEndpoint side (e.giveTurn .reader).settle := by
  unfold Exchange.settleWithin at hx
  rw [he] at hx
  obtain ⟨e', hsettled, rfl⟩ := Option.map_eq_some_iff.mp hx
  rw [Endpoint.settle_of_within hsettled]

theorem handleAlone_of_within {x' : Exchange} {k : Nat} {ev : Event}
    (he : x.station side = ⟨some e, n⟩)
    (hx : (x.setEndpoint side (e.accept ev).1).settleWithin k side = some x') :
    x' = (x.handleAlone side ev).1 := by
  rw [settleWithin_eq (station_setEndpoint he _) hx, setEndpoint_setEndpoint, handleAlone_eq he]
  rfl

theorem deliver_of_within {x' : Exchange} {k : Nat} (he : x.station side = ⟨some e, n⟩)
    (hr : x.station side.other = ⟨some r, m⟩)
    (hx : (x.pass side (x.station side).undelivered.length).settleWithin k side.other = some x') :
    x' = (x.deliver side none).1 := by
  rw [settleWithin_eq (station_pass he hr _).2 hx, deliver_eq he hr]
  rfl

/-- What holds while events are dealt with and bytes are passed on holds at the end of such a
course. What is seen there can be computed. -/
theorem playAll_keeps {P : Exchange → Prop} {α : Type} {f : Exchange → α} {y : α}
    (hstations : ∀ x, P x → ∀ side, ∃ e n, x.station side = ⟨some e, n⟩)
    (acts : List (Side × Option Event))
    (hevent : ∀ x side ev, P x → (side, some ev) ∈ acts → P (x.handleAlone side ev).1)
    (hdeliver : ∀ x side, P x → P (x.deliver side none).1) (h : P x)
    (hy : (x.playAll n acts).map f = some y) : ∃ x', P x' ∧ f x' = y := by
  induction acts generalizing x with
  | nil => exact ⟨x, h, Option.some.inj hy⟩
  | cons act acts ih =>
    have hmore : ∀ x side ev, P x → (side, some ev) ∈ acts → P (x.handleAlone side ev).1 :=
      fun x side ev hx hm => hevent x side ev hx (List.mem_cons_of_mem _ hm)
    obtain ⟨side, ev⟩ := act
    obtain ⟨e, m, he⟩ := hstations x h side
    cases ev with
    | some ev =>
      rw [Exchange.playAll, he] at hy
      dsimp only at hy
      split at hy
      · next x' hx =>
        obtain rfl := handleAlone_of_within he hx
        exact ih hmore (hevent x side ev h (by simp)) hy
      · simp at hy
    | none =>
      obtain ⟨r, i, hr⟩ := hstations x h side.other
      rw [Exchange.playAll] at hy
      split at hy
      · next x' hx =>
        obtain rfl := deliver_of_within he hr hx
        exact ih hmore (hdeliver x side h) hy
      · simp at hy

theorem Linked.playAll {α : Type} {f : Exchange → α} {y : α} (h : Linked config ok x)
    (acts : List (Side × Option Event)) (hacts : ∀ side ev, (side, some ev) ∈ acts → ok side ev)
    (hy : (x.playAll n acts).map f = some y) : ∃ x', Linked config ok x' ∧ f x' = y := by
  apply playAll_keeps (P := Linked config ok) ?_ acts ?_ ?_ h hy
  · intro x hx side
    obtain ⟨e, n, -, he, -⟩ := hx.run side
    exact ⟨e, n, he⟩
  · exact fun x side ev hx hm => hx.handleAlone side (hacts side ev hm)
  · exact fun x side hx => hx.deliver side none

/-- One end can talk to the other: the other plays the other role, takes both kinds of messages and
frames as long as the calls announce, and nothing but the wire of this end is fed to it. -/
structure Suits (config : Side → Config) (ok : Side → Event → Prop) (s : Side) : Prop where
  roles : (config s).role ≠ (config s.other).role
  kinds : (config s.other).acceptText = true ∧ (config s.other).acceptBinary = true
  sizes : ∀ c, ok s (.write c) →
    c.Within (HeaderRules.Fits ⟨(config s.other).role, (config s.other).maxFrameSize⟩)
  quiet : ∀ ev, ok s.other ev → ev.isIncoming = false

namespace Suits

theorem masks (h : Suits config ok s) (he : e.config = config s) (hr : r.config = config s.other) :
    e.masks = r.rules.role.expectsMasked := by
  rw [Endpoint.masks, Endpoint.rules, he, hr]
  exact Role.masksOutgoing_of_ne h.roles

theorem takesKinds (h : Suits config ok s) (hr : r.config = config s.other) (ws : List Frame) :
    Endpoint.TakesKinds r.config ws := by
  intro w _ k _
  rw [hr]
  cases k with
  | text => exact h.kinds.1
  | binary => exact h.kinds.2

theorem within (h : Suits config ok s) (hr : r.config = config s.other) (c : WriteCall)
    (hc : Fed (ok s) (.write c)) : c.Within r.rules.Fits := by
  rw [Endpoint.rules, hr]
  rcases hc with hc | ⟨b, hb⟩
  · exact h.sizes c hc
  · simp at hb

end Suits

/-- What one end has written is read by the other as it should be, as far as it has been passed
on. -/
structure Carried (e r : Endpoint) (n : Nat) : Prop where
  bounded : n ≤ e.transport.wire.toList.length
  faithful : r.reader.Faithful r.rules e.submitted (e.transport.wire.toList.take n)

theorem Carried.sender {fits : Nat → Nat → Prop} {ok : Event → Prop} (h : Carried e r n)
    (hs : Endpoint.Step ok e e') (hin : e.InOrder fits)
    (hok : ∀ c, ok (.write c) → c.Within fits) : Carried e' r n := by
  obtain ⟨more, hmore⟩ := hs.wire_prefix hin hok
  refine ⟨?_, ?_⟩
  · rw [← hmore, List.length_append]
    have := h.bounded
    omega
  · rw [← hmore, List.take_append_of_le_length h.bounded]
    exact h.faithful.mono (hs.submitted_front hin hok)

theorem Carried.pass (h : Carried e r n) (k : Nat) :
    Carried e (r.accept (.feed (passed e n k))).1 (n + (passed e n k).length) := by
  refine ⟨length_passed_le h.bounded k, ?_⟩
  rw [take_passed]
  exact Endpoint.feed_faithful h.faithful _

theorem Carried.receiver {ok : Event → Prop} {heldBack : Job → Prop} (h : Carried e r n)
    (hs : Endpoint.Step ok r e') (hok : ∀ ev, ok ev → ev.isIncoming = false)
    (hconfig : e'.config = r.config) (hsend : e.Sending r.rules.Fits)
    (ho : e.outgoing.Ordered heldBack) (hmasks : e.masks = r.rules.role.expectsMasked)
    (hkinds : ∀ ws, Endpoint.TakesKinds r.config ws) : Carried e e' n := by
  obtain ⟨ws, hwire, hoffered, hfront⟩ := Endpoint.offered_on_wire hsend ho hmasks
  refine ⟨h.bounded, ?_⟩
  rw [show e'.rules = r.rules by rw [Endpoint.rules, hconfig, Endpoint.rules]]
  exact Endpoint.step_faithful hs hok h.faithful hoffered ((List.take_prefix n _).trans hwire)
    hfront (hkinds ws)

/-- What is passed on to one end is read as it should be, throughout. -/
theorem Linked.carried (h : Linked config ok x) (hsuits : Suits config ok s)
    (he : x.station s = ⟨some e, n⟩) (hr : x.station s.other = ⟨some r, m⟩) : Carried e r n := by
  -- each step moves one of the two ends or passes bytes on, and `Carried` is kept from both sides
  induction h generalizing e r n m with
  | start callbacks keys quota maxWrite hcalls =>
    have hn : n = 0 := by
      cases s <;> cases he <;> rfl
    have hreader : ∃ callbacks keys quota maxWrite,
        r = Endpoint.opened (config s.other) callbacks keys quota maxWrite := by
      cases s <;> cases hr <;> exact ⟨_, _, _, _, rfl⟩
    obtain ⟨callbacks, keys, quota, maxWrite, rfl⟩ := hreader
    subst hn
    exact ⟨Nat.zero_le _, .inl ⟨[], Endpoint.opened_going _ _ _ _ _ _⟩⟩
  | @step x d d' side h hd hs ih =>
    obtain ⟨c, k, past, hc, hconfig, hrun⟩ := h.run side
    rw [hc] at hd
    cases hd
    have hset := station_setEndpoint hc d'
    obtain ⟨hconfig', -⟩ := (h.step side (by rw [hc]) hs).run_at hset
    rcases eq_or_eq_other side s with rfl | rfl
    · rw [hset] at he
      cases he
      rw [station_setEndpoint_of_ne (other_ne side)] at hr
      obtain ⟨hrconfig, -⟩ := h.run_at hr
      exact (ih hc hr).sender (Step.fed hs) (hrun.inOrder (hsuits.within hrconfig))
        (hsuits.within hrconfig)
    · rw [hset] at hr
      cases hr
      rw [station_setEndpoint_of_ne (other_ne s).symm] at he
      obtain ⟨heconfig, past', herun⟩ := h.run_at he
      have hok := hsuits.within hconfig
      exact (ih he hc).receiver hs hsuits.quiet (hconfig'.trans hconfig.symm)
        (herun.inOrder hok).sending (herun.ordered hok) (hsuits.masks heconfig hconfig)
        (hsuits.takesKinds hconfig)
  | @pass x side k h ih =>
    obtain ⟨c, i, -, hc, -⟩ := h.run side
    obtain ⟨d, j, -, hd, -⟩ := h.run side.other
    obtain ⟨hpass, hfeed⟩ := station_pass hc hd k
    rcases eq_or_eq_other side s with rfl | rfl
    · rw [hpass] at he
      rw [hfeed] at hr
      cases he
      cases hr
      exact (ih hc hd).pass k
    · rw [other_other] at hd hfeed
      rw [hpass] at hr
      rw [hfeed] at he
      cases he
      cases hr
      have := ih hd hc
      exact ⟨this.bounded, this.faithful⟩

/-- What one application gets of what the other has handed in, when so many bytes have been passed
on. The sender is an end at which the events in `ok` can happen. -/
structure Delivers (ok : Event → Prop) (e r : Endpoint) (n : Nat) : Prop where
  called : ∃ calls, e.Called ok calls
  /-- What has been handed in is what the accepted calls say, those of callbacks and the pongs that
  answer pings among them. Nothing else adds to it. -/
  said : ∀ calls, e.Called ok calls → e.submitted = (Said.nothing.afterAll calls).traffic
  front : r.reader.taken.Front e.submitted
  /-- As long as text is well-formed, no read fails. -/
  sound : Mark.TextSound e.submitted.marks → ∀ y ∈ r.reader.reads, ∀ err, y ≠ .failed err
  /-- When the frames handed in whole have been passed on, an application that waits for more has
  got them all, unless the reader is kept waiting by an earlier pong. -/
  whole : e.WholeIn (e.transport.wire.toList.take n) → r.readerStep = none →
    r.reader.reading.isSome = true → (∀ payload, r.reader.stage ≠ .answer payload) →
      e.submitted.whole.Front r.reader.taken

/-- Whatever two ends do, what one application gets is at every moment the front of what the other
has handed in. -/
theorem delivers_of_linked (h : Linked config ok x) (hsuits : Suits config ok s)
    (he : x.station s = ⟨some e, n⟩) (hr : x.station s.other = ⟨some r, m⟩) :
    Delivers (Fed (ok s)) e r n := by
  obtain ⟨hn, hfaithful⟩ := h.carried hsuits he hr
  obtain ⟨e', n', past, he', heconfig, herun⟩ := h.run s
  rw [he] at he'
  cases he'
  obtain ⟨r', m', past', hr', hrconfig, -⟩ := h.run s.other
  rw [hr] at hr'
  cases hr'
  have hok := hsuits.within hrconfig
  have hsend := (herun.inOrder hok).sending
  have ho := herun.ordered hok
  obtain ⟨ws, hwire, hoffered, hfront⟩ :=
    Endpoint.offered_on_wire hsend ho (hsuits.masks heconfig hrconfig)
  have hfed := (List.take_prefix n e.transport.wire.toList).trans hwire
  refine ⟨herun.called, fun calls hcalls => ?_, ?_, ?_, ?_⟩
  · exact congrArg Said.traffic hcalls.said
  · rcases hfaithful with ⟨fs, hgoing⟩ | hstopped
    · exact (hgoing.front hoffered hfed).trans hfront
    · exact hstopped.front
  · intro hs
    rcases hfaithful with ⟨fs, hgoing⟩ | hstopped
    · intro y hy err
      obtain ⟨c, rfl⟩ := hgoing.chunks y hy
      rintro ⟨⟩
    · exact hstopped.sound hs
  · intro hin hrest hreading hstage
    obtain ⟨gs, hgs, hrow, hcarried⟩ :=
      hin.frames hsend ho (herun.trail hok) (List.take_prefix n _)
    exact hcarried.trans
      (Endpoint.handed_out_at_rest hfaithful hoffered hfed hrest hreading hstage hgs hrow)

def pair : Side → Config
  | .first => .server
  | .second => { Config.client with readChunkSize := 1 }

/-- A server sends a text message in two parts and a ping between them. The client reads byte by
byte. -/
def course : List (Side × Option Event) :=
  [(.second, some (.read .all)), (.first, some (.write (.firstChunk 2 [0xc3] true false))),
    (.first, some (.write (.ping [0x70]))), (.first, none),
    (.first, some (.write (.continuation [0xa4]))), (.first, none)]

/-- What the client has got, and whether all the server has to send has been passed on and the
client waits for more. -/
def seen (x : Exchange) : Option (Traffic × Bool × Bool × Bool × Bool) :=
  match x.first, x.second with
  | ⟨some e, n⟩, ⟨some r, _⟩ =>
    some (r.reader.taken,
      (e.outgoing.lineUp.flatMap Job.bytes).isPrefixOf (e.transport.wire.toList.take n),
      r.readerStep.isNone, r.reader.reading.isSome, r.reader.stage == .header .start)
  | _, _ => none

/-- The client has got all of it. -/
theorem delivers_of_linked_text :
    ∃ (x : Exchange) (e r : Endpoint) (n m : Nat),
      x.Linked pair (fun side ev => (side, some ev) ∈ course) ∧
      x.station .first = ⟨some e, n⟩ ∧ x.station .second = ⟨some r, m⟩ ∧
      r.reader.taken =
        ⟨[.byte 0xc3 false, .byte 0xa4 false, .frameEnd true false], [[0x70]], []⟩ ∧
      e.WholeIn (e.transport.wire.toList.take n) ∧ r.readerStep = none ∧
      r.reader.reading.isSome = true ∧ (∀ payload, r.reader.stage ≠ .answer payload) ∧
      Delivers (Fed fun ev => (.first, some ev) ∈ course) e r n := by
  have hsuits : Suits pair (fun side ev => (side, some ev) ∈ course) .first := by
    refine ⟨by decide, ⟨rfl, rfl⟩, ?_, ?_⟩
    · intro c hc
      have : c = .firstChunk 2 [0xc3] true false ∨ c = .ping [0x70] ∨ c = .continuation [0xa4] := by
        simpa [course] using hc
      rcases this with rfl | rfl | rfl
      · exact fun _ => ⟨by decide, by decide⟩
      · trivial
      · trivial
    · intro ev hev
      have : ev = .read .all := by simpa [course, Side.other] using hev
      rw [this]
      rfl
  have hopened : Linked pair (fun side ev => (side, some ev) ∈ course)
      (opened pair (fun _ => .none) (fun _ _ => .zero) (fun _ => none) (fun _ => none)) :=
    .start _ _ _ _ fun _ c hc => absurd hc List.not_mem_nil
  obtain ⟨x, h, hy⟩ := hopened.playAll (n := 16) (f := seen) course (fun _ _ hm => hm)
    (y := some (⟨[.byte 0xc3 false, .byte 0xa4 false, .frameEnd true false], [[0x70]], []⟩,
      true, true, true, true)) (by decide +kernel)
  obtain ⟨e, n, -, he, -⟩ := h.run .first
  obtain ⟨r, m, -, hr, -⟩ := h.run .second
  have he' : x.first = ⟨some e, n⟩ := he
  have hr' : x.second = ⟨some r, m⟩ := hr
  simp only [seen, he', hr', Option.some.injEq, Prod.mk.injEq] at hy
  obtain ⟨htaken, hbytes, hrest, hreading, hstage⟩ := hy
  exact ⟨x, e, r, n, m, h, he, hr, htaken,
    ⟨_, List.prefix_rfl, List.isPrefixOf_iff_prefix.mp hbytes, fun _ hj _ => hj⟩,
    Option.isNone_iff_eq_none.mp hrest, hreading, by simp [beq_iff_eq.mp hstage],
    delivers_of_linked h hsuits he hr⟩

end Exchange

end WebSocket
