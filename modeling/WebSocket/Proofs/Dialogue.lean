import WebSocket.Proofs.Delivery.Linked
import WebSocket.Proofs.Handshake

/-! Two ends talk to each other. Each hands in what the other takes, and either may close the
connection whenever it likes. No end ever blames the other. Once one has started to close, both come
to be closed, and each wire ends with the only close frame on it. -/

namespace WebSocket

namespace Endpoint

open Reader

variable {own peer : Config} {e e' r r' d : Endpoint} {n : Nat}

/-- An end that has just been opened on a stream without limits. A read of all messages is
outstanding. -/
def attentive (config : Config) (callbacks : Callbacks) (keys : Nat → Key) : Endpoint :=
  ((opened config callbacks keys none none).accept (.read .all)).1.giveTurn .reader

/-- What an end does while nothing comes in: it goes on until it is at rest, and then there may be a
call, or time goes by before the close timer is due. -/
inductive Proceeds (peer : Config) (e : Endpoint) : Endpoint → Prop where
  | tick {e' : Endpoint} (ht : e.tick = some e') : Proceeds peer e e'
  | event (ev : Event) (hrest : e.tick = none) (hev : ev.Ordinary peer.rules.FitsWhole)
      (hout : ev.isIncoming = false) (htime : ∀ n, ev = .advance n → e.Spares n) :
      Proceeds peer e ((e.accept ev).1.giveTurn .reader)

/-! The start. -/

theorem Engaged.attentive {callbacks : Callbacks} (keys : Nat → Key)
    (hsilent : callbacks.calls = []) (htimeout : own.closeTimeout.toNat ≠ 0) :
    Engaged own peer (Endpoint.attentive own callbacks keys) := by
  have hwilling : (Endpoint.opened own callbacks keys none none).transport.Willing := by
    rw [opened_silent hsilent]
    exact ⟨rfl, rfl, rfl, rfl, rfl⟩
  have hstart : Engaged own peer (Endpoint.opened own callbacks keys none none) := by
    refine ⟨⟨[], .start own callbacks keys none none ?_, ?_⟩, ?_, ?_, ?_, htimeout, ?_⟩
    · rw [hsilent]
      exact List.forall_mem_nil _
    · intro d hd
      rwa [List.mem_singleton.mp hd]
    all_goals rw [opened_silent hsilent]
    · rfl
    · rfl
    · exact hsilent
    · refine ⟨Nat.zero_lt_succ _, fun t ht => ?_⟩
      simp [fresh] at ht
  have hread : Event.Ordinary peer.rules.FitsWhole (.read .all) := trivial
  refine hstart.event ?_ hread ?_
  · rw [opened_silent hsilent]
    rfl
  · intro n hn
    simp at hn

theorem Orderly.attentive {callbacks : Callbacks} (keys : Nat → Key)
    (hsilent : callbacks.calls = []) : Orderly (Endpoint.attentive own callbacks keys) := by
  rw [Endpoint.attentive, opened_silent hsilent]
  refine ⟨fun _ => rfl, ?_, ?_, ?_, ?_⟩
  · exact fun err => Array.not_mem_empty _
  · exact fun j f => List.not_mem_nil
  · intro _ hunsent
    cases hunsent
  · intro hover
    cases hover

/-! What an end goes on to do. -/

def Advances (ok : Event → Prop) (e e' : Endpoint) : Prop :=
  ∃ d t, Step ok e d ∧ e' = d.giveTurn t

theorem Proceeds.advances (h : Proceeds peer e e') :
    Advances (Event.Ordinary peer.rules.FitsWhole) e e' := by
  cases h with
  | tick ht =>
    rcases (tick_step ht : Step _ e e' ∨ _) with hs | hs
    · exact ⟨e', e'.turn, hs, rfl⟩
    · exact hs
  | event ev _ hev => exact ⟨_, .reader, .event ev hev, rfl⟩

theorem Engaged.proceeds (h : Engaged own peer e) (hp : Proceeds peer e e') :
    Engaged own peer e' := by
  cases hp with
  | tick ht => exact h.tick ht
  | event ev hrest hev _ htime => exact h.event hrest hev htime

theorem Engaged.feed (h : Engaged own peer e) (hrest : e.tick = none) (b : Bytes) :
    Engaged own peer ((e.accept (.feed b)).1.giveTurn .reader) :=
  h.event hrest trivial fun n hn => by simp at hn

/-- What the application of an end has handed in is for the other end to take: its text is
well-formed, and its messages are of the kinds that the other end accepts. -/
structure Says (peer : Config) (e : Endpoint) : Prop where
  text : Mark.TextSound e.submitted.marks
  kinds : ∀ fin (k : MessageKind), .frameEnd fin k.isBinary ∈ e.submitted.marks →
    accepts peer k = true

theorem Says.of_advances (h : Says peer e') (he : Engaged own peer e)
    (hs : Advances (Event.Ordinary peer.rules.FitsWhole) e e') : Says peer e := by
  obtain ⟨d, t, hstep, rfl⟩ := hs
  have hfront : e.submitted.Front d.submitted :=
    hstep.submitted_front (he.inOrder fun _ _ => id) fun _ hc => hc
  exact ⟨h.text.of_prefix hfront.marks, fun fin k hm => h.kinds fin k (hfront.marks.subset hm)⟩

structure Welcome (c : Config) (ws : List Frame) : Prop where
  offered : Frame.Offered c.rules ws
  kinds : TakesKinds c ws
  text : Mark.TextSound (Frame.rowMarks false ws)

theorem Engaged.welcome (h : Engaged own peer e) (hs : Says peer e)
    (hroles : own.role ≠ peer.role) :
    ∃ ws, e.transport.wire.toList <+: Frame.rowBytes ws ∧ Welcome peer ws := by
  obtain ⟨past, hd, -⟩ := h.driven
  obtain ⟨past', hrun⟩ := hd.run
  have hok : ∀ c, Event.Ordinary peer.rules.FitsWhole (.write c) →
      c.Within peer.rules.FitsWhole := fun _ hc => hc
  have ho := hrun.ordered hok
  obtain ⟨js, f, hlaid, hwire, hfront⟩ :=
    Sending.laid_on_wire (h.inOrder fun _ _ => id).sending ho
  have hwhole : ∀ w ∈ Job.frames js, w.Whole := by
    have hentire := hlaid.mono fun _ _ => And.left
    exact hentire.framed.ends.all_whole hentire.entire
  have hmasks : e.masks = peer.rules.role.expectsMasked := by
    rw [Endpoint.masks, h.config]
    exact Role.masksOutgoing_of_ne hroles
  refine ⟨Job.frames js, hwire, ?_, ?_, hs.text.of_prefix hfront.marks⟩
  · exact (hmasks ▸ hlaid.mono fun _ _ => And.right).offered
  · intro w hw k hop
    have hmark := Frame.frameEnd_mem_rowMarks hw (hwhole w hw) hop false
    exact hs.kinds _ k (hfront.marks.subset hmark)

/-! What is on its way from one end to the other. -/

/-- So many bytes of one end have been passed on to the other. As long as the other reads, it has
read no close frame. -/
structure Heard (e r : Endpoint) (n : Nat) : Prop where
  bounded : n ≤ e.transport.wire.toList.length
  reads : r.reader.finished = false → ∃ fs,
    r.reader.Going r.rules (e.transport.wire.toList.take n) fs ∧
      ∀ f ∈ fs, f.header.opcode ≠ .close

namespace Heard

theorem attentive {config : Config} {callbacks : Callbacks} (keys : Nat → Key)
    (hsilent : callbacks.calls = []) (e : Endpoint) :
    Heard e (Endpoint.attentive config callbacks keys) 0 := by
  refine ⟨Nat.zero_le _, fun _ => ⟨[], ?_, List.forall_mem_nil _⟩⟩
  have hgoing (rules : HeaderRules) := opened_going rules config callbacks keys none none
  rw [opened_silent hsilent] at hgoing
  rw [Endpoint.attentive, opened_silent hsilent]
  exact going_reading (hgoing _) (some .all)

theorem sender (h : Heard e r n) (he : Engaged own peer e)
    (hs : Advances (Event.Ordinary peer.rules.FitsWhole) e e') : Heard e' r n := by
  obtain ⟨d, t, hstep, rfl⟩ := hs
  obtain ⟨more, hmore⟩ := hstep.wire_prefix (he.inOrder fun _ _ => id) fun _ hc => hc
  refine ⟨?_, ?_⟩
  · show n ≤ d.transport.wire.toList.length
    rw [← hmore, List.length_append]
    have := h.bounded
    omega
  · show _ → ∃ fs, r.reader.Going r.rules (d.transport.wire.toList.take n) fs ∧ _
    rw [← hmore, List.take_append_of_le_length h.bounded]
    exact h.reads

theorem pass (h : Heard e r n) (k : Nat) :
    Heard e ((r.accept (.feed (Exchange.passed e n k))).1.giveTurn .reader)
      (n + (Exchange.passed e n k).length) := by
  refine ⟨Exchange.length_passed_le h.bounded k, ?_⟩
  rw [Exchange.take_passed]
  intro hfin
  obtain ⟨fs, hgoing, hnone⟩ := h.reads hfin
  exact ⟨fs, feed_going hgoing _, hnone⟩

theorem stepped {ws : List Frame} (h : Heard e r n)
    (hwire : e.transport.wire.toList <+: Frame.rowBytes ws) (hws : Welcome r.config ws)
    (hopen : r.Listens) (hstep : r.readerStep = some d) : ∃ fs,
      r.reader.Going r.rules (e.transport.wire.toList.take n) fs ∧
        (∀ f ∈ fs, f.header.opcode ≠ .close) ∧ Stepped r.rules r.config.partSize ws
          (e.transport.wire.toList.take n) fs r.reader d.reader := by
  obtain ⟨fs, hgoing, hnone⟩ := h.reads hopen.1
  have hfed := (List.take_prefix n e.transport.wire.toList).trans hwire
  rcases readerStep_going hgoing hws.offered hfed hws.kinds hstep with ⟨hclosed, -⟩ | hstepped
  · exact absurd (hopen.2.symm.trans hclosed) Bool.false_ne_true
  · exact ⟨fs, hgoing, hnone, hstepped⟩

end Heard

theorem Engaged.reader_of_proceeds (h : Engaged own peer e) (hp : Proceeds peer e e') :
    (∃ m, e'.reader = { e.reader with reading := m }) ∨
      ∃ d, e.readerStep = some d ∧ e'.reader = d.reader := by
  cases hp with
  | tick ht =>
    rcases tick_cases ht with ⟨w, hstep, rfl⟩ | ⟨d, hstep | hstep, hsame, -⟩
    · exact .inl ⟨_, (sendingWork_writerStep hstep).1⟩
    · right
      refine ⟨d, hstep, ?_⟩
      rcases hsame with rfl | rfl <;> rfl
    · rw [h.early.timerStep] at hstep
      simp at hstep
  | event ev _ _ hout => exact .inl (reader_accept hout)

section

variable {ws : List Frame}

theorem Heard.receiver (h : Heard e r n) (hwire : e.transport.wire.toList <+: Frame.rowBytes ws)
    (hws : Welcome r.config ws) (hr : Engaged own peer r) (hp : Proceeds peer r r') :
    Heard e r' n := by
  have hrules : r'.rules = r.rules := by
    rw [Endpoint.rules, (hr.proceeds hp).config, ← hr.config]
    rfl
  refine ⟨h.bounded, ?_⟩
  rw [hrules]
  rcases hr.reader_of_proceeds hp with ⟨m, hm⟩ | ⟨d, hstep, hd⟩
  · rw [hm]
    intro hfin
    obtain ⟨fs, hgoing, hnone⟩ := h.reads hfin
    exact ⟨fs, going_reading hgoing m, hnone⟩
  · rw [hd]
    intro hfin
    by_cases hover : (r.reader.finished || r.life.closed) = true
    · obtain rfl := readerStep_of_over hover hstep
      simp [endRead] at hfin
    · have hopen : r.Listens := Bool.or_eq_false_iff.mp (eq_false_of_ne_true hover)
      obtain ⟨fs, hgoing, hnone, hstepped⟩ := h.stepped hwire hws hopen hstep
      cases hstepped with
      | going gs hg ha => exact ⟨gs, going_of_readerStep hgoing hstep hg, ha.noClose hnone⟩
      | refused _ hs => exact absurd (hfin.symm.trans hs.finished) Bool.false_ne_true
      | closed _ _ _ _ hs => exact absurd (hfin.symm.trans hs.finished) Bool.false_ne_true

theorem Orderly.proceeds (h : Orderly r) (hr : Engaged own peer r) (hheard : Heard e r n)
    (hwire : e.transport.wire.toList <+: Frame.rowBytes ws) (hws : Welcome r.config ws)
    (hp : Proceeds peer r r') : Orderly r' := by
  cases hp with
  | tick ht =>
    apply h.tick hr (hr.tick ht).early ht
    intro d hstep hopen
    obtain ⟨fs, -, -, hstepped⟩ := hheard.stepped hwire hws hopen hstep
    exact ⟨_, _, ws, _, fs, hstepped, hws.text⟩
  | event ev hrest hev => exact h.event hr hrest hev

/-- Once everything has been passed on and no one goes on, a close frame on the wire has closed the
other end. -/
theorem Heard.closed (h : Heard e r n) (hwire : e.transport.wire.toList <+: Frame.rowBytes ws)
    (hws : Welcome r.config ws) (hr : Engaged own peer r) (ho : Orderly r) (hrest : r.tick = none)
    (hall : e.transport.wire.toList.take n = e.transport.wire.toList) (hclose : e.EndsInClose) :
    r.life.closed = true := by
  by_contra hopen
  rw [Bool.not_eq_true] at hopen
  have hfin : r.reader.finished = false := by
    rw [← Bool.not_eq_true]
    intro hend
    have hover := (ho.ceased (by simp [hend])).resolve_left (hr.not_answering hrest)
    exact absurd (hopen.symm.trans hover.closed) Bool.false_ne_true
  obtain ⟨fs, hgoing, hnone⟩ := h.reads hfin
  obtain ⟨front, f, hframes, hproper, hop, -⟩ := hclose
  have hwhole : ∀ g ∈ front ++ [f], g.Whole ∧ g.header.rsv < 8 := by
    intro g hg
    have hg := hproper g hg
    exact ⟨hg.whole, by rw [hg.rsv]; decide⟩
  have hread : front ++ [f] <+: fs := by
    have hreading : r.reader.reading.isSome = true := by rw [ho.reading hfin]; rfl
    have hwaits := awaitsInput_of_held hrest hreading (hr.held_eq_nil hrest hopen)
    rw [hall] at hgoing
    exact read_at_rest hgoing hws.offered hwire (waits_of_tick hrest).1 hreading hwaits.unanswered
      hwhole (hframes ▸ List.prefix_rfl)
  exact hnone f (hread.subset (by simp)) hop

end

end Endpoint

namespace Exchange

open Endpoint

def joined (e : Side → Endpoint) : Exchange := ⟨⟨some (e .first), 0⟩, ⟨some (e .second), 0⟩⟩

/-- What becomes of two ends that talk to each other. Their callbacks make no calls, and both read
from the start. What one has written is passed on in parts of any size. -/
inductive Dialogue (config : Side → Config) : Exchange → Prop where
  | start (callbacks : Side → Callbacks) (keys : Side → Nat → Key)
      (hsilent : ∀ side, (callbacks side).calls = []) :
      Dialogue config (joined fun side => attentive (config side) (callbacks side) (keys side))
  | step {x : Exchange} {e e' : Endpoint} (side : Side) (h : Dialogue config x)
      (he : (x.station side).endpoint = some e) (hp : e.Proceeds (config side.other) e') :
      Dialogue config (x.setEndpoint side e')
  | pass {x : Exchange} {r : Endpoint} (side : Side) (k : Nat) (h : Dialogue config x)
      (hr : (x.station side.other).endpoint = some r) (hrest : r.tick = none) :
      Dialogue config ((x.pass side k).setEndpoint side.other
        ((r.accept (.feed ((x.station side).undelivered.take k))).1.giveTurn .reader))

variable {config : Side → Config} {x : Exchange} {side s : Side} {e e' r : Endpoint} {n m : Nat}

theorem station_joined (e : Side → Endpoint) (side : Side) :
    (joined e).station side = ⟨some (e side), 0⟩ := by
  cases side <;> rfl

theorem station_fed (he : x.station side = ⟨some e, n⟩) (hr : x.station side.other = ⟨some r, m⟩)
    (k : Nat) (r' : Endpoint) :
    ((x.pass side k).setEndpoint side.other r').station side =
        ⟨some e, n + (passed e n k).length⟩ ∧
      ((x.pass side k).setEndpoint side.other r').station side.other = ⟨some r', m⟩ := by
  obtain ⟨hpass, hfeed⟩ := station_pass he hr k
  refine ⟨?_, station_setEndpoint hfeed r'⟩
  rw [station_setEndpoint_of_ne (other_ne side).symm]
  exact hpass

/-- Each end keeps to what is known of it alone. -/
theorem Dialogue.engaged (h : Dialogue config x)
    (htimeout : ∀ side, (config side).closeTimeout.toNat ≠ 0) (s : Side) :
    ∃ e n, x.station s = ⟨some e, n⟩ ∧ Engaged (config s) (config s.other) e := by
  induction h generalizing s with
  | start callbacks keys hsilent =>
    exact ⟨_, 0, station_joined _ s, .attentive (keys s) (hsilent s) (htimeout s)⟩
  | @step x e e' side h he hp ih =>
    obtain ⟨d, n, hd, hengaged⟩ := ih s
    by_cases hside : s = side
    · subst hside
      rw [hd] at he
      cases he
      exact ⟨e', n, station_setEndpoint hd e', hengaged.proceeds hp⟩
    · exact ⟨d, n, by rwa [station_setEndpoint_of_ne hside], hengaged⟩
  | @pass x r side k h hr hrest ih =>
    obtain ⟨e, n, he, hsender⟩ := ih side
    obtain ⟨c, m, hc, hreceiver⟩ := ih side.other
    rw [hc] at hr
    cases hr
    obtain ⟨hpass, hfed⟩ := station_fed he hc k
      ((r.accept (.feed ((x.station side).undelivered.take k))).1.giveTurn .reader)
    rcases eq_or_eq_other s side with rfl | rfl
    · exact ⟨e, _, hpass, hsender⟩
    · exact ⟨_, m, hfed, hreceiver.feed hrest _⟩

theorem Dialogue.engaged_at (h : Dialogue config x)
    (htimeout : ∀ side, (config side).closeTimeout.toNat ≠ 0)
    (he : (x.station s).endpoint = some e) :
    (∃ n, x.station s = ⟨some e, n⟩) ∧ Engaged (config s) (config s.other) e := by
  obtain ⟨_, n, hstation, hengaged⟩ := h.engaged htimeout s
  rw [hstation] at he
  cases he
  exact ⟨⟨n, hstation⟩, hengaged⟩

def Civil (config : Side → Config) (x : Exchange) : Prop :=
  ∀ side e, (x.station side).endpoint = some e → Says (config side.other) e

/-- Each end keeps to the handshake, and hears what the other has written. -/
def InTune (x : Exchange) : Prop :=
  ∀ s e n r m, x.station s = ⟨some e, n⟩ → x.station s.other = ⟨some r, m⟩ →
    Orderly r ∧ Heard e r n

theorem Dialogue.civil_of_step (h : Dialogue config x)
    (htimeout : ∀ side, (config side).closeTimeout.toNat ≠ 0)
    (he : (x.station side).endpoint = some e) (hp : e.Proceeds (config side.other) e')
    (hcivil : (x.setEndpoint side e').Civil config) : x.Civil config := by
  obtain ⟨⟨k, hc⟩, hengaged⟩ := h.engaged_at htimeout he
  intro s d hd
  by_cases hs : s = side
  · subst hs
    rw [hc] at hd
    cases hd
    exact (hcivil s e' (by rw [station_setEndpoint hc e'])).of_advances hengaged hp.advances
  · exact hcivil s d (by rwa [station_setEndpoint_of_ne hs])

theorem Dialogue.inTune_step (h : Dialogue config x)
    (hroles : ∀ side, (config side).role ≠ (config side.other).role)
    (htimeout : ∀ side, (config side).closeTimeout.toNat ≠ 0)
    (he : (x.station side).endpoint = some e) (hp : e.Proceeds (config side.other) e')
    (hcivil : x.Civil config) (hx : x.InTune) : (x.setEndpoint side e').InTune := by
  obtain ⟨⟨k, hc⟩, hengaged⟩ := h.engaged_at htimeout he
  have hset := station_setEndpoint hc e'
  intro s d n r m hd hr
  rcases eq_or_eq_other s side with rfl | rfl
  · -- The sender goes on.
    rw [hset] at hd
    cases hd
    rw [station_setEndpoint_of_ne (other_ne s)] at hr
    obtain ⟨horderly, hheard⟩ := hx s _ _ _ _ hc hr
    exact ⟨horderly, hheard.sender hengaged hp.advances⟩
  · -- The receiver goes on.
    rw [other_other, hset] at hr
    cases hr
    rw [station_setEndpoint_of_ne (other_ne side)] at hd
    obtain ⟨horderly, hheard⟩ := hx side.other _ _ _ _ hd (by rwa [other_other])
    obtain ⟨-, hsender⟩ := h.engaged_at htimeout (s := side.other) (by rw [hd])
    rw [other_other] at hsender
    obtain ⟨ws, hwire, hws⟩ := hsender.welcome
      (by simpa only [other_other] using hcivil side.other d (by rw [hd])) (hroles side).symm
    rw [← hengaged.config] at hws
    exact ⟨horderly.proceeds hengaged hheard hwire hws hp, hheard.receiver hwire hws hengaged hp⟩

theorem Dialogue.receives (h : Dialogue config x)
    (htimeout : ∀ side, (config side).closeTimeout.toNat ≠ 0)
    (hr : x.station side.other = ⟨some r, m⟩) (b : Bytes) :
    Engaged (config side.other) (config side) r ∧
      Advances (Event.Ordinary (config side).rules.FitsWhole) r
        ((r.accept (.feed b)).1.giveTurn .reader) := by
  obtain ⟨-, hreceiver⟩ := h.engaged_at htimeout (s := side.other) (by rw [hr])
  rw [other_other] at hreceiver
  exact ⟨hreceiver, _, .reader, .event (.feed b) trivial, rfl⟩

section

variable (k : Nat) (h : Dialogue config x)
  (htimeout : ∀ side, (config side).closeTimeout.toNat ≠ 0) (he : x.station side = ⟨some e, n⟩)
  (hr : x.station side.other = ⟨some r, m⟩)

include h htimeout he hr

theorem Dialogue.civil_of_pass
    (hcivil : ((x.pass side k).setEndpoint side.other
      ((r.accept (.feed (passed e n k))).1.giveTurn .reader)).Civil config) : x.Civil config := by
  obtain ⟨hreceiver, hgoes⟩ := h.receives htimeout hr (passed e n k)
  obtain ⟨hpass, hfed⟩ := station_fed he hr k
    ((r.accept (.feed (passed e n k))).1.giveTurn .reader)
  intro s c hc
  rcases eq_or_eq_other s side with rfl | rfl
  · exact hcivil s c (by rw [hpass]; rwa [he] at hc)
  · rw [hr] at hc
    cases hc
    have hsays := hcivil side.other _ (by rw [hfed])
    rw [other_other] at hsays ⊢
    exact hsays.of_advances hreceiver hgoes

theorem Dialogue.inTune_pass (hrest : r.tick = none) (hx : x.InTune) :
    ((x.pass side k).setEndpoint side.other
      ((r.accept (.feed (passed e n k))).1.giveTurn .reader)).InTune := by
  obtain ⟨hreceiver, hgoes⟩ := h.receives htimeout hr (passed e n k)
  obtain ⟨hpass, hfed⟩ := station_fed he hr k
    ((r.accept (.feed (passed e n k))).1.giveTurn .reader)
  intro s c i d j hc hd
  rcases eq_or_eq_other s side with rfl | rfl
  · -- The bytes go from here to the other side.
    rw [hpass] at hc
    rw [hfed] at hd
    cases hc
    cases hd
    obtain ⟨horderly, hheard⟩ := hx s _ _ _ _ he hr
    exact ⟨horderly.event hreceiver hrest trivial, hheard.pass k⟩
  · -- The bytes come to here. What was written here before stays on its way.
    rw [hfed] at hc
    rw [other_other, hpass] at hd
    cases hc
    cases hd
    obtain ⟨horderly, hheard⟩ := hx side.other _ _ _ _ hr (by rw [other_other, he])
    exact ⟨horderly, hheard.sender hreceiver hgoes⟩

end

theorem Dialogue.inTune (h : Dialogue config x)
    (hroles : ∀ side, (config side).role ≠ (config side.other).role)
    (htimeout : ∀ side, (config side).closeTimeout.toNat ≠ 0) (hcivil : x.Civil config) :
    x.InTune := by
  induction h with
  | start callbacks keys hsilent =>
    intro s e n r m he hr
    rw [station_joined] at he hr
    cases he
    cases hr
    exact ⟨.attentive _ (hsilent s.other), .attentive _ (hsilent s.other) _⟩
  | step side h he hp ih =>
    have hbefore := h.civil_of_step htimeout he hp hcivil
    exact h.inTune_step hroles htimeout he hp hbefore (ih hbefore)
  | @pass x r side k h hr hrest ih =>
    obtain ⟨e, n, he, -⟩ := h.engaged htimeout side
    obtain ⟨⟨m, hd⟩, -⟩ := h.engaged_at htimeout hr
    rw [undelivered_take he] at hcivil ⊢
    exact h.inTune_pass k htimeout he hd hrest (ih (h.civil_of_pass k htimeout he hd hcivil))

def Idle (x : Exchange) : Prop :=
  ∀ side e, (x.station side).endpoint = some e → e.tick = none

theorem take_of_undelivered (he : x.station side = ⟨some e, n⟩)
    (hall : (x.station side).undelivered = []) :
    e.transport.wire.toList.take n = e.transport.wire.toList := by
  rw [he] at hall
  have hlen := congrArg List.length hall
  simp only [Station.undelivered, Array.toList_extract, List.extract_eq_take_drop] at hlen
  apply List.take_of_length_le
  simp at hlen
  simp
  omega

/-- Both ends of a dialogue, seen from one side. -/
structure Ends (config : Side → Config) (x : Exchange) (s : Side) (e r : Endpoint) (n m : Nat) :
    Prop where
  here : x.station s = ⟨some e, n⟩
  there : x.station s.other = ⟨some r, m⟩
  sender : Engaged (config s) (config s.other) e
  receiver : Engaged (config s.other) (config s) r
  orderly : Orderly e
  orderlyThere : Orderly r
  heard : Heard e r n
  welcome : ∃ ws, e.transport.wire.toList <+: Frame.rowBytes ws ∧ Welcome r.config ws

theorem Dialogue.ends (h : Dialogue config x)
    (hroles : ∀ side, (config side).role ≠ (config side.other).role)
    (htimeout : ∀ side, (config side).closeTimeout.toNat ≠ 0) (hcivil : x.Civil config) (s : Side) :
    ∃ e r n m, Ends config x s e r n m := by
  obtain ⟨e, n, he, hsender⟩ := h.engaged htimeout s
  obtain ⟨r, m, hr, hreceiver⟩ := h.engaged htimeout s.other
  have htune := h.inTune hroles htimeout hcivil
  obtain ⟨horderly, hheard⟩ := htune s e n r m he hr
  have hback := htune s.other r m e n hr (by rwa [other_other])
  rw [other_other] at hreceiver
  refine ⟨e, r, n, m, he, hr, hsender, hreceiver, hback.1, horderly, hheard, ?_⟩
  rw [hreceiver.config]
  exact hsender.welcome (hcivil s e (by rw [he])) (hroles s)

/-- When nothing more is to come, the other end has closed what this end has started to close. -/
theorem Dialogue.closed_there (h : Dialogue config x)
    (hroles : ∀ side, (config side).role ≠ (config side.other).role)
    (htimeout : ∀ side, (config side).closeTimeout.toNat ≠ 0) (hcivil : x.Civil config)
    (hall : (x.station s).undelivered = []) (hidle : x.Idle)
    (he : (x.station s).endpoint = some e)
    (hclosing : e.life.closing = true ∨ e.life.closed = true) :
    ∃ r, (x.station s.other).endpoint = some r ∧ r.life.closed = true := by
  obtain ⟨d, r, n, m, hends⟩ := h.ends hroles htimeout hcivil s
  have hthere : (x.station s.other).endpoint = some r := by rw [hends.there]
  obtain rfl : d = e := by
    rw [hends.here] at he
    exact Option.some.inj he
  have hclose := hends.orderly.endsInClose hends.sender (hidle s d he) hclosing
  obtain ⟨ws, hwire, hws⟩ := hends.welcome
  exact ⟨r, hthere, hends.heard.closed hwire hws hends.receiver hends.orderlyThere
    (hidle s.other r hthere) (take_of_undelivered hends.here hall) hclose⟩

/-- Two ends that talk to each other never blame one another. When one of them has started to close,
all that was written has been passed on and no one goes on, both are closed; the last frame on each
wire is the only close frame on it, and every write that was accepted has ended. -/
theorem concludes_of_dialogue (h : Dialogue config x)
    (hroles : ∀ side, (config side).role ≠ (config side.other).role)
    (htimeout : ∀ side, (config side).closeTimeout.toNat ≠ 0) (hcivil : x.Civil config) :
    (∀ side, ∃ e, (x.station side).endpoint = some e ∧ e.life.errors = []) ∧
      ((∃ side e, (x.station side).endpoint = some e ∧ e.life.closing = true) →
        (∀ side, (x.station side).undelivered = []) → x.Idle →
          ∀ side, ∃ e, (x.station side).endpoint = some e ∧ e.Concluded) := by
  refine ⟨?_, ?_⟩
  · intro side
    obtain ⟨e, r, n, m, hends⟩ := h.ends hroles htimeout hcivil side
    exact ⟨e, by rw [hends.here], hends.orderly.errors_eq_nil hends.sender⟩
  · rintro ⟨s, c, hc, hclosing⟩ hall hidle side
    obtain ⟨r, hr, hthere⟩ :=
      h.closed_there hroles htimeout hcivil (hall s) hidle hc (.inl hclosing)
    obtain ⟨c', hc', hhere⟩ :=
      h.closed_there hroles htimeout hcivil (hall s.other) hidle hr (.inr hthere)
    rw [other_other] at hc'
    have hclosed : ∃ e, (x.station side).endpoint = some e ∧ e.life.closed = true := by
      rcases eq_or_eq_other side s with rfl | rfl
      · exact ⟨c', hc', hhere⟩
      · exact ⟨r, hr, hthere⟩
    obtain ⟨e, he, hclosed⟩ := hclosed
    obtain ⟨d, _, n, m, hends⟩ := h.ends hroles htimeout hcivil side
    obtain rfl : d = e := by
      rw [hends.here] at he
      exact Option.some.inj he
    exact ⟨d, he, hends.orderly.concluded hends.sender (hidle side d he) hclosed⟩

/-! Ends that deal with events, and with what is passed on, one after the other. -/

theorem Dialogue.settle (h : Dialogue config x) (he : x.station side = ⟨some e, n⟩) :
    Dialogue config (x.setEndpoint side e.settle) := by
  fun_induction Endpoint.settle e generalizing x with
  | case1 e hrest => rwa [setEndpoint_self he]
  | case2 e e' hgo ih =>
    rw [← setEndpoint_setEndpoint x side e' e'.settle]
    exact ih (h.step side (by rw [he]) (.tick hgo)) (station_setEndpoint he e')

theorem Idle.settle (h : x.Idle) (he : x.station side = ⟨some e, n⟩) (d : Endpoint) :
    (x.setEndpoint side d.settle).Idle := by
  intro s c hc
  by_cases hs : s = side
  · rw [hs, station_setEndpoint he] at hc
    cases hc
    exact tick_settle d
  · rw [station_setEndpoint_of_ne hs] at hc
    exact h s c hc

theorem Dialogue.handleAlone (h : Dialogue config x) (hidle : x.Idle)
    (he : x.station side = ⟨some e, n⟩) {ev : Event}
    (hev : ev.Ordinary (config side.other).rules.FitsWhole) (hout : ev.isIncoming = false)
    (htime : ∀ n, ev = .advance n → e.Spares n) :
    Dialogue config (x.handleAlone side ev).1 ∧ (x.handleAlone side ev).1.Idle := by
  rw [handleAlone_eq he]
  refine ⟨?_, hidle.settle he _⟩
  have hnext := h.step side (by rw [he]) (.event ev (hidle side e (by rw [he])) hev hout htime)
  have hsettled := hnext.settle (station_setEndpoint he _)
  rwa [setEndpoint_setEndpoint] at hsettled

theorem Dialogue.deliver (h : Dialogue config x) (hidle : x.Idle)
    (he : x.station side = ⟨some e, n⟩) (hr : x.station side.other = ⟨some r, m⟩)
    (limit : Option Nat) :
    Dialogue config (x.deliver side limit).1 ∧ (x.deliver side limit).1.Idle := by
  rw [deliver_eq he hr]
  generalize limit.getD (x.station side).undelivered.length = k
  refine ⟨?_, ?_⟩
  · have hnext := h.pass side k (by rw [hr]) (hidle side.other r (by rw [hr]))
    rw [undelivered_take he] at hnext
    have hsettled := hnext.settle (station_setEndpoint (station_pass he hr k).2 _)
    rwa [setEndpoint_setEndpoint] at hsettled
  · obtain ⟨hpass, hfed⟩ := station_fed he hr k (r.handle (.feed (passed e n k))).1
    intro s c hc
    rcases eq_or_eq_other s side with rfl | rfl
    · rw [hpass] at hc
      exact hidle s c (by rw [he]; exact hc)
    · rw [hfed] at hc
      cases hc
      exact tick_settle _

theorem Dialogue.playAll {α : Type} {f : Exchange → α} {y : α} (h : Dialogue config x)
    (hidle : x.Idle) (htimeout : ∀ side, (config side).closeTimeout.toNat ≠ 0)
    (acts : List (Side × Option Event))
    (hacts : ∀ side ev, (side, some ev) ∈ acts →
      ev.Ordinary (config side.other).rules.FitsWhole ∧ ev.isIncoming = false ∧
        ∀ n, ev ≠ .advance n)
    (hy : (x.playAll n acts).map f = some y) : ∃ x', (Dialogue config x' ∧ x'.Idle) ∧ f x' = y := by
  have hstations : ∀ x, Dialogue config x ∧ x.Idle →
      ∀ side, ∃ e n, x.station side = ⟨some e, n⟩ := by
    rintro x ⟨h, -⟩ side
    obtain ⟨e, n, he, -⟩ := h.engaged htimeout side
    exact ⟨e, n, he⟩
  apply playAll_keeps hstations acts ?_ ?_ ⟨h, hidle⟩ hy
  · rintro x side ev ⟨h, hidle⟩ hm
    obtain ⟨e, n, he⟩ := hstations x ⟨h, hidle⟩ side
    obtain ⟨hev, hout, hnot⟩ := hacts side ev hm
    exact h.handleAlone hidle he hev hout fun n hn => absurd hn (hnot n)
  · rintro x side ⟨h, hidle⟩
    obtain ⟨e, n, he⟩ := hstations x ⟨h, hidle⟩ side
    obtain ⟨r, m, hr⟩ := hstations x ⟨h, hidle⟩ side.other
    exact h.deliver hidle he hr none

/-- A server and a client close at once, while a message and a ping are on their way. -/
def crossing : List (Side × Option Event) :=
  [(.first, some (.write (.message [0x68, 0x69] false))), (.second, some (.write (.ping [0x70]))),
    (.first, some (.write (.close .normal "" true))),
    (.second, some (.write (.close .normal "" true))), (.first, none), (.second, none)]

def standing (x : Exchange) (side : Side) : Option (Traffic × Bool × Bool) :=
  (x.station side).endpoint.map fun e =>
    (e.submitted, e.life.closing, (x.station side).undelivered.isEmpty)

theorem of_standing {t : Traffic} (h : x.standing side = some (t, true, true)) :
    ∃ e, (x.station side).endpoint = some e ∧ e.submitted = t ∧ e.life.closing = true ∧
      (x.station side).undelivered = [] := by
  obtain ⟨e, he, hseen⟩ := Option.map_eq_some_iff.mp h
  obtain ⟨ht, hclosing, hall⟩ := by simpa only [Prod.mk.injEq] using hseen
  exact ⟨e, he, ht, hclosing, List.isEmpty_iff.mp hall⟩

/-- Both ends come to be closed. -/
theorem concludes_of_dialogue_crossing :
    ∃ x, Dialogue pair x ∧ (∀ side, (pair side).role ≠ (pair side.other).role) ∧
      (∀ side, (pair side).closeTimeout.toNat ≠ 0) ∧ x.Civil pair ∧
      (∃ side e, (x.station side).endpoint = some e ∧ e.life.closing = true) ∧
      (∀ side, (x.station side).undelivered = []) ∧ x.Idle ∧
      (∀ side, ∃ e, (x.station side).endpoint = some e ∧ e.life.errors = []) ∧
      ∀ side, ∃ e, (x.station side).endpoint = some e ∧ e.Concluded := by
  have hroles : ∀ side, (pair side).role ≠ (pair side.other).role := by
    rintro (_ | _) <;> decide
  have htimeout : ∀ side, (pair side).closeTimeout.toNat ≠ 0 := by
    rintro (_ | _) <;> decide
  have hstart : Dialogue pair (joined fun side => attentive (pair side) .none fun _ => .zero) :=
    .start (fun _ => .none) (fun _ _ => .zero) fun _ => rfl
  have hidle : (joined fun side => attentive (pair side) .none fun _ => .zero).Idle := by
    intro side e he
    rw [station_joined] at he
    cases he
    cases side <;> exact Option.isNone_iff_eq_none.mp (by decide +kernel)
  obtain ⟨x, ⟨h, hidle⟩, hy⟩ := hstart.playAll (n := 16)
    (f := fun x => (x.standing .first, x.standing .second)) hidle htimeout crossing
    (y := (some (⟨[.byte 0x68 false, .byte 0x69 false, .frameEnd true false], [], []⟩, true, true),
      some (⟨[], [[0x70]], []⟩, true, true)))
    (by
      intro side ev hm
      simp only [crossing, List.mem_cons, Prod.mk.injEq, Option.some.injEq, reduceCtorEq,
        and_false, or_false, List.not_mem_nil] at hm
      rcases hm with ⟨rfl, rfl⟩ | ⟨rfl, rfl⟩ | ⟨rfl, rfl⟩ | ⟨rfl, rfl⟩
      · exact ⟨fun _ => ⟨rfl, by decide, by decide⟩, rfl, by simp⟩
      all_goals exact ⟨trivial, rfl, by simp⟩)
    (by decide +kernel)
  obtain ⟨hfirst, hsecond⟩ := Prod.mk.inj hy
  obtain ⟨e, he, hsubmitted, hclosing, hall⟩ := of_standing hfirst
  obtain ⟨r, hr, hsubmitted', -, hall'⟩ := of_standing hsecond
  have hcivil : x.Civil pair := by
    rintro (_ | _) c hc
    · obtain rfl := Option.some.inj (he.symm.trans hc)
      have htext : Mark.TextSound [.byte 0x68 false, .byte 0x69 false, .frameEnd true false] :=
        Mark.TextSound.nil.message rfl ⟨['h', 'i'], rfl⟩
      refine ⟨hsubmitted ▸ htext, fun fin k _ => ?_⟩
      cases k <;> rfl
    · obtain rfl := Option.some.inj (hr.symm.trans hc)
      refine ⟨hsubmitted' ▸ .nil, fun fin k _ => ?_⟩
      cases k <;> rfl
  have hdelivered : ∀ side, (x.station side).undelivered = [] := by
    rintro (_ | _)
    · exact hall
    · exact hall'
  have hclosing : ∃ side e, (x.station side).endpoint = some e ∧ e.life.closing = true :=
    ⟨.first, e, he, hclosing⟩
  obtain ⟨herrors, hconcluded⟩ := concludes_of_dialogue h hroles htimeout hcivil
  exact ⟨x, h, hroles, htimeout, hcivil, hclosing, hdelivered, hidle, herrors,
    hconcluded hclosing hdelivered hidle⟩

end Exchange

end WebSocket
