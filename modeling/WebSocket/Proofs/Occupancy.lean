import WebSocket.Proofs.Completions

/-! Slots and the queue. The slots taken are the kinds of the jobs outstanding, each of which is
outstanding once. So the queue always has room, and a call that passes its checks is taken. A slot
is free as soon as its job has ended. -/

namespace WebSocket

def WriteCall.kind : WriteCall → JobKind
  | firstChunk .. | message .. => .message
  | continuation _ => .continuation
  | ping _ => .ping
  | pong _ => .pong
  | close .. => .close

namespace Endpoint

def AdmitsFrame (e : Endpoint) (announced given : Nat) : Prop :=
  e.life.closing = false ∧ given ≤ announced ∧ e.outbox.slots.isBusy .message = false ∧
    e.outbox.frame.remaining = 0

def AdmitsControl (e : Endpoint) (kind : JobKind) (payload : Bytes) : Prop :=
  e.life.closing = false ∧ payload.length ≤ maxControlPayload ∧
    e.outbox.slots.isBusy kind = false

/-- The call passes its checks: those of what it is given, of the state and of its slot. -/
def Admits (e : Endpoint) : WriteCall → Prop
  | .firstChunk n chunk _ _ => e.AdmitsFrame n.toNat chunk.length
  | .message data _ => e.AdmitsFrame data.length.toUInt64.toNat data.length
  | .continuation chunk =>
    e.outbox.slots.isBusy .continuation = false ∧ e.outbox.frame.remaining ≠ 0 ∧
      chunk.length ≤ e.outbox.frame.remaining
  | .ping payload => e.AdmitsControl .ping payload
  | .pong payload => e.AdmitsControl .pong payload
  | .close code reason timed =>
    e.life.closing = false ∧ (∃ payload, ClosePayload.encode code reason = .ok payload) ∧
      e.outbox.slots.isBusy .close = false ∧ timed = true

/-- The call is taken: its job is the last in the queue. -/
def Takes (e : Endpoint) (c : WriteCall) : Prop :=
  ∃ j, c.Makes j ∧ j.serial = e.outbox.nextSerial ∧ (e.write c).2 = .ok j.serial ∧
    (e.write c).1.outbox.queue = e.outbox.queue ++ [j]

/-- The slots show the jobs outstanding, and there is room for more. -/
structure Mirrors (e : Endpoint) : Prop where
  distinct : (e.outstanding.map (·.kind)).Nodup
  busy : ∀ k, e.outbox.slots.isBusy k = true ↔ ∃ j ∈ e.outstanding, j.kind = k
  few : e.outstanding.length ≤ 5
  room : e.outbox.queue.length < queueCapacity
  /-- No job is turned away for want of room, whoever hands it in. -/
  never : ∀ kind header data mask offset owed last,
    (e.enqueue kind header data mask offset owed last).2 ≠ .error .queueFull
  takes : ∀ c, e.life.closed = false → (e.Takes c ↔ e.Admits c)

structure Occupied (states : List Endpoint) (e : Endpoint) : Prop where
  mirrors : ∀ r cs, Mirrors ({ e with reader := r }.writeAll cs).1
  /-- The slot of a job is free when the job has ended. -/
  freed : ∀ d d', Passes states d d' → ∀ c ∈ d'.ended, c ∉ d.ended →
    d'.outbox.slots.isBusy c.job.kind = false
  /-- Later a call of the kind is refused for its slot only if another has taken that since. -/
  retaken : ∀ d d', Passes states d d' → ∀ c ∈ d'.ended, c ∉ d.ended →
    ∀ call : WriteCall, call.kind = c.job.kind → (e.write call).2 = .error .writePending →
      ∃ j ∈ e.outstanding, j.kind = c.job.kind ∧ d'.outbox.nextSerial ≤ j.serial

variable {ok : Event → Prop} {fits : Nat → Nat → Prop} {e e' d d' : Endpoint}
  {past : List Endpoint}

/-! What becomes of a call on an open connection. -/

/-- The answer to a call: it is refused by one of its checks, by that of its slot if it is said to
be pending, or it passes them all. -/
inductive Answered (e : Endpoint) (kind : JobKind) (checks : Prop) : Except Refusal Nat → Prop where
  | refused (r : Refusal) (hno : ¬ checks)
      (hslot : r = .writePending → e.outbox.slots.isBusy kind = true) :
      Answered e kind checks (.error r)
  | taken (n : Nat) (hyes : checks) : Answered e kind checks (.ok n)

theorem closing_of_unwritable {r : Refusal} (hopen : e.life.closed = false)
    (h : e.unwritable = some r) : e.life.closing = true ∧ r = .closeSent := by
  unfold unwritable at h
  rw [if_neg (by simp [hopen])] at h
  split at h
  · next hcl => exact ⟨hcl, (Option.some.inj h).symm⟩
  · cases h

theorem encode_ne_pending (code : CloseCode) (reason : String) :
    ClosePayload.encode code reason ≠ .error .writePending := by
  unfold ClosePayload.encode
  split
  · split <;> simp
  · simp

section

variable (h : e.Sending fits) (hopen : e.life.closed = false)

include h hopen

theorem writeFirstChunk_answered (n : UInt64) (chunk : Bytes) (last binary : Bool) :
    Answered e .message (e.AdmitsFrame n.toNat chunk.length)
      (e.writeFirstChunk n chunk last binary).2 := by
  unfold writeFirstChunk
  split
  · next r hu =>
    obtain ⟨hcl, rfl⟩ := closing_of_unwritable hopen hu
    exact .refused _ (fun hc => by simp [hc.1] at hcl) nofun
  · next hu =>
    split
    · next hlen => exact .refused _ (fun hc => absurd hc.2.1 (Nat.not_le.mpr hlen)) nofun
    · next hlen =>
      split
      · next hslot => exact .refused _ (fun hc => by simp [hc.2.2.1] at hslot) fun _ => hslot
      · next hslot =>
        split
        · next hrem => exact .refused _ (fun hc => absurd hc.2.2.2 (by omega)) nofun
        · next hrem =>
          obtain ⟨key, keys, -, hdraw⟩ := drawKey_eq e
          rw [hdraw]
          dsimp only
          rw [enqueue_eq h hopen]
          exact .taken _ ⟨(unwritable_eq_none hu).2, Nat.not_lt.mp hlen, eq_false_of_ne_true hslot,
            Nat.eq_zero_of_not_pos hrem⟩

theorem writeContinuation_answered (chunk : Bytes) :
    Answered e .continuation (e.Admits (.continuation chunk)) (e.writeContinuation chunk).2 := by
  unfold writeContinuation
  rw [if_neg (by simp [hopen])]
  split
  · next hslot => exact .refused _ (fun hc => by simp [hc.1] at hslot) fun _ => hslot
  · next hslot =>
    dsimp only
    split
    · next hrem => exact .refused _ (fun hc => hc.2.1 hrem) nofun
    · next hrem =>
      split
      · next hlen => exact .refused _ (fun hc => absurd hc.2.2 (Nat.not_le.mpr hlen)) nofun
      · next hlen =>
        have henq := enqueue_eq h hopen .continuation none chunk e.outbox.frame.mask
          e.outbox.frame.offset (e.outbox.frame.remaining - chunk.length) false
          e.outbox.keysDrawn e.life
        rw [show enqueue e _ _ _ _ _ _ _ = _ from henq]
        exact .taken _ ⟨eq_false_of_ne_true hslot, hrem, Nat.not_lt.mp hlen⟩

theorem enqueueControl_answered {checks : Prop} (hyes : checks) (kind : JobKind) (op : Opcode)
    (payload : Bytes) (last : Bool) (life : Life) :
    Answered e kind checks ({ e with life }.enqueueControl kind op payload last).2 := by
  obtain ⟨key, keys, -, hdraw⟩ := drawKey_eq { e with life }
  rw [enqueueControl, hdraw]
  dsimp only
  rw [enqueue_eq h hopen]
  exact .taken _ hyes

theorem writeControl_answered (kind : JobKind) (op : Opcode) (payload : Bytes) :
    Answered e kind (e.AdmitsControl kind payload) (e.writeControl kind op payload).2 := by
  unfold writeControl
  split
  · next r hu =>
    obtain ⟨hcl, rfl⟩ := closing_of_unwritable hopen hu
    exact .refused _ (fun hc => by simp [hc.1] at hcl) nofun
  · next hu =>
    split
    · next hlen => exact .refused _ (fun hc => absurd hc.2.1 (Nat.not_le.mpr hlen)) nofun
    · next hlen =>
      split
      · next hslot => exact .refused _ (fun hc => by simp [hc.2.2] at hslot) fun _ => hslot
      · next hslot =>
        exact enqueueControl_answered h hopen ⟨(unwritable_eq_none hu).2, Nat.not_lt.mp hlen,
          eq_false_of_ne_true hslot⟩ kind op payload false e.life

theorem writeClose_answered (code : CloseCode) (reason : String) (timed : Bool) :
    Answered e .close (e.Admits (.close code reason timed)) (e.writeClose code reason timed).2 := by
  unfold writeClose
  rw [if_neg (by simp [hopen])]
  split
  · next r henc =>
    refine .refused r ?_ ?_
    · rintro ⟨-, ⟨payload, hp⟩, -⟩
      exact absurd (henc.symm.trans hp) (by simp)
    · rintro rfl
      exact absurd henc (encode_ne_pending code reason)
  · next payload henc =>
    split
    · next hslot => exact .refused _ (fun hc => by simp [hc.2.2.1] at hslot) fun _ => hslot
    · next hslot =>
      split
      · next hcl => exact .refused _ (fun hc => by simp [hc.1] at hcl) nofun
      · next hcl =>
        split
        · next htimed => exact .refused _ (fun hc => by simp [hc.2.2.2] at htimed) nofun
        · next htimed =>
          exact enqueueControl_answered h hopen ⟨eq_false_of_ne_true hcl, ⟨payload, henc⟩,
            eq_false_of_ne_true hslot, by simpa using htimed⟩ .close .close payload false _

theorem write_answered (c : WriteCall) : Answered e c.kind (e.Admits c) (e.write c).2 := by
  cases c with
  | firstChunk n chunk last binary => exact writeFirstChunk_answered h hopen n chunk last binary
  | message data binary => exact writeFirstChunk_answered h hopen _ data true binary
  | continuation chunk => exact writeContinuation_answered h hopen chunk
  | ping payload => exact writeControl_answered h hopen .ping .ping payload
  | pong payload => exact writeControl_answered h hopen .pong .pong payload
  | close code reason timed => exact writeClose_answered h hopen code reason timed

theorem takes_iff (c : WriteCall) (hc : c.Within fits) : e.Takes c ↔ e.Admits c := by
  have hanswered := write_answered h hopen c
  have hentered := write_entered h hc
  unfold Takes
  generalize e.write c = a at hanswered hentered ⊢
  cases hentered with
  | refused r =>
    cases hanswered with
    | refused _ hno => exact ⟨fun ⟨j, _, _, hj, _⟩ => (nomatch hj), fun hyes => absurd hyes hno⟩
  | accepted j f keys timer hj hmakes =>
    cases hanswered with
    | taken _ hyes => exact ⟨fun _ => hyes, fun _ => ⟨j, hmakes, hj.serial, rfl, rfl⟩⟩

end

theorem busy_of_refused (h : e.Sending fits) {c : WriteCall}
    (hp : (e.write c).2 = .error .writePending) : e.outbox.slots.isBusy c.kind = true := by
  cases hclosed : e.life.closed with
  | true =>
    rw [write_of_closed hclosed] at hp
    cases hp
  | false =>
    have hanswered := write_answered h hclosed c
    rw [hp] at hanswered
    cases hanswered with
    | refused _ _ hslot => exact hslot rfl

theorem Sending.mirrors (h : e.Sending fun _ _ => True) : Mirrors e := by
  have hroom : e.outbox.queue.length < queueCapacity := h.length_queue_lt
  refine ⟨h.slotted.nodup, ?_, h.slotted.length_held_le, hroom, ?_, ?_⟩
  · intro k
    rw [show e.outbox.slots.isBusy k = true ↔ _ from h.slotted.busy k, List.mem_map]
    rfl
  · intro kind header data mask offset owed last
    unfold enqueue
    split
    · simp
    · rw [if_neg (Nat.not_le.mpr hroom)]
      simp
  · exact fun c hopen => takes_iff h hopen c c.within_any

end Endpoint

/-! What is outstanding after a job has ended. -/

namespace Outgoing

variable {masked : Bool} {fits : Nat → Nat → Prop} {o o' : Outgoing}

theorem Move.held_new (hm : Move masked fits o o') (hp : Phased o) :
    o.outbox.nextSerial ≤ o'.outbox.nextSerial ∧
      ∀ j ∈ o'.held, j ∈ o.held ∨ o.outbox.nextSerial ≤ j.serial := by
  by_cases hn : o'.outbox.nextSerial = o.outbox.nextSerial
  · obtain ⟨cs, hc⟩ := hm.completions_prefix
    have hperm := hp.held_perm hm hn cs hc.symm
    exact ⟨hn.ge, fun j hj => .inl (hperm.symm.subset (List.mem_append_right _ hj))⟩
  · cases hm with
    | enter j f keys hj =>
      refine ⟨Nat.le_succ _, fun i hi => ?_⟩
      rw [held_enter] at hi
      rcases List.mem_append.mp hi with hi | hi
      · exact .inl hi
      · exact .inr (by rw [List.mem_singleton.mp hi, hj.serial])
    | _ => exact absurd rfl hn

theorem Move.free_of_ended (hm : Move masked fits o o') (hs : o.Sound masked fits) {c : Completion}
    (hc : c ∈ o'.completions) (hnew : c ∉ o.completions) :
    o'.outbox.slots.isBusy c.job.kind = false := by
  have hs' := hs.move hm
  have hn : o'.outbox.nextSerial = o.outbox.nextSerial := by
    cases hm with
    | enter => exact absurd hc hnew
    | _ => rfl
  obtain ⟨cs, hcs⟩ := hm.completions_prefix
  have hperm := hs.phased.held_perm hm hn cs hcs.symm
  have hkinds := (hperm.map (·.kind)).nodup_iff.mp hs.slotted.nodup
  rw [List.map_append] at hkinds
  obtain ⟨-, -, hdisj⟩ := List.nodup_append.mp hkinds
  have hmem : c ∈ cs := by
    rw [← hcs] at hc
    exact (List.mem_append.mp hc).resolve_left hnew
  apply Bool.eq_false_iff.mpr
  intro hbusy
  refine hdisj _ (List.mem_map_of_mem (List.mem_map_of_mem hmem)) _
    ((hs'.slotted.busy _).mp hbusy) rfl

end Outgoing

namespace Endpoint

variable {ok : Event → Prop} {fits : Nat → Nat → Prop} {e d d' : Endpoint} {past : List Endpoint}

theorem Step.free_of_ended (hs : Step ok d d') (h : d.InOrder fits)
    (hok : ∀ c, ok (.write c) → c.Within fits) {c : Completion} (hc : c ∈ d'.ended)
    (hnew : c ∉ d.ended) : d'.outbox.slots.isBusy c.job.kind = false := by
  rcases hs.shift_or h hok with hshift | hw
  · rw [ended, hshift.writer] at hc
    exact absurd hc hnew
  · have hm : Outgoing.Move d.masks fits d.outgoing d'.outgoing := writerStep_move hw
    exact hm.free_of_ended h.sending hc hnew

/-- A slot that is free stays so until a call takes it. -/
theorem Run.retaken (h : Run ok (e :: past)) (hok : ∀ c, ok (.write c) → c.Within fits)
    (hd : d ∈ e :: past) {k : JobKind} (hfree : d.outbox.slots.isBusy k = false)
    (hbusy : e.outbox.slots.isBusy k = true) :
    ∃ j ∈ e.outstanding, j.kind = k ∧ d.outbox.nextSerial ≤ j.serial := by
  have hsend := (h.inOrder hok).sending
  obtain ⟨j, hj, hk⟩ := List.mem_map.mp ((hsend.slotted.busy k).mp hbusy)
  have hlater : d.outbox.nextSerial ≤ e.outgoing.outbox.nextSerial ∧
      ∀ j ∈ e.outgoing.held, j.kind = k → d.outbox.nextSerial ≤ j.serial := by
    refine h.carry (P := fun o => d.outbox.nextSerial ≤ o.outbox.nextSerial ∧
      ∀ j ∈ o.held, j.kind = k → d.outbox.nextSerial ≤ j.serial) hok hd ⟨Nat.le_refl _, ?_⟩ ?_
    · obtain ⟨earlier, hrun⟩ := h.of_mem hd
      intro i hi hik
      have := ((hrun.inOrder hok).sending.slotted.busy k).mpr (hik ▸ List.mem_map_of_mem hi)
      exact absurd (hfree.symm.trans this) Bool.false_ne_true
    · rintro o o' hs hm ⟨hle, hheld⟩
      obtain ⟨hnext, hnew⟩ := hm.held_new hs.phased
      refine ⟨Nat.le_trans hle hnext, fun i hi hik => ?_⟩
      rcases hnew i hi with hi | hi
      · exact hheld i hi hik
      · exact Nat.le_trans hle hi
  exact ⟨j, hj, hk, hlater.2 j hj hk⟩

/-- In every run the slots show the jobs outstanding, of which there are five at most and no two of
a kind; the queue has room for every call that passes its checks; and a job that has ended has
freed its slot. -/
theorem occupied_of_run (h : Run (fun _ => True) (e :: past)) : Occupied (e :: past) e := by
  have hok : ∀ c : WriteCall, True → c.Within fun _ _ => True := fun c _ => c.within_any
  have hsend := (h.inOrder hok).sending
  have hfreed : ∀ d d', Passes (e :: past) d d' → ∀ c ∈ d'.ended, c ∉ d.ended →
      d'.outbox.slots.isBusy c.job.kind = false := by
    intro d d' hp c hc hnew
    obtain ⟨-, hs, earlier, hrun⟩ := h.of_passes hp
    exact hs.free_of_ended (hrun.inOrder hok) hok hc hnew
  refine ⟨?_, hfreed, ?_⟩
  · intro r cs
    have hread : Acts (fun _ _ => True) e { e with reader := r } := .read e r
    have hsend := hread.sending hsend
    exact ((writeAll_acts hsend cs fun c _ => c.within_any).sending hsend).mirrors
  · intro d d' hp c hc hnew call hkind hrefused
    have hbusy := busy_of_refused hsend hrefused
    rw [hkind] at hbusy
    exact h.retaken hok (h.of_passes hp).1 (hfreed d d' hp c hc hnew) hbusy

/-- A server on a stream that takes nothing, with a job of each kind outstanding. -/
theorem occupied_of_run_full :
    ∃ (e : Endpoint) (past : List Endpoint), Run (fun _ => True) (e :: past) ∧
      e.tick = none ∧ e.pending = JobKind.all ∧ e.outstanding.length = 5 ∧
      Occupied (e :: past) e := by
  have h : Run (fun _ => True) [opened .server .none (fun _ => .zero) (some 0) none] :=
    .start _ _ _ _ _ fun _ _ => trivial
  obtain ⟨e, past, h, hy⟩ := h.handleAll (n := 8)
    (f := fun e => (e.tick.isNone, e.pending, e.outstanding.length))
    [.write (.firstChunk 2 [0x61] true true), .write (.continuation [0x62]), .write (.ping []),
      .write (.pong []), .write (.close .normal "" true)]
    (fun _ _ => trivial) (y := (true, JobKind.all, 5)) (by decide)
  obtain ⟨hrest, hpending, hlength⟩ := by simpa only [Prod.mk.injEq] using hy
  exact ⟨e, past, h, Option.isNone_iff_eq_none.mp hrest, hpending, hlength, occupied_of_run h⟩

end Endpoint

end WebSocket
