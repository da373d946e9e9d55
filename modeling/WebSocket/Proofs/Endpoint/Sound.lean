import WebSocket.Proofs.Endpoint.Flow

/-! What holds of the sending side at all times. Every move keeps it. -/

namespace WebSocket.Outgoing

/-- What is known of close frames. -/
structure Closes (o : Outgoing) : Prop where
  spent : o.writer.closeSent = true → o.closing = true ∧ (∀ j ∈ o.held, j.kind = .continuation) ∧
    ∃ j ∈ o.written, j.kind = .close
  pending : o.closing = true → o.writer.closeSent = false → o.writer.state ≠ .stopped →
    ∃ j ∈ o.held, j.kind = .close
  announced : ∀ j ∈ o.held, j.kind = .close → j.last = false → o.closing = true

variable {masked : Bool} {fits : Nat → Nat → Prop} {o o' : Outgoing}

theorem Closes.of_settled (h : Closes o) (cs : List Completion)
    (hperm : o.held.Perm (cs.map (·.job) ++ o'.held)) (hcs : ∀ c ∈ cs, c.job.kind ≠ .close)
    (hwritten : ∀ j ∈ o.written, j ∈ o'.written)
    (hsent : o'.writer.closeSent = o.writer.closeSent) (hclosing : o'.closing = o.closing)
    (hrun : o'.writer.state ≠ .stopped → o.writer.state ≠ .stopped) : Closes o' := by
  have hheld : ∀ j ∈ o'.held, j ∈ o.held := fun j hj =>
    hperm.mem_iff.mpr (List.mem_append_right _ hj)
  refine ⟨?_, ?_, ?_⟩
  · intro hc
    rw [hsent] at hc
    obtain ⟨h1, h2, j, hj, hk⟩ := h.spent hc
    exact ⟨hclosing.trans h1, fun i hi => h2 i (hheld i hi), j, hwritten j hj, hk⟩
  · intro hc hs hr
    rw [hclosing] at hc
    rw [hsent] at hs
    obtain ⟨j, hj, hk⟩ := h.pending hc hs (hrun hr)
    rcases List.mem_append.mp (hperm.mem_iff.mp hj) with hj | hj
    · obtain ⟨c, hc, rfl⟩ := List.mem_map.mp hj
      exact absurd hk (hcs c hc)
    · exact ⟨j, hj, hk⟩
  · intro j hj hk hl
    rw [hclosing]
    exact h.announced j (hheld j hj) hk hl

theorem Closes.of_stopped (h : Closes o) (hs : o'.writer.state = .stopped) (hheld : o'.held = [])
    (hwritten : ∀ j ∈ o.written, j ∈ o'.written)
    (hsent : o'.writer.closeSent = o.writer.closeSent) (hclosing : o'.closing = o.closing) :
    Closes o' := by
  refine ⟨?_, fun _ _ hr => absurd hs hr, ?_⟩
  · intro hc
    rw [hsent] at hc
    obtain ⟨h1, -, j, hj, hk⟩ := h.spent hc
    exact ⟨hclosing.trans h1, by rw [hheld]; exact List.forall_mem_nil _, j, hwritten j hj, hk⟩
  · rw [hheld]
    exact fun j hj => absurd hj List.not_mem_nil

theorem Closes.enter (h : Closes o) {j : Job} {f : OutgoingFrame} (hj : Enters masked fits o j f)
    (keys : Nat) :
    Closes { o with
      outbox := o.outbox.enter j f keys
      closing := o.closing || (j.kind == .close && !j.last) } := by
  refine ⟨?_, ?_, ?_⟩
  · intro hc
    obtain ⟨h1, h2, hclose⟩ := h.spent hc
    refine ⟨by rw [h1]; rfl, ?_, hclose⟩
    intro i hi
    rw [held_enter] at hi
    rcases List.mem_append.mp hi with hi | hi
    · exact h2 i hi
    · rw [List.mem_singleton.mp hi]
      exact hj.closing h1
  · intro hc hs hr
    rw [held_enter]
    by_cases hcl : o.closing = true
    · obtain ⟨i, hi, hk⟩ := h.pending hcl hs hr
      exact ⟨i, List.mem_append_left _ hi, hk⟩
    · have hk : (o.closing || (j.kind == .close && !j.last)) = true := hc
      rw [eq_false_of_ne_true hcl, Bool.false_or, Bool.and_eq_true, beq_iff_eq] at hk
      exact ⟨j, by simp, hk.1⟩
  · intro i hi hk hl
    rw [held_enter] at hi
    show (o.closing || _) = true
    rcases List.mem_append.mp hi with hi | hi
    · rw [h.announced i hi hk hl]
      rfl
    · rw [List.mem_singleton.mp hi] at hk hl
      simp [hk, hl]

theorem Closes.writeClose (h : Closes o) {j : Job} (hs : o.writer.state = .sending j [])
    (hl : j.last = false) (hk : j.kind = .close) :
    Closes { (o.complete j).abort with
      writer := { (o.complete j).abort.writer with closeSent := true } } := by
  have hcl : o.closing = true := by
    refine h.announced j ?_ hk hl
    rw [held_sending hs]
    exact List.mem_cons_self
  have hnow : j ∈ (o.complete j).abort.written := by
    rw [written_abort_complete]
    simp
  refine ⟨?_, ?_, fun i hi => absurd hi List.not_mem_nil⟩
  · intro _
    exact ⟨hcl, fun i hi => absurd hi List.not_mem_nil, j, hnow, hk⟩
  · intro _ hsent
    simp at hsent

theorem Closes.move (h : Closes o) (hp : Phased o) (hm : Move masked fits o o') : Closes o' := by
  have hwritten := written_mono hm.completions_prefix
  have hperm := hp.held_perm hm
  cases hm with
  | enter j f keys hj => exact h.enter hj keys
  | shut | hold =>
    exact h.of_settled [] (hperm rfl [] (List.append_nil _).symm) (by simp) hwritten rfl rfl id
  | takeHeld j rest hopen hs | takeNew j rest hopen hs | put j front rest hopen hs =>
    exact h.of_settled [] (hperm rfl [] (List.append_nil _).symm) (by simp) hwritten rfl rfl
      fun _ => by simp [hs]
  | dropHeld j rest hopen hs hc | dropNew j rest hopen hs hc =>
    have hjobs := hperm rfl [⟨j, .aborted⟩] (completions_settle o _)
    refine h.of_settled [⟨j, .aborted⟩] hjobs ?_ hwritten rfl rfl id
    have hkind := (h.spent hc).2.1 j (hjobs.mem_iff.mpr (by simp))
    simp [hkind]
  | write j hopen hs hl hk =>
    exact h.of_settled [⟨j, .written⟩] (hperm rfl _ (completions_complete o j)) (by simpa using hk)
      hwritten rfl rfl fun _ => by simp [hs]
  | writeClose j hopen hs hl hk => exact h.writeClose hs hl hk
  | writeLast | fail | cut | stop =>
    exact h.of_stopped (state_stop _) (held_stop _) hwritten rfl rfl

/-- What holds at all times. -/
structure Sound (masked : Bool) (fits : Nat → Nat → Prop) (o : Outgoing) : Prop where
  phased : Phased o
  numbered : Numbered o
  slotted : Slotted o
  shaped : Shaped o
  flowing : Flowing masked fits o
  wired : Wired (fun _ => True) masked fits o
  closes : Closes o

theorem Sound.move (h : Sound masked fits o) (hm : Move masked fits o o') :
    Sound masked fits o' where
  phased := h.phased.move hm
  numbered := h.numbered.move (.of_move h.phased hm)
  slotted := h.slotted.move h.phased hm
  shaped := h.shaped.move h.phased hm
  flowing := h.flowing.move hm
  wired := h.wired.move h.phased h.shaped (h.flowing.move hm) (fun _ _ => trivial) hm
  closes := h.closes.move h.phased hm

def initial : Outgoing :=
  ⟨⟨.free, .none, 0, 0, []⟩, ⟨.idle, [], false, false, #[]⟩, #[], false, false⟩

theorem Sound.initial : Sound masked fits initial where
  phased := .of_running (by simp [Outgoing.initial]) rfl
  numbered := List.Perm.refl []
  slotted := ⟨List.nodup_nil, fun k => by cases k <;> simp [Outgoing.initial, held, inHand, waiting,
    Slots.isBusy, Slots.free]⟩
  shaped := ⟨rfl, List.forall_mem_nil _, fun _ => List.forall_mem_nil _, fun _ _ => rfl⟩
  flowing := fun _ _ => ⟨.none, .nil, rfl, .nil, List.forall_mem_nil _, List.forall_mem_nil _,
    List.forall_mem_nil _⟩
  wired := ⟨[], [], .none, rfl, .nil, .none rfl⟩
  closes := by
    refine ⟨?_, ?_, fun j hj => absurd hj List.not_mem_nil⟩
    · intro hsent
      cases hsent
    · intro hclosing
      cases hclosing

/-- Nothing is behind a close call but the parts of the open frame, and the close call holds its
slot until it is written. -/
theorem Sound.close_busy (h : Sound masked fits o) (hc : o.closing = true)
    (hs : o.writer.closeSent = false) (hr : o.writer.state ≠ .stopped) :
    o.outbox.slots.isBusy .close = true := by
  obtain ⟨j, hj, hk⟩ := h.closes.pending hc hs hr
  rw [h.slotted.busy, ← hk]
  exact List.mem_map_of_mem hj

/-- While the writer goes on, all jobs settled before a close frame have been written. -/
theorem Sound.all_written (h : Sound masked fits o) (hrun : o.writer.state ≠ .stopped)
    (hsent : o.writer.closeSent = false) : o.completions = o.written.map (⟨·, .written⟩) := by
  have hfront := h.shaped.front
  rwa [h.shaped.clean hrun hsent, List.append_nil] at hfront

theorem Sound.sending (h : Sound masked fits o) {j : Job} {u : Bytes}
    (hs : o.writer.state = .sending j u) : ∃ f g, FlowsFrom masked fits o f ∧
      Follows masked fits f j g ∧ Trail masked fits g o.outbox.queue o.outbox.frame ∧
      (j.kind ≠ .continuation → f.remaining = 0) := by
  obtain ⟨f, hf⟩ := h.flowing (by simp [hs]) (h.phased.unsent hs)
  obtain ⟨g, hg⟩ := hf.sending hs
  exact ⟨f, g, hf, hg⟩

theorem Sound.kind_of_last (h : Sound masked fits o) {j : Job} {u : Bytes}
    (hs : o.writer.state = .sending j u) (hl : j.last = true) : j.kind = .close := by
  obtain ⟨f, g, -, hj, -⟩ := h.sending hs
  exact hj.kind_of_last hl

/-- Between two jobs the wire has those that have been written. -/
theorem Sound.wire_of_idle (h : Sound masked fits o) (hs : o.writer.state = .idle) :
    o.wire.toList = o.written.flatMap Job.bytes := by
  obtain ⟨part, tail, f, hwire, -, hpart⟩ := h.wired
  obtain ⟨-, rfl⟩ := hpart.of_idle hs
  rwa [List.append_nil] at hwire

theorem Sound.deferred_control (h : Sound masked fits o) :
    ∀ j ∈ o.writer.deferred, j.kind.control?.isSome = true := by
  intro j hj
  by_cases hstopped : o.writer.state = .stopped
  · have hnone := (List.append_eq_nil_iff.mp (h.phased.stopped hstopped).2).1
    exact absurd (hnone ▸ hj) List.not_mem_nil
  · cases hsent : o.writer.closeSent with
    | true => exact absurd ((h.phased.spent hsent).1 ▸ hj) List.not_mem_nil
    | false =>
      obtain ⟨f, hf⟩ := h.flowing hstopped hsent
      exact (hf.deferred j hj).1

/-- The queue is never full. -/
theorem Sound.length_queue_lt (h : Sound masked fits o) : o.outbox.queue.length < 8 := by
  have := h.slotted.length_held_le
  rw [held, waiting] at this
  simp only [List.length_append] at this
  omega

end WebSocket.Outgoing
