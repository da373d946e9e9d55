import Mathlib.Data.List.Induction
import Mathlib.Data.List.Perm.Subperm
import Mathlib.Data.List.Range
import WebSocket.Proofs.Endpoint.Outgoing

/-! No job is lost or doubled, one job of each kind is outstanding at most, and jobs stay in the
order in which they were handed in, except that parts of a data frame overtake control jobs that
are held back while the frame is open. -/

namespace WebSocket.Outgoing

/-- What goes with the phases of the writer. -/
structure Phased (o : Outgoing) : Prop where
  stopped : o.writer.state = .stopped → o.closed = true ∧ o.waiting = []
  spent : o.writer.closeSent = true → o.writer.deferred = [] ∧ o.inHand = []

variable {masked : Bool} {fits : Nat → Nat → Prop} {o o' : Outgoing}

theorem Phased.deferred_ne (hp : Phased o) (hc : o.writer.closeSent = true) (j : Job)
    (rest : List Job) : o.writer.deferred ≠ j :: rest := by
  rw [(hp.spent hc).1]
  exact (List.cons_ne_nil j rest).symm

theorem Phased.unsent (hp : Phased o) {j : Job} {u : Bytes} (hs : o.writer.state = .sending j u) :
    o.writer.closeSent = false := by
  apply Bool.eq_false_iff.mpr
  intro hc
  have hnone := (hp.spent hc).2
  simp [inHand, hs] at hnone

theorem Phased.of_running (hrun : o.writer.state ≠ .stopped) (hc : o.writer.closeSent = false) :
    Phased o :=
  ⟨fun h => absurd h hrun, fun h => absurd (hc.symm.trans h) Bool.false_ne_true⟩

theorem Phased.move (hp : Phased o) (hm : Move masked fits o o') : Phased o' := by
  cases hm with
  | enter j f keys hj => exact ⟨fun h => absurd h hj.running, hp.spent⟩
  | shut => exact ⟨fun h => ⟨rfl, (hp.stopped h).2⟩, hp.spent⟩
  | takeHeld j rest hopen hs hc | takeNew j rest hopen hs hc => exact .of_running (by simp) hc
  | hold j rest hopen hs hc => exact .of_running (by simp [hs]) hc
  | dropHeld j rest hopen hs hc hf hd => exact absurd hd (hp.deferred_ne hc j rest)
  | dropNew j rest hopen hs hc => exact ⟨fun h => absurd (hs.symm.trans h) (by simp), hp.spent⟩
  | put j front rest hopen hs => exact .of_running (by simp [setState]) (hp.unsent hs)
  | write j hopen hs => exact .of_running (by simp) (hp.unsent hs)
  | writeClose j =>
    refine ⟨fun h => ?_, fun _ => ⟨rfl, rfl⟩⟩
    cases (state_complete o j).symm.trans h
  | writeLast | fail | cut | stop => exact ⟨fun _ => ⟨rfl, rfl⟩, fun _ => ⟨rfl, rfl⟩⟩

/-- What a move does to the line of jobs. -/
inductive LineMove (o o' : Outgoing) : Prop where
  | join (j : Job) (hl : o'.lineUp = o.lineUp ++ [j]) (hj : j.serial = o.outbox.nextSerial)
      (hn : o'.outbox.nextSerial = o.outbox.nextSerial + 1)
  | keep (hl : o'.lineUp = o.lineUp) (hn : o'.outbox.nextSerial = o.outbox.nextSerial)
  /-- A part of the open frame passes the jobs held back. -/
  | overtake (front rest : List Job) (j : Job) (hs : o.writer.state = .idle)
      (hc : o.writer.closeSent = false) (hf : o.writer.frameOpen = true)
      (hk : j.kind = .continuation) (hold : o.lineUp = front ++ (o.writer.deferred ++ j :: rest))
      (hnew : o'.lineUp = front ++ j :: (o.writer.deferred ++ rest))
      (hn : o'.outbox.nextSerial = o.outbox.nextSerial)

theorem lineUp_idle (h : o.writer.state = .idle) :
    o.lineUp = o.completions.map (·.job) ++ (o.writer.deferred ++ o.outbox.queue) := by
  rw [lineUp, held, inHand_idle h, List.nil_append, waiting]

theorem lineUp_sending {j : Job} {u : Bytes} (h : o.writer.state = .sending j u) :
    o.lineUp = o.completions.map (·.job) ++ j :: (o.writer.deferred ++ o.outbox.queue) := by
  rw [lineUp, held, inHand_sending h, List.singleton_append, waiting]

theorem lineUp_stop (o : Outgoing) :
    o.stop.lineUp = o.completions.map (·.job) ++ o.waiting := by
  simp [lineUp, Function.comp_def]

theorem lineUp_stop_settle {j : Job} {u : Bytes} (h : o.writer.state = .sending j u) (x : Outcome) :
    (o.settle [⟨j, x⟩]).stop.lineUp = o.lineUp := by
  rw [lineUp_sending h, lineUp_stop, completions_settle, waiting_settle, waiting]
  simp

theorem LineMove.of_move (hp : Phased o) (hm : Move masked fits o o') : LineMove o o' := by
  cases hm with
  | enter j f keys hj =>
    exact .join j (lineUp_enter o j f keys _) hj.serial rfl
  | shut => exact .keep rfl rfl
  | takeHeld j rest hopen hs hc hf hd =>
    refine .keep ?_ rfl
    rw [lineUp_idle hs, hd, lineUp_sending rfl]
    rfl
  | takeNew j rest hopen hs hc hd hk hq =>
    rcases hd with hf | hd
    · -- a frame is open, and its next part goes past what is held back until it is complete
      refine .overtake (o.completions.map (·.job)) rest j hs hc hf (hk hf) ?_ ?_ rfl
      · rw [lineUp_idle hs, hq]
      · rw [lineUp_sending rfl]
        rfl
    · refine .keep ?_ rfl
      rw [lineUp_idle hs, hd, hq, lineUp_sending rfl]
      simp [completions, hd]
  | hold j rest hopen hs hc hf hk hq =>
    refine .keep ?_ rfl
    rw [lineUp_idle hs, hq]
    simp [lineUp, held, waiting, inHand, completions, hs]
  | dropHeld j rest hopen hs hc hf hd => exact absurd hd (hp.deferred_ne hc j rest)
  | dropNew j rest hopen hs hc hd hq =>
    refine .keep ?_ rfl
    rw [lineUp_idle hs, (hp.spent hc).1, hq]
    simp [lineUp, held, waiting, inHand, completions, settle, hs, (hp.spent hc).1]
  | put j front rest hopen hs =>
    refine .keep ?_ rfl
    rw [lineUp_sending hs, lineUp_sending rfl]
    rfl
  | write j hopen hs =>
    refine .keep ?_ rfl
    rw [lineUp_sending hs, lineUp_idle rfl, completions_complete]
    simp [complete, settle, setState]
  | writeClose j hopen hs =>
    refine .keep ?_ rfl
    have hc : completions { (o.complete j).abort with
        writer := { (o.complete j).abort.writer with closeSent := true } } =
        o.completions ++ ⟨j, .written⟩ :: o.waiting.map (⟨·, .aborted⟩) :=
      completions_abort_complete o j
    rw [lineUp_sending hs, lineUp_idle rfl, hc]
    simp [abort, waiting, complete, settle, setState, Function.comp_def]
  | writeLast j hopen hs => exact .keep (lineUp_stop_settle hs .written) rfl
  | fail j unsent f hopen hs => exact .keep (lineUp_stop_settle hs _) rfl
  | cut j unsent hshut hs => exact .keep (lineUp_stop_settle hs _) rfl
  | stop hs =>
    refine .keep ?_ rfl
    rw [lineUp_idle hs, lineUp_stop, waiting]

theorem LineMove.perm (hm : LineMove o o') (hn : o'.outbox.nextSerial = o.outbox.nextSerial) :
    o'.lineUp.Perm o.lineUp := by
  cases hm with
  | join j hl hj hnext => omega
  | keep hl => rw [hl]
  | overtake front rest j hs hc hf hk hold hnew =>
    rw [hold, hnew]
    exact List.Perm.append_left front List.perm_middle.symm

theorem Phased.held_perm (hp : Phased o) (hm : Move masked fits o o')
    (hn : o'.outbox.nextSerial = o.outbox.nextSerial) (cs : List Completion)
    (hc : o'.completions = o.completions ++ cs) : o.held.Perm (cs.map (·.job) ++ o'.held) := by
  have hline := (LineMove.of_move hp hm).perm hn
  rw [lineUp, lineUp, hc, List.map_append, List.append_assoc] at hline
  exact ((List.perm_append_left_iff _).mp hline).symm

/-- Every accepted job stands in the line once. -/
def Numbered (o : Outgoing) : Prop :=
  (o.lineUp.map (·.serial)).Perm (List.range o.outbox.nextSerial)

theorem Numbered.move (h : Numbered o) (hm : LineMove o o') : Numbered o' := by
  cases hm with
  | join j hl hj hn =>
    rw [Numbered, hl, hn, List.map_append, List.range_succ, List.map_singleton, hj]
    exact h.append_right _
  | keep hl hn => rwa [Numbered, hl, hn]
  | overtake front rest j hs hc hf hk hold hnew hn =>
    rw [Numbered, hn]
    have hperm := LineMove.perm (.overtake front rest j hs hc hf hk hold hnew hn) hn
    exact (hperm.map _).trans h

theorem Numbered.lt (h : Numbered o) {j : Job} (hj : j ∈ o.lineUp) :
    j.serial < o.outbox.nextSerial := by
  have := h.subset (List.mem_map_of_mem hj)
  exact List.mem_range.mp this

theorem Numbered.nodup (h : Numbered o) : (o.lineUp.map (·.serial)).Nodup :=
  h.nodup_iff.mpr List.nodup_range

/-- One job may stand before another if it was handed in earlier, or is a part of a data frame and
the other a control job that was held back. -/
def Before (heldBack : Job → Prop) (a b : Job) : Prop :=
  a.serial < b.serial ∨ (a.kind = .continuation ∧ b.kind.control?.isSome = true ∧ heldBack b)

def Ordered (heldBack : Job → Prop) (o : Outgoing) : Prop := o.lineUp.Pairwise (Before heldBack)

theorem Before.mono {p q : Job → Prop} (h : ∀ j, p j → q j) {a b : Job} (hb : Before p a b) :
    Before q a b := by
  rcases hb with hb | ⟨ha, hc, hp⟩
  · exact .inl hb
  · exact .inr ⟨ha, hc, h b hp⟩

theorem Ordered.mono {p q : Job → Prop} (h : ∀ j, p j → q j) (ho : Ordered p o) : Ordered q o :=
  List.Pairwise.imp (Before.mono h) ho

theorem pairwise_overtake {R : Job → Job → Prop} {front passed rest : List Job} {j : Job}
    (h : (front ++ (passed ++ j :: rest)).Pairwise R) (hj : ∀ i ∈ passed, R j i) :
    (front ++ j :: (passed ++ rest)).Pairwise R := by
  obtain ⟨hfront, hmid, hcross⟩ := List.pairwise_append.mp h
  obtain ⟨hover, hrest, hacross⟩ := List.pairwise_append.mp hmid
  obtain ⟨hjrest, hrest⟩ := List.pairwise_cons.mp hrest
  refine List.pairwise_append.mpr ⟨hfront, List.pairwise_cons.mpr ⟨?_, ?_⟩, ?_⟩
  · intro i hi
    rcases List.mem_append.mp hi with hi | hi
    · exact hj i hi
    · exact hjrest i hi
  · exact List.pairwise_append.mpr
      ⟨hover, hrest, fun a ha b hb => hacross a ha b (List.mem_cons_of_mem j hb)⟩
  · intro a ha b hb
    apply hcross a ha b
    simp only [List.mem_cons, List.mem_append] at hb ⊢
    tauto

/-- A job that is handed in comes behind all others. -/
theorem Ordered.join {heldBack : Job → Prop} {j : Job} (h : Ordered heldBack o) (hn : Numbered o)
    (hl : o'.lineUp = o.lineUp ++ [j]) (hj : j.serial = o.outbox.nextSerial) :
    Ordered heldBack o' := by
  rw [Ordered, hl]
  refine List.pairwise_append.mpr ⟨h, List.pairwise_singleton _ _, ?_⟩
  intro a ha b hb
  rw [List.mem_singleton.mp hb]
  left
  rw [hj]
  exact hn.lt ha

/-- Jobs keep their order; those held back are passed by parts of the open frame only. -/
theorem Ordered.move {heldBack : Job → Prop} (h : Ordered heldBack o) (hn : Numbered o)
    (hm : LineMove o o')
    (hd : o.writer.state = .idle → o.writer.closeSent = false → o.writer.frameOpen = true →
      ∀ j ∈ o.writer.deferred, j.kind.control?.isSome = true ∧ heldBack j) :
    Ordered heldBack o' := by
  cases hm with
  | join j hl hj => exact h.join hn hl hj
  | keep hl => rwa [Ordered, hl]
  | overtake front rest j hs hc hf hk hold hnew =>
    rw [Ordered, hold] at h
    rw [Ordered, hnew]
    exact pairwise_overtake h fun i hi => .inr ⟨hk, hd hs hc hf i hi⟩

/-- The slots taken are those of the jobs outstanding, which are of different kinds. -/
structure Slotted (o : Outgoing) : Prop where
  nodup : (o.held.map (·.kind)).Nodup
  busy : ∀ k, o.outbox.slots.isBusy k = true ↔ k ∈ o.held.map (·.kind)

theorem isBusy_release (s : Slots) (k k' : JobKind) :
    (s.release k).isBusy k' = (s.isBusy k' && k' != k) := by
  rw [Slots.release, Slots.isBusy_set]
  by_cases h : k' = k <;> simp [h]

theorem isBusy_foldl_release (cs : List Completion) (s : Slots) (k : JobKind) :
    (cs.foldl (fun s c => s.release c.job.kind) s).isBusy k =
      (s.isBusy k && !(cs.any fun c => c.job.kind == k)) := by
  induction cs generalizing s with
  | nil => simp
  | cons c cs ih =>
    rw [List.foldl_cons, ih, isBusy_release, List.any_cons, Bool.not_or, ← Bool.and_assoc]
    congr 2
    rw [bne, BEq.comm]

theorem Slotted.of_settled (h : Slotted o) (cs : List Completion)
    (hperm : o.held.Perm (cs.map (·.job) ++ o'.held))
    (hslots : o'.outbox.slots = cs.foldl (fun s c => s.release c.job.kind) o.outbox.slots) :
    Slotted o' := by
  have hkinds := hperm.map (·.kind)
  have hnodup := hkinds.nodup_iff.mp h.nodup
  rw [List.map_append, List.map_map] at hkinds hnodup
  obtain ⟨-, hnew, hdisj⟩ := List.nodup_append.mp hnodup
  refine ⟨hnew, ?_⟩
  intro k
  rw [hslots, isBusy_foldl_release, Bool.and_eq_true, h.busy, hkinds.mem_iff, List.mem_append,
    Bool.not_eq_true', List.any_eq_false]
  simp only [beq_iff_eq]
  constructor
  · rintro ⟨hk | hk, hno⟩
    · obtain ⟨c, hc, rfl⟩ := List.mem_map.mp hk
      exact absurd rfl (hno c hc)
    · exact hk
  · intro hk
    refine ⟨.inr hk, ?_⟩
    intro c hc he
    exact hdisj _ (List.mem_map_of_mem hc) k hk he

theorem held_idle (h : o.writer.state = .idle) :
    o.held = o.writer.deferred ++ o.outbox.queue := by
  rw [held, inHand_idle h, List.nil_append, waiting]

theorem held_sending {j : Job} {u : Bytes} (h : o.writer.state = .sending j u) :
    o.held = j :: (o.writer.deferred ++ o.outbox.queue) := by
  rw [held, inHand_sending h, List.singleton_append, waiting]

theorem Slotted.move (h : Slotted o) (hp : Phased o) (hm : Move masked fits o o') :
    Slotted o' := by
  have hperm := hp.held_perm hm
  cases hm with
  | enter j f keys hj =>
    have hnot : j.kind ∉ o.held.map (·.kind) := by
      rw [← h.busy, hj.slot]
      decide
    refine ⟨?_, fun k => ?_⟩ <;> rw [held_enter, List.map_append]
    · refine List.nodup_append.mpr ⟨h.nodup, by simp, ?_⟩
      rintro a ha b hb rfl
      rw [List.map_singleton, List.mem_singleton] at hb
      exact hnot (hb ▸ ha)
    · rw [List.mem_append, List.map_singleton, List.mem_singleton, ← h.busy]
      show ((o.outbox.slots.set j.kind true).isBusy k) = true ↔ _
      rw [Slots.isBusy_set]
      by_cases hk : k = j.kind <;> simp [hk]
  | shut | takeHeld | takeNew | hold | put =>
    exact h.of_settled [] (hperm rfl [] (List.append_nil _).symm) rfl
  | dropHeld j | dropNew j =>
    exact h.of_settled [⟨j, .aborted⟩] (hperm rfl _ (completions_settle o _)) rfl
  | write j => exact h.of_settled [⟨j, .written⟩] (hperm rfl _ (completions_complete o j)) rfl
  | writeClose j | writeLast j =>
    exact h.of_settled _ (hperm rfl _ (completions_abort_complete o j)) rfl
  | fail j | cut j => exact h.of_settled _ (hperm rfl _ (completions_stop_settle o j _)) rfl
  | stop => exact h.of_settled _ (hperm rfl _ (completions_stop o)) rfl

/-- One job of each kind is outstanding at most. -/
theorem Slotted.length_held_le (h : Slotted o) : o.held.length ≤ 5 := by
  have hsub : o.held.map (·.kind) ⊆ JobKind.all := by
    intro k _
    cases k <;> decide
  have := (h.nodup.subperm hsub).length_le
  rwa [List.length_map] at this

end WebSocket.Outgoing
