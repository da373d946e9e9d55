import WebSocket.Proofs.Endpoint.Queue

/-! How jobs are settled and what they leave on the wire. Jobs are written until one fails or the
writer ends, and after that the rest is aborted. The wire has the bytes of the jobs written and
perhaps a part of one more, and these jobs make up frames. -/

namespace WebSocket.Outgoing

def lost (o : Outgoing) : List Completion := o.completions.filter (·.outcome ≠ .written)

/-- The jobs written come first; one job fails at most, and behind it jobs are aborted. -/
structure Shaped (o : Outgoing) : Prop where
  front : o.completions = o.written.map (⟨·, .written⟩) ++ o.lost
  fault : ∀ c ∈ o.lost.tail, c.outcome = .aborted
  running : o.writer.state ≠ .stopped → ∀ c ∈ o.lost, c.outcome = .aborted
  clean : o.writer.state ≠ .stopped → o.writer.closeSent = false → o.lost = []

variable {masked : Bool} {fits : Nat → Nat → Prop} {o o' : Outgoing}

section

variable {a : List Job} {b : List Completion}

theorem filter_written_map (a : List Job) :
    (a.map (⟨·, .written⟩ : Job → Completion)).filter (·.outcome = .written) =
      a.map (⟨·, .written⟩) :=
  List.filter_eq_self.mpr (by simp)

theorem written_settled (hc : o'.completions = o.completions ++ (a.map (⟨·, .written⟩) ++ b))
    (hb : ∀ c ∈ b, c.outcome ≠ .written) : o'.written = o.written ++ a := by
  have hnone : b.filter (·.outcome = .written) = [] :=
    List.filter_eq_nil_iff.mpr (by simpa using hb)
  rw [written, hc, List.filter_append, List.filter_append, filter_written_map, hnone]
  simp [written, Function.comp_def]

theorem lost_settled (hc : o'.completions = o.completions ++ (a.map (⟨·, .written⟩) ++ b))
    (hb : ∀ c ∈ b, c.outcome ≠ .written) : o'.lost = o.lost ++ b := by
  have hall : b.filter (·.outcome ≠ .written) = b := List.filter_eq_self.mpr (by simpa using hb)
  have hnone : (a.map (⟨·, .written⟩ : Job → Completion)).filter (·.outcome ≠ .written) = [] :=
    List.filter_eq_nil_iff.mpr (by simp)
  rw [lost, hc, List.filter_append, List.filter_append, hnone, hall]
  rfl

theorem written_of_lost (hc : o'.completions = o.completions ++ b)
    (hb : ∀ c ∈ b, c.outcome ≠ .written) : o'.written = o.written := by
  rw [written_settled (a := []) (b := b) hc hb, List.append_nil]

theorem Shaped.front_settled (h : Shaped o)
    (hc : o'.completions = o.completions ++ (a.map (⟨·, .written⟩) ++ b))
    (hb : ∀ c ∈ b, c.outcome ≠ .written) (ha : a ≠ [] → o.lost = []) :
    o'.completions = o'.written.map (⟨·, .written⟩) ++ o'.lost := by
  rw [written_settled hc hb, lost_settled hc hb, hc, h.front]
  rcases a with - | ⟨j, a⟩
  · simp
  · simp [ha (by simp)]

end

theorem aborted_ne_written (js : List Job) :
    ∀ c ∈ js.map (⟨·, .aborted⟩ : Job → Completion), c.outcome ≠ .written := by
  simp

theorem written_settle_aborted (o : Outgoing) (j : Job) :
    (o.settle [⟨j, .aborted⟩]).written = o.written :=
  written_of_lost (completions_settle o _) (by simp)

theorem written_complete (o : Outgoing) (j : Job) :
    (o.complete j).written = o.written ++ [j] :=
  written_settled (a := [j]) (b := []) (completions_complete o j) (by simp)

theorem written_abort_complete (o : Outgoing) (j : Job) :
    (o.complete j).abort.written = o.written ++ [j] :=
  written_settled (a := [j]) (completions_abort_complete o j) (aborted_ne_written _)

theorem written_stop (o : Outgoing) : o.stop.written = o.written :=
  written_of_lost (completions_stop o) (aborted_ne_written _)

theorem written_stop_settle (o : Outgoing) (j : Job) {x : Outcome} (hx : x ≠ .written) :
    (o.settle [⟨j, x⟩]).stop.written = o.written := by
  rw [written_stop]
  exact written_of_lost (completions_settle o _) (by simpa using hx)

theorem Shaped.lost_sending (h : Shaped o) (hp : Phased o) {j : Job} {u : Bytes}
    (hs : o.writer.state = .sending j u) : o.lost = [] :=
  h.clean (by simp [hs]) (hp.unsent hs)

theorem Shaped.of_ended {a : List Job} {b : List Completion} (h : Shaped o)
    (hs : o'.writer.state = .stopped)
    (hc : o'.completions = o.completions ++ (a.map (⟨·, .written⟩) ++ b))
    (hb : ∀ c ∈ b, c.outcome ≠ .written) (ha : a ≠ [] → o.lost = [])
    (htail : ∀ c ∈ (o.lost ++ b).tail, c.outcome = .aborted) : Shaped o' :=
  ⟨h.front_settled hc hb ha, by rwa [lost_settled hc hb], fun hn => absurd hs hn,
    fun hn => absurd hs hn⟩

theorem Shaped.of_running {a : List Job} {b : List Completion} (h : Shaped o)
    (hs : o.writer.state ≠ .stopped)
    (hc : o'.completions = o.completions ++ (a.map (⟨·, .written⟩) ++ b))
    (hb : ∀ c ∈ b, c.outcome = .aborted) (ha : a ≠ [] → o.lost = [])
    (hclean : o'.writer.closeSent = false → o.writer.closeSent = false ∧ b = []) : Shaped o' := by
  have hne : ∀ c ∈ b, c.outcome ≠ .written := fun c hc => by simp [hb c hc]
  have hlost : ∀ c ∈ o'.lost, c.outcome = .aborted := by
    intro c hm
    rw [lost_settled hc hne] at hm
    rcases List.mem_append.mp hm with hm | hm
    · exact h.running hs c hm
    · exact hb c hm
  refine ⟨h.front_settled hc hne ha, fun c hm => hlost c (List.mem_of_mem_tail hm),
    fun _ => hlost, ?_⟩
  intro _ ho
  obtain ⟨hopen, hnil⟩ := hclean ho
  rw [lost_settled hc hne, h.clean hs hopen, hnil]
  rfl

theorem Shaped.of_same (h : Shaped o) (hc : o'.completions = o.completions)
    (hs : o'.writer.state ≠ .stopped → o.writer.state ≠ .stopped)
    (hsent : o'.writer.closeSent = o.writer.closeSent) : Shaped o' := by
  have hw : o'.written = o.written := by rw [written, hc, written]
  have hl : o'.lost = o.lost := by rw [lost, hc, lost]
  refine ⟨by rw [hc, hw, hl, ← h.front], by rw [hl]; exact h.fault, ?_, ?_⟩
  · intro hn
    rw [hl]
    exact h.running (hs hn)
  · intro hn ho
    rw [hl]
    exact h.clean (hs hn) (hsent ▸ ho)

theorem Shaped.lose (h : Shaped o) (hp : Phased o) {j : Job} {u : Bytes}
    (hs : o.writer.state = .sending j u) {x : Outcome} (hx : x ≠ .written) :
    Shaped (o.settle [⟨j, x⟩]).stop := by
  refine h.of_ended (a := []) rfl (completions_stop_settle o j x) ?_ (by simp) ?_
  · intro c hc
    rcases List.mem_cons.mp hc with rfl | hc
    · exact hx
    · exact aborted_ne_written _ c hc
  · rw [h.lost_sending hp hs]
    simp

theorem Shaped.drop (h : Shaped o) {j : Job} (hs : o.writer.state = .idle)
    (ho : o'.completions = o.completions ++ [⟨j, .aborted⟩])
    (hsent : o'.writer.closeSent = true) : Shaped o' := by
  apply h.of_running (a := []) (b := [⟨j, .aborted⟩]) (by simp [hs]) ho (by simp) (by simp)
  intro hopen
  exact absurd (hopen.symm.trans hsent) Bool.false_ne_true

theorem Shaped.move (h : Shaped o) (hp : Phased o) (hm : Move masked fits o o') : Shaped o' := by
  cases hm with
  | enter | shut => exact h.of_same rfl id rfl
  | takeHeld j rest hopen hs => exact h.of_same rfl (fun _ => by simp [hs]) rfl
  | takeNew j rest hopen hs => exact h.of_same rfl (fun _ => by simp [hs]) rfl
  | hold => exact h.of_same rfl id rfl
  | put j front rest hopen hs => exact h.of_same rfl (fun _ => by simp [hs]) rfl
  | dropHeld j rest hopen hs hc => exact h.drop hs (completions_settle o _) hc
  | dropNew j rest hopen hs hc => exact h.drop hs (completions_settle o _) hc
  | write j hopen hs =>
    have hl := h.lost_sending hp hs
    exact h.of_running (a := [j]) (b := []) (by simp [hs]) (completions_complete o j)
      (by simp) (fun _ => hl) fun _ => ⟨hp.unsent hs, rfl⟩
  | writeClose j hopen hs =>
    have hl := h.lost_sending hp hs
    exact h.of_running (a := [j]) (by simp [hs]) (completions_abort_complete o j) (by simp)
      (fun _ => hl) (by simp)
  | writeLast j hopen hs =>
    have hl := h.lost_sending hp hs
    refine h.of_ended (a := [j]) rfl (completions_abort_complete o j) (aborted_ne_written _)
      (fun _ => hl) ?_
    intro c hc
    rw [hl] at hc
    obtain ⟨i, -, rfl⟩ := List.mem_map.mp (List.mem_of_mem_tail hc)
    rfl
  | fail j unsent f hopen hs => exact h.lose hp hs (by simp)
  | cut j unsent hshut hs => exact h.lose hp hs (by simp)
  | stop hs =>
    apply h.of_ended (a := []) rfl (completions_stop o) (aborted_ne_written _) (by simp)
    intro c hc
    rcases List.mem_append.mp (List.mem_of_mem_tail hc) with hc | hc
    · exact h.running (by simp [hs]) c hc
    · obtain ⟨i, -, rfl⟩ := List.mem_map.mp hc
      rfl

/-- Where the writer stands between frames: the jobs written lead to a point, and the jobs in hand
and queued lead on from there. -/
structure FlowsFrom (masked : Bool) (fits : Nat → Nat → Prop) (o : Outgoing) (f : OutgoingFrame) :
    Prop where
  laid : Laid masked fits o.written f
  opened : o.writer.frameOpen = decide (0 < f.remaining)
  trail : Trail masked fits f (o.inHand ++ o.outbox.queue) o.outbox.frame
  between : ∀ j ∈ o.inHand, j.kind ≠ .continuation → f.remaining = 0
  deferred : ∀ j ∈ o.writer.deferred, j.kind.control?.isSome = true ∧
    ∀ g, Follows masked fits g j g
  noClose : ∀ j ∈ o.written, j.kind ≠ .close

/-- What holds until a close frame has been sent. -/
def Flowing (masked : Bool) (fits : Nat → Nat → Prop) (o : Outgoing) : Prop :=
  o.writer.state ≠ .stopped → o.writer.closeSent = false → ∃ f, FlowsFrom masked fits o f

theorem FlowsFrom.open_iff {f : OutgoingFrame} (h : FlowsFrom masked fits o f) :
    o.writer.frameOpen = true ↔ f.remaining ≠ 0 := by
  rw [h.opened, decide_eq_true_iff, Nat.pos_iff_ne_zero]

theorem FlowsFrom.closed_iff {f : OutgoingFrame} (h : FlowsFrom masked fits o f) :
    o.writer.frameOpen = false ↔ f.remaining = 0 := by
  rw [← Bool.not_eq_true, h.open_iff, Decidable.not_not]

theorem FlowsFrom.sending {f : OutgoingFrame} {j : Job} {u : Bytes} (h : FlowsFrom masked fits o f)
    (hs : o.writer.state = .sending j u) :
    ∃ g, Follows masked fits f j g ∧ Trail masked fits g o.outbox.queue o.outbox.frame ∧
      (j.kind ≠ .continuation → f.remaining = 0) := by
  have htrail := h.trail
  rw [inHand_sending hs] at htrail
  have hb := h.between j (by rw [inHand_sending hs]; exact List.mem_singleton_self j)
  cases htrail with
  | @cons _ g _ _ _ hj hrest => exact ⟨g, hj, hrest, hb⟩

theorem FlowsFrom.snoc {f : OutgoingFrame} {j : Job} {u : Bytes} (h : FlowsFrom masked fits o f)
    (hs : o.writer.state = .sending j u) :
    ∃ g, Laid masked fits (o.written ++ [j]) g ∧ j.owed = g.remaining ∧
      Trail masked fits g o.outbox.queue o.outbox.frame := by
  obtain ⟨g, hj, hrest, hb⟩ := h.sending hs
  exact ⟨g, .snoc h.laid hj hb h.noClose, hj.owed_eq hb, hrest⟩

theorem FlowsFrom.trail_idle {f : OutgoingFrame} (h : FlowsFrom masked fits o f)
    (hs : o.writer.state = .idle) : Trail masked fits f o.outbox.queue o.outbox.frame := by
  have htrail := h.trail
  rwa [inHand_idle hs] at htrail

/-- A job that has to wait until the open frame is complete may then be written behind any. -/
theorem FlowsFrom.held_back {f : OutgoingFrame} {j : Job} {rest : List Job}
    (h : FlowsFrom masked fits o f) (hs : o.writer.state = .idle)
    (hf : o.writer.frameOpen = true) (hk : j.kind ≠ .continuation)
    (hq : o.outbox.queue = j :: rest) : Trail masked fits f rest o.outbox.frame ∧
      j.kind.control?.isSome = true ∧ ∀ g, Follows masked fits g j g := by
  have htrail := h.trail_idle hs
  rw [hq] at htrail
  cases htrail with
  | @cons _ g _ _ _ hj hrest =>
    have hctl := hj.isControl (Nat.pos_of_ne_zero (h.open_iff.mp hf)) hk
    obtain ⟨rfl, hany⟩ := hj.control_iff hctl
    exact ⟨hrest, hctl, hany⟩

theorem Flowing.move (h : Flowing masked fits o) (hm : Move masked fits o o') :
    Flowing masked fits o' := by
  intro hrun hsent
  cases hm with
  | enter j f keys hj =>
    obtain ⟨g, hg⟩ := h hrun hsent
    refine ⟨g, hg.laid, hg.opened, ?_, hg.between, hg.deferred, hg.noClose⟩
    have := hg.trail.snoc hj.follows
    rwa [List.append_assoc] at this
  | shut =>
    obtain ⟨g, hg⟩ := h hrun hsent
    exact ⟨g, hg.laid, hg.opened, hg.trail, hg.between, hg.deferred, hg.noClose⟩
  | takeHeld j rest hopen hs hc hf hd =>
    obtain ⟨g, hg⟩ := h (by simp [hs]) hc
    have hdef := hg.deferred
    rw [hd] at hdef
    exact ⟨g, hg.laid, hg.opened, .cons ((hdef j (by simp)).2 g) (hg.trail_idle hs),
      fun _ _ _ => hg.closed_iff.mp hf, fun i hi => hdef i (by simp [hi]), hg.noClose⟩
  | takeNew j rest hopen hs hc hd hk hq =>
    obtain ⟨g, hg⟩ := h (by simp [hs]) hc
    have htrail := hg.trail_idle hs
    rw [hq] at htrail
    refine ⟨g, hg.laid, hg.opened, htrail, ?_, hg.deferred, hg.noClose⟩
    intro i hi hne
    rw [List.mem_singleton.mp hi] at hne
    -- while a frame is open only a part of it is taken from the queue
    exact hg.closed_iff.mp (Bool.eq_false_iff.mpr fun hf => hne (hk hf))
  | hold j rest hopen hs hc hf hk hq =>
    obtain ⟨g, hg⟩ := h (by simp [hs]) hc
    obtain ⟨htrail, hj⟩ := hg.held_back hs hf hk hq
    refine ⟨g, hg.laid, hg.opened, ?_, hg.between, ?_, hg.noClose⟩
    · show Trail masked fits g (o.inHand ++ rest) _
      rwa [inHand_idle hs]
    · intro i hi
      rcases List.mem_append.mp hi with hi | hi
      · exact hg.deferred i hi
      · rwa [List.mem_singleton.mp hi]
  | dropHeld j rest hopen hs hc => exact absurd (hsent.symm.trans hc) Bool.false_ne_true
  | dropNew j rest hopen hs hc => exact absurd (hsent.symm.trans hc) Bool.false_ne_true
  | put j front rest hopen hs =>
    obtain ⟨g, hg⟩ := h (by simp [hs]) hsent
    have htrail := hg.trail
    have hb := hg.between
    rw [inHand_sending hs] at htrail hb
    exact ⟨g, hg.laid, hg.opened, htrail, hb, hg.deferred, hg.noClose⟩
  | write j hopen hs hl hk =>
    obtain ⟨f, hf⟩ := h (by simp [hs]) hsent
    obtain ⟨g, hlaid, howed, htrail⟩ := hf.snoc hs
    refine ⟨g, by rwa [written_complete], ?_, htrail, ?_, hf.deferred, ?_⟩
    · show decide (0 < j.owed) = _
      rw [howed]
    · rw [inHand_idle (state_complete o j)]
      exact fun i hi => absurd hi (List.not_mem_nil)
    · intro i hi
      rw [written_complete] at hi
      rcases List.mem_append.mp hi with hi | hi
      · exact hf.noClose i hi
      · rwa [List.mem_singleton.mp hi]
  | writeClose => simp at hsent
  | writeLast | fail | cut | stop => exact absurd rfl hrun

/-- The bytes on the wire of a job that is being sent, or was when the writer ended. -/
inductive Partly (wasSent : Job → Prop) (o : Outgoing) : List Job → Bytes → Prop where
  | none : o.inHand = [] → Partly wasSent o [] []
  | sending (j : Job) (front u : Bytes) : o.writer.state = .sending j u → front ++ u = j.bytes →
      Partly wasSent o [j] front
  | lost (j : Job) (front u : Bytes) (x : Outcome) : o.writer.state = .stopped →
      front ++ u = j.bytes → o.lost.head? = some ⟨j, x⟩ → wasSent j → Partly wasSent o [j] front

def Wired (wasSent : Job → Prop) (masked : Bool) (fits : Nat → Nat → Prop) (o : Outgoing) : Prop :=
  ∃ part tail f, o.wire.toList = o.written.flatMap Job.bytes ++ tail ∧
    Laid masked fits (o.written ++ part) f ∧ Partly wasSent o part tail

variable {wasSent : Job → Prop}

theorem Partly.of_idle {part : List Job} {tail : Bytes} (h : Partly wasSent o part tail)
    (hs : o.writer.state = .idle) : part = [] ∧ tail = [] := by
  cases h with
  | none => exact ⟨rfl, rfl⟩
  | sending j front u h => rw [hs] at h; cases h
  | lost j front u x h => rw [hs] at h; cases h

theorem Partly.of_sending {part : List Job} {tail : Bytes} (h : Partly wasSent o part tail)
    {j : Job} {u : Bytes} (hs : o.writer.state = .sending j u) :
    part = [j] ∧ tail ++ u = j.bytes := by
  cases h with
  | none h =>
    rw [inHand_sending hs] at h
    simp at h
  | sending j' front u' h hb => rw [hs] at h; cases h; exact ⟨rfl, hb⟩
  | lost j' front u' x h => rw [hs] at h; cases h

theorem Wired.of_same (h : Wired wasSent masked fits o) (hw : o'.wire = o.wire)
    (hc : o'.completions = o.completions) (hs : o'.writer.state = o.writer.state) :
    Wired wasSent masked fits o' := by
  obtain ⟨part, tail, f, hb, hl, hp⟩ := h
  have hwr : o'.written = o.written := by rw [written, hc, written]
  refine ⟨part, tail, f, by rw [hw, hwr, hb], by rwa [hwr], ?_⟩
  cases hp with
  | none hn => exact .none (by rwa [inHand, hs, ← inHand])
  | sending j front u h1 h2 => exact .sending j _ u (by rw [hs, h1]) h2
  | lost j front u x h1 h2 h3 h4 =>
    exact .lost j _ u x (by rw [hs, h1]) h2 (by rwa [lost, hc, ← lost]) h4

theorem Wired.of_taken (h : Wired wasSent masked fits o) {j : Job} (hflow : Flowing masked fits o')
    (hw : o'.wire = o.wire) (hc : o'.completions = o.completions) (hi : o.writer.state = .idle)
    (hs : o'.writer.state = .sending j j.bytes) (hsent : o'.writer.closeSent = false) :
    Wired wasSent masked fits o' := by
  obtain ⟨part, tail, f, hb, hl, hp⟩ := h
  obtain ⟨rfl, rfl⟩ := hp.of_idle hi
  obtain ⟨g, hg⟩ := hflow (by simp [hs]) hsent
  obtain ⟨g', hlaid, -, -⟩ := hg.snoc hs
  have hwr : o'.written = o.written := by rw [written, hc, written]
  exact ⟨[j], [], g', by rw [hw, hwr, hb], hlaid, .sending j [] j.bytes hs rfl⟩

theorem Wired.of_written (h : Wired wasSent masked fits o) {j : Job}
    (hs : o.writer.state = .sending j []) (hw : o'.wire = o.wire)
    (hwr : o'.written = o.written ++ [j])
    (hn : o'.inHand = []) : Wired wasSent masked fits o' := by
  obtain ⟨part, tail, f, hb, hl, hp⟩ := h
  obtain ⟨rfl, ht⟩ := hp.of_sending hs
  refine ⟨[], [], f, ?_, by rwa [hwr, List.append_nil], .none hn⟩
  rw [List.append_nil] at ht
  rw [hw, hb, hwr, ht]
  simp

theorem Wired.of_ended (h : Wired wasSent masked fits o) (hw : o'.wire = o.wire)
    (hwr : o'.written = o.written) (hs : o'.writer.state = .stopped)
    (hrun : o.writer.state ≠ .stopped)
    (hj : ∀ j u, o.writer.state = .sending j u →
      wasSent j ∧ ∃ x, o'.lost.head? = some ⟨j, x⟩) :
    Wired wasSent masked fits o' := by
  obtain ⟨part, tail, f, hb, hl, hp⟩ := h
  refine ⟨part, tail, f, by rw [hw, hwr, hb], by rwa [hwr], ?_⟩
  cases hp with
  | none hn => exact .none (inHand_stopped hs)
  | sending j front u h1 h2 =>
    obtain ⟨hwas, x, hx⟩ := hj j u h1
    exact .lost j _ u x hs h2 hx hwas
  | lost j front u x h1 => exact absurd h1 hrun

theorem Wired.mono {p q : Job → Prop} (h : ∀ j, p j → q j) (hw : Wired p masked fits o) :
    Wired q masked fits o := by
  obtain ⟨part, tail, f, hb, hl, hp⟩ := hw
  refine ⟨part, tail, f, hb, hl, ?_⟩
  cases hp with
  | none hn => exact .none hn
  | sending j front u h1 h2 => exact .sending j _ u h1 h2
  | lost j front u x h1 h2 h3 h4 => exact .lost j _ u x h1 h2 h3 (h j h4)

theorem Wired.lose (h : Wired wasSent masked fits o) (hp : Phased o) (hsh : Shaped o) {j : Job}
    {u : Bytes} (hs : o.writer.state = .sending j u) (hsent : wasSent j) {x : Outcome}
    (hx : x ≠ .written) : Wired wasSent masked fits (o.settle [⟨j, x⟩]).stop := by
  have hc := completions_stop_settle o j x
  have hne : ∀ c ∈ (⟨j, x⟩ :: o.waiting.map (⟨·, .aborted⟩) : List Completion),
      c.outcome ≠ .written := by
    simpa using hx
  refine h.of_ended (wire_stop _) (written_of_lost hc hne) (state_stop _) (by simp [hs]) ?_
  intro i v hi
  obtain ⟨rfl, -⟩ := WriterState.sending.inj (hs.symm.trans hi)
  rw [lost_settled (a := []) hc hne, hsh.lost_sending hp hs]
  exact ⟨hsent, x, rfl⟩

theorem Wired.move (h : Wired wasSent masked fits o) (hp : Phased o) (hsh : Shaped o)
    (hflow : Flowing masked fits o') (hsent : ∀ j ∈ o.inHand, wasSent j)
    (hm : Move masked fits o o') : Wired wasSent masked fits o' := by
  cases hm with
  | enter | shut => exact h.of_same rfl rfl rfl
  | hold => exact h.of_same rfl rfl rfl
  | takeHeld j rest hopen hs hc => exact h.of_taken hflow rfl rfl hs rfl hc
  | takeNew j rest hopen hs hc => exact h.of_taken hflow rfl rfl hs rfl hc
  | dropHeld j rest hopen hs | dropNew j rest hopen hs =>
    obtain ⟨part, tail, f, hb, hl, hpart⟩ := h
    obtain ⟨rfl, rfl⟩ := hpart.of_idle hs
    have hw := written_settle_aborted o j
    refine ⟨[], [], f, ?_, ?_, .none (inHand_idle hs)⟩
    · exact hb.trans (by rw [← hw]; rfl)
    · rw [← hw] at hl
      exact hl
  | put j front rest hopen hs =>
    obtain ⟨part, tail, f, hb, hl, hpart⟩ := h
    obtain ⟨rfl, ht⟩ := hpart.of_sending hs
    refine ⟨[j], tail ++ front, f, ?_, hl, .sending j _ rest rfl (by rw [← ht]; simp)⟩
    show (o.wire ++ front.toArray).toList = _
    rw [Array.toList_append, hb, List.append_assoc]
    rfl
  | write j hopen hs =>
    exact h.of_written hs rfl (written_complete o j) (inHand_idle (state_complete o j))
  | writeClose j hopen hs =>
    exact h.of_written hs rfl (written_abort_complete o j) (inHand_idle (state_complete o j))
  | writeLast j hopen hs =>
    exact h.of_written hs rfl (written_abort_complete o j) (inHand_stopped (state_stop _))
  | fail j unsent f hopen hs => exact h.lose hp hsh hs (hsent j (by simp [inHand, hs])) (by simp)
  | cut j unsent hshut hs => exact h.lose hp hsh hs (hsent j (by simp [inHand, hs])) (by simp)
  | stop hs =>
    apply h.of_ended (wire_stop _) (written_stop o) (state_stop _) (by simp [hs])
    intro i u hi
    exact absurd (hs.symm.trans hi) (by simp)

end WebSocket.Outgoing
