import Mathlib.Data.List.Nodup
import WebSocket.Proofs.Endpoint.Run

/-! How accepted writes end: each of them once, in the order in which they were handed in but for
control frames that wait for an open data frame; first those written, then perhaps one that failed,
then those aborted. What is on the wire belongs to the writes that are written and the one that was
being sent when the writer ended. -/

namespace WebSocket

namespace Endpoint

/-- The job was held back while a data frame was on the wire in part. -/
def HeldBack (states : List Endpoint) (j : Job) : Prop :=
  ∃ d ∈ states, d.writer.frameOpen = true ∧ j ∈ d.writer.deferred

def WasSent (states : List Endpoint) (j : Job) : Prop :=
  ∃ d ∈ states, ∃ unsent, d.writer.state = .sending j unsent

/-- The writes that have ended, in the order in which they did. -/
def ended (e : Endpoint) : List Completion := e.writer.completions.toList

def outstanding (e : Endpoint) : List Job := e.outgoing.held

def written (e : Endpoint) : List Job := e.outgoing.written

/-- Writes come to their ends as they should. -/
structure Settles (states : List Endpoint) (e : Endpoint) : Prop where
  /-- Each write accepted so far has ended once or is outstanding. -/
  once : ((e.ended.map (·.job.serial)) ++ e.outstanding.map (·.serial)).Perm
    (List.range e.outbox.nextSerial)
  kept : ∀ d ∈ states, d.ended <+: e.ended
  shape : ∃ fault m, fault.length ≤ 1 ∧ (∀ x ∈ fault, ∃ f, x = Outcome.failed f) ∧
    e.ended.map (·.outcome) =
      List.replicate e.written.length .written ++ fault ++ List.replicate m .aborted
  /-- The jobs written have all their bytes on the wire. At most one other job has any there, and
  that was being sent. -/
  wire : ∃ tail, e.transport.wire.toList = e.written.flatMap Job.bytes ++ tail ∧
    (tail = [] ∨ ∃ j, tail <+: j.bytes ∧ j ∉ e.written ∧ WasSent states j ∧
      (e.outgoing.inHand = [j] ∨ ∃ x, e.outgoing.lost.head? = some ⟨j, x⟩))
  order : (e.ended.map (·.job)).Pairwise (Outgoing.Before (HeldBack states))

end Endpoint

namespace Outgoing

variable {masked : Bool} {fits : Nat → Nat → Prop} {o o' : Outgoing}

theorem Shaped.outcomes (h : Shaped o) : ∃ fault m, fault.length ≤ 1 ∧
    (∀ x ∈ fault, ∃ f, x = Outcome.failed f) ∧
    o.completions.map (·.outcome) =
      List.replicate o.written.length .written ++ fault ++ List.replicate m .aborted := by
  have hfront : (o.written.map (⟨·, .written⟩ : Job → Completion)).map (·.outcome) =
      List.replicate o.written.length .written := by
    rw [List.map_map]
    exact List.map_const'
  have hne : ∀ c ∈ o.lost, c.outcome ≠ .written := by
    intro c hc
    simpa using (List.mem_filter.mp hc).2
  have hfault := h.fault
  rw [h.front, List.map_append, hfront]
  generalize o.lost = lost at hne hfault
  rcases lost with - | ⟨c, cs⟩
  · exact ⟨[], 0, by simp, by simp, by simp⟩
  · have hcs : cs.map (·.outcome) = List.replicate cs.length .aborted :=
      List.eq_replicate_iff.mpr ⟨by simp, by simpa using hfault⟩
    rw [List.map_cons, hcs]
    cases hx : c.outcome with
    | written => exact absurd hx (hne c List.mem_cons_self)
    | failed f =>
      exact ⟨[.failed f], cs.length, by simp, fun x hm => ⟨f, List.mem_singleton.mp hm⟩, by simp⟩
    | aborted => exact ⟨[], cs.length + 1, by simp, by simp, by simp [List.replicate_succ]⟩

theorem Sound.partly_not_written {wasSent : Job → Prop} {part : List Job} {tail : Bytes}
    (h : o.Sound masked fits) (hp : Partly wasSent o part tail) {j : Job} (hj : j ∈ part) :
    j ∉ o.written := by
  have hnodup := h.numbered.nodup
  rw [lineUp, List.map_append, List.map_map] at hnodup
  obtain ⟨hended, -, hdisj⟩ := List.nodup_append.mp hnodup
  rw [mem_written]
  intro hw
  cases hp with
  | none => simp at hj
  | sending i front u hs =>
    rw [List.mem_singleton.mp hj] at hw
    have hheld : i ∈ o.held := by
      rw [held_sending hs]
      exact List.mem_cons_self
    exact hdisj _ (List.mem_map_of_mem hw) _ (List.mem_map_of_mem hheld) rfl
  | lost i front u x hs hb hl =>
    rw [List.mem_singleton.mp hj] at hw
    obtain ⟨hc, hx⟩ := List.mem_filter.mp (List.mem_of_mem_head? hl)
    have := List.inj_on_of_nodup_map hended hw hc rfl
    rw [← this] at hx
    simp at hx

end Outgoing

namespace Endpoint

variable {ok : Event → Prop} {fits : Nat → Nat → Prop} {e e' : Endpoint} {past : List Endpoint}

theorem pending_of_outstanding (h : e.Sending fits) (hnone : e.outstanding = []) :
    e.pending = [] :=
  List.filter_eq_nil_iff.mpr fun k _ => by simp [free_of_held h hnone k]

theorem resolved_of_outstanding (h : e.Sending fits) (hnone : e.outstanding = []) :
    (e.ended.map (·.job.serial)).Perm (List.range e.outbox.nextSerial) := by
  have := h.numbered
  rwa [Outgoing.Numbered, Outgoing.lineUp, show e.outgoing.held = [] from hnone, List.append_nil,
    List.map_map] at this

theorem Step.kept (hs : Step ok e e') (h : e.InOrder fits)
    (hok : ∀ c, ok (.write c) → c.Within fits) : e.ended <+: e'.ended := by
  rcases hs.shift_or h hok with hd | hd
  · have hsame : e'.ended = e.ended := by rw [ended, hd.writer, ended]
    exact hsame ▸ List.prefix_rfl
  · have hm : Outgoing.Move e.masks fits e.outgoing e'.outgoing := writerStep_move hd
    exact hm.completions_prefix

theorem Run.kept (h : Run ok (e :: past)) (hok : ∀ c, ok (.write c) → c.Within fits) :
    ∀ d ∈ e :: past, d.ended <+: e.ended := by
  intro d hd
  refine h.onward (Q := fun c => d.ended <+: c.ended) hd List.prefix_rfl ?_
  intro c c' earlier hrun _ hs hkept
  exact hkept.trans (hs.kept (hrun.inOrder hok) hok)

theorem Run.wired (h : Run ok (e :: past)) (hok : ∀ c, ok (.write c) → c.Within fits) :
    e.outgoing.Wired (WasSent (e :: past)) e.masks fits := by
  refine Run.lift (P := fun states masked o => o.Wired (WasSent states) masked fits) ?_ ?_ ?_ hok h
  · intro states masked
    exact ⟨[], [], .none, rfl, .nil, .none rfl⟩
  · intro d states masked o hw
    apply hw.mono
    rintro j ⟨c, hc, hj⟩
    exact ⟨c, List.mem_cons_of_mem d hc, hj⟩
  · rintro states masked o o' hsound ⟨d, hd, hw⟩ hm hp
    refine hp.move hsound.phased hsound.shaped (hsound.flowing.move hm) ?_ hm
    intro j hj
    cases hs : o.writer.state with
    | sending i u =>
      rw [Outgoing.inHand_sending hs] at hj
      rw [List.mem_singleton.mp hj]
      exact ⟨d, hd, u, by rw [hw, hs]⟩
    | idle =>
      rw [Outgoing.inHand_idle hs] at hj
      simp at hj
    | stopped =>
      rw [Outgoing.inHand_stopped hs] at hj
      simp at hj

theorem Run.ordered (h : Run ok (e :: past)) (hok : ∀ c, ok (.write c) → c.Within fits) :
    e.outgoing.Ordered (HeldBack (e :: past)) := by
  refine Run.lift (P := fun states _ o => o.Ordered (HeldBack states)) (fun _ _ => .nil) ?_ ?_ hok h
  · intro d states masked o ho
    apply ho.mono
    rintro j ⟨c, hc, hj⟩
    exact ⟨c, List.mem_cons_of_mem d hc, hj⟩
  · rintro states masked o o' hsound ⟨d, hd, hw⟩ hm hp
    apply hp.move hsound.numbered (.of_move hsound.phased hm)
    intro hs hc hf j hj
    obtain ⟨f, hflow⟩ := hsound.flowing (by simp [hs]) hc
    exact ⟨(hflow.deferred j hj).1, d, hd, by rw [hw, hf], by rwa [hw]⟩

/-- In every run writes end once, in order, and with all their bytes on the wire or none, but for
the one that was being sent at the end. -/
theorem settles_of_run (h : Run (fun _ => True) (e :: past)) : Settles (e :: past) e := by
  have hok : ∀ c : WriteCall, True → c.Within fun _ _ => True := fun c _ => c.within_any
  have hsound := (h.inOrder hok).sending
  refine ⟨?_, h.kept hok, hsound.shaped.outcomes, ?_, ?_⟩
  · have := hsound.numbered
    rw [Outgoing.Numbered, Outgoing.lineUp, List.map_append, List.map_map] at this
    exact this
  · obtain ⟨part, tail, f, hb, hl, hp⟩ := h.wired hok
    refine ⟨tail, hb, ?_⟩
    have hnot := fun j (hj : j ∈ part) => hsound.partly_not_written hp hj
    cases hp with
    | none => exact .inl rfl
    | sending j front u hs hu =>
      exact .inr ⟨j, ⟨u, hu⟩, hnot j (by simp), ⟨e, by simp, u, hs⟩,
        .inl (Outgoing.inHand_sending hs)⟩
    | lost j front u x hs hu hlost hwas =>
      exact .inr ⟨j, ⟨u, hu⟩, hnot j (by simp), hwas, .inr ⟨x, hlost⟩⟩
  · have := h.ordered hok
    rw [Outgoing.Ordered, Outgoing.lineUp] at this
    exact (List.pairwise_append.mp this).1

/-- A server whose stream fails under a message when three of its bytes are on the wire. -/
theorem settles_of_run_failing :
    ∃ (e : Endpoint) (past : List Endpoint), Run (fun _ => True) (e :: past) ∧
      e.transport.wire.toList = [0x82, 0x02, 0x61] ∧
      e.ended.map (·.outcome) = [.failed ⟨.brokenPipe, ""⟩, .aborted] ∧ Settles (e :: past) e := by
  have h : Run (fun _ => True) [opened .server .none (fun _ => .zero) (some 3) none] :=
    .start _ _ _ _ _ fun _ _ => trivial
  obtain ⟨e, past, h, hy⟩ := h.handleAll (n := 8)
    (f := fun e => (e.transport.wire.toList, e.ended.map (·.outcome)))
    [.write (.message [0x61, 0x62] true), .write (.ping []), .failWrites ⟨.brokenPipe, ""⟩]
    (fun _ _ => trivial)
    (y := ([0x82, 0x02, 0x61], [.failed ⟨.brokenPipe, ""⟩, .aborted])) (by decide)
  obtain ⟨hwire, hended⟩ := Prod.mk.inj hy
  exact ⟨e, past, h, hwire, hended, settles_of_run h⟩

end Endpoint

end WebSocket
