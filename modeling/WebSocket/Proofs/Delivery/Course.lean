import WebSocket.Proofs.Answered
import WebSocket.Proofs.Delivery.Messages

/-! Runs of an end of which it is known what has come in. -/

namespace WebSocket.Endpoint

/-- The states of an end, the latest first, and all bytes that have been fed to it. Nothing is fed
behind the end of the stream. Whatever else is in `ok` may happen at any time. -/
inductive Course (config : Config) (ok : Event → Prop) : Bytes → List Endpoint → Prop where
  | start (callbacks : Callbacks) (keys : Nat → Key) (quota maxWrite : Option Nat)
      (hcalls : ∀ c ∈ callbacks.calls, ok (.write c)) :
      Course config ok [] [opened config callbacks keys quota maxWrite]
  | step {fed : Bytes} {e e' : Endpoint} {past : List Endpoint}
      (h : Course config ok fed (e :: past))
      (hs : Step (fun ev => ok ev ∧ ∀ b, ev ≠ .feed b) e e') :
      Course config ok fed (e' :: e :: past)
  | feed {fed : Bytes} {e : Endpoint} {past : List Endpoint}
      (h : Course config ok fed (e :: past)) (b : Bytes) (hmore : e.reader.input.ended = false) :
      Course config ok (fed ++ b) ((e.accept (.feed b)).1 :: e :: past)

variable {config : Config} {ok : Event → Prop} {fed : Bytes} {e e' : Endpoint}
  {past : List Endpoint}

namespace Course

theorem run (h : Course config ok fed (e :: past)) :
    Run (fun ev => ok ev ∨ ∃ b, ev = .feed b) (e :: past) := by
  generalize hs : e :: past = states at h
  induction h generalizing e past with
  | start callbacks keys quota maxWrite hcalls =>
    cases hs
    exact .start config callbacks keys quota maxWrite fun c hc => .inl (hcalls c hc)
  | step _ hstep ih =>
    cases hs
    exact (ih rfl).step (hstep.mono fun _ hev => .inl hev.1)
  | feed _ b _ ih =>
    cases hs
    exact (ih rfl).step (.event (.feed b) (.inr ⟨b, rfl⟩))

theorem inOrder (h : Course config ok fed (e :: past)) : e.InOrder fun _ _ => True :=
  h.run.inOrder fun c _ => c.within_any

theorem config_eq (h : Course config ok fed (e :: past)) : e.config = config := by
  have hany : ∀ c : WriteCall, True → c.Within fun _ _ => True := fun c _ => c.within_any
  generalize hs : e :: past = states at h
  induction h generalizing e past with
  | start callbacks keys quota maxWrite hcalls =>
    cases hs
    exact config_opened config callbacks keys quota maxWrite
  | step h hstep ih =>
    cases hs
    exact ((hstep.mono fun _ _ => trivial).config_eq h.inOrder hany).trans (ih rfl)
  | @feed _ c _ _ b _ ih =>
    cases hs
    exact show c.config = config from ih rfl

/-- What the steps keep, and the bytes that are fed, holds throughout. -/
theorem always {all : Bytes} {P : Endpoint → Prop} {Q : Bytes → Endpoint → Prop}
    (h : Course config ok fed (e :: past)) (hp : ∀ d ∈ e :: past, P d) (hfed : fed <+: all)
    (start : ∀ callbacks keys quota maxWrite, (∀ c ∈ callbacks.calls, ok (.write c)) →
      Q [] (opened config callbacks keys quota maxWrite))
    (step : ∀ {fed c c' earlier}, Course config ok fed (c :: earlier) →
      (∀ d ∈ c :: earlier, P d) → P c' → fed <+: all →
      Step (fun ev => ok ev ∧ ∀ b, ev ≠ .feed b) c c' → Q fed c → Q fed c')
    (feed : ∀ {fed c} b, c.reader.input.ended = false → Q fed c →
      Q (fed ++ b) (c.accept (.feed b)).1) : Q fed e := by
  generalize hs : e :: past = states at h
  induction h generalizing e past with
  | start callbacks keys quota maxWrite hcalls =>
    cases hs
    exact start callbacks keys quota maxWrite hcalls
  | step h hstep ih =>
    cases hs
    have hpast := fun d hd => hp d (List.mem_cons_of_mem _ hd)
    exact step h hpast (hp _ List.mem_cons_self) hfed hstep (ih hpast hfed rfl)
  | feed h b hmore ih =>
    cases hs
    exact feed b hmore (ih (fun d hd => hp d (List.mem_cons_of_mem _ hd))
      ((List.prefix_append _ _).trans hfed) rfl)

end Course

/-! Dealing with events one by one is such a course of things. What is seen of its states can be
computed. -/

theorem trace_suffix (n : Nat) (e : Endpoint) (past : List Endpoint) :
    e :: past <:+ e.trace n past := by
  induction n generalizing e past with
  | zero => exact List.suffix_rfl
  | succ n ih =>
    unfold trace
    split
    · exact List.suffix_rfl
    · exact (List.suffix_cons _ _).trans (ih _ _)

theorem drive_suffix {n : Nat} {evs : List Event} {states : List Endpoint}
    (h : drive n evs e past = some states) : e :: past <:+ states := by
  induction evs generalizing e past with
  | nil => exact Option.some.inj h ▸ List.suffix_rfl
  | cons ev evs ih =>
    have htrace := trace_suffix n ((e.accept ev).1.giveTurn .reader) (e :: past)
    rw [drive] at h
    split at h
    · cases h
    · next e' past' heq =>
      rw [heq] at htrace
      split at h
      · exact ((List.suffix_cons _ _).trans htrace).trans (ih h)
      · cases h

/-- Some states are among others, whoever has the turn. -/
def Among (states others : List Endpoint) : Prop := ∀ d ∈ states, ∃ t, d.giveTurn t ∈ others

theorem Among.self (states : List Endpoint) : Among states states :=
  fun d hd => ⟨d.turn, by simpa [giveTurn] using hd⟩

theorem Among.next {others : List Endpoint} (h : Among (e :: past) others) (d : Endpoint)
    (t : Turn) : Among (d.giveTurn t :: d :: e :: past) (d.giveTurn t :: others) := by
  intro c hc
  rcases List.mem_cons.mp hc with rfl | hc
  · exact ⟨t, List.mem_cons_self⟩
  rcases List.mem_cons.mp hc with rfl | hc
  · exact ⟨t, List.mem_cons_self⟩
  · obtain ⟨t', ht'⟩ := h c hc
    exact ⟨t', List.mem_cons_of_mem _ ht'⟩

namespace Course

variable {others : List Endpoint}

theorem turn (h : Course config ok fed (e :: past)) (t : Turn) :
    Course config ok fed (e.giveTurn t :: e :: past) := h.step (.turn e t)

theorem tick (h : Course config ok fed (e :: past)) (ha : Among (e :: past) others)
    (ht : e.tick = some e') :
    ∃ past', Course config ok fed (e' :: past') ∧ Among (e' :: past') (e' :: others) := by
  have hstep : Step (fun ev => ok ev ∧ ∀ b, ev ≠ .feed b) e e' ∨
      ∃ d t, Step (fun ev => ok ev ∧ ∀ b, ev ≠ .feed b) e d ∧ e' = d.giveTurn t := tick_step ht
  rcases hstep with hs | ⟨d, t, hs, rfl⟩
  · exact ⟨_, (h.step hs).turn e'.turn, ha.next e' e'.turn⟩
  · exact ⟨_, (h.step hs).turn t, ha.next d t⟩

theorem trace (h : Course config ok fed (e :: past)) (ha : Among (e :: past) (e :: others))
    (n : Nat) : ∃ e' past' others', e.trace n others = e' :: others' ∧
      Course config ok fed (e' :: past') ∧ Among (e' :: past') (e' :: others') := by
  induction n generalizing e past others with
  | zero => exact ⟨e, past, others, rfl, h, ha⟩
  | succ n ih =>
    unfold Endpoint.trace
    split
    · exact ⟨e, past, others, rfl, h, ha⟩
    · next e' ht =>
      obtain ⟨past', h', ha'⟩ := h.tick ha ht
      exact ih h' ha'

theorem drive {n : Nat} {evs : List Event} {states : List Endpoint}
    (h : Course config ok fed (e :: past)) (ha : Among (e :: past) (e :: others))
    (hevs : ∀ ev ∈ evs, ok ev ∨ ∃ b, ev = .feed b)
    (hmore : ∀ b, .feed b ∈ evs → ∀ d ∈ states, d.reader.input.ended = false)
    (hdrive : Endpoint.drive n evs e others = some states) :
    ∃ e' past', Course config ok (fed ++ evs.flatMap fedBy) (e' :: past') ∧
      states.head? = some e' ∧ Among (e' :: past') states := by
  induction evs generalizing e past others fed with
  | nil =>
    cases hdrive
    exact ⟨e, past, by simpa using h, rfl, ha⟩
  | cons ev evs ih =>
    have hmem := (drive_suffix hdrive).subset List.mem_cons_self
    have hnext : Course config ok (fed ++ fedBy ev) ((e.accept ev).1 :: e :: past) := by
      by_cases hfeed : ∃ b, ev = .feed b
      · obtain ⟨b, rfl⟩ := hfeed
        exact h.feed b (hmore b List.mem_cons_self e hmem)
      · have hnone : fedBy ev = [] := by
          cases ev with
          | feed b => exact absurd ⟨b, rfl⟩ hfeed
          | _ => rfl
        rw [hnone, List.append_nil]
        exact h.step (.event ev ⟨(hevs ev List.mem_cons_self).resolve_right hfeed,
          fun b hb => hfeed ⟨b, hb⟩⟩)
    obtain ⟨e', past', others', htrace, h', ha'⟩ :=
      (hnext.turn .reader).trace (ha.next _ .reader) n
    rw [Endpoint.drive, htrace] at hdrive
    dsimp only at hdrive
    split at hdrive
    · rw [List.flatMap_cons, ← List.append_assoc]
      exact ih h' ha' (fun ev' hm => hevs ev' (List.mem_cons_of_mem ev hm))
        (fun b hb => hmore b (List.mem_cons_of_mem ev hb)) hdrive
    · cases hdrive

/-- What holds of the states that are computed holds of all states, if the turn does not matter. -/
theorem driven {P : Endpoint → Prop} [DecidablePred P] {α : Type} {f : Endpoint → α} {y : α}
    {n : Nat} (h : Course config ok fed (e :: past)) (evs : List Event)
    (hturn : ∀ d t, P (giveTurn t d) → P d) (hevs : ∀ ev ∈ evs, ok ev ∨ ∃ b, ev = .feed b)
    (hmore : ∀ b, .feed b ∈ evs → ∀ d, P d → d.reader.input.ended = false)
    (hy : ((Endpoint.drive n evs e past).map fun states =>
      (states.all fun d => decide (P d), states.head?.map f)) = some (true, some y)) :
    ∃ e' past', Course config ok (fed ++ evs.flatMap fedBy) (e' :: past') ∧
      (∀ d ∈ e' :: past', P d) ∧ f e' = y := by
  obtain ⟨states, hdrive, hstates⟩ := Option.map_eq_some_iff.mp hy
  obtain ⟨hall, hhead⟩ := Prod.mk.inj hstates
  have hp : ∀ d ∈ states, P d := fun d hd => of_decide_eq_true (List.all_eq_true.mp hall d hd)
  obtain ⟨e', past', h', hhead', ha⟩ := h.drive (.self _) hevs
    (fun b hb d hd => hmore b hb d (hp d hd)) hdrive
  refine ⟨e', past', h', fun d hd => ?_, ?_⟩
  · obtain ⟨t, ht⟩ := ha d hd
    exact hturn d t (hp _ ht)
  · rw [hhead'] at hhead
    exact Option.some.inj hhead

end Course

end WebSocket.Endpoint
