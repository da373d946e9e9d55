import WebSocket.Endpoint.Work

/-!
Who goes on when. The reader, the writer and the timer take turns, each going on until it has to
wait. Since every step lessens the work that is left, an end comes to rest: after `settle` no one
can go on.
-/

namespace WebSocket.Endpoint

def timerStep (e : Endpoint) : Option Endpoint :=
  match e.life.timer with
  | none => none
  | some t =>
    if t.deadline ≤ e.life.clock then
      some { e with life := { e.life with timer := none } }.teardown
    else none

def promptTimerStep (e : Endpoint) : Option Endpoint :=
  if e.life.timer.any (·.afterWriter) then none else e.timerStep

def giveTurn (turn : Turn) (e : Endpoint) : Endpoint := { e with turn }

/-- The next step of an end; none if it is at rest. -/
def tick (e : Endpoint) : Option Endpoint :=
  match e.turn with
  | .reader =>
    e.readerStep <|> e.promptTimerStep <|> e.writerStep.map (giveTurn .writer) <|> e.timerStep
  | .writer => e.writerStep <|> e.timerStep <|> e.readerStep.map (giveTurn .reader)

theorem timerStep_cases {e e' : Endpoint} (h : e.timerStep = some e') :
    ∃ t, e.life.timer = some t ∧ t.deadline ≤ e.life.clock ∧
      e' = { e with life := { e.life with timer := none } }.teardown := by
  unfold timerStep at h
  split at h
  · simp at h
  · next t ht =>
    split at h
    · next hdue => exact ⟨t, ht, hdue, (Option.some.inj h).symm⟩
    · simp at h

theorem timerStep_of_prompt {e e' : Endpoint} (h : e.promptTimerStep = some e') :
    e.timerStep = some e' := by
  unfold promptTimerStep at h
  split at h
  · simp at h
  · exact h

theorem tick_parties {e e' : Endpoint} (h : e.tick = some e') :
    (∃ w, e.writerStep = some w ∧ (e.turn = .writer ∧ e' = w ∨ e' = w.giveTurn .writer)) ∨
      ∃ d, (e.readerStep = some d ∨ e.timerStep = some d) ∧ (e' = d ∨ e' = d.giveTurn .reader) ∧
        (e.turn = .reader ∨ e.writerStep = none) := by
  unfold tick at h
  split at h
  · next ht =>
    simp only [Option.orElse_eq_orElse, Option.orElse_eq_or, Option.or_eq_some_iff,
      Option.map_eq_some_iff] at h
    obtain h | ⟨-, h | ⟨-, ⟨w, h, rfl⟩ | ⟨-, h⟩⟩⟩ := h
    · exact .inr ⟨e', .inl h, .inl rfl, .inl ht⟩
    · exact .inr ⟨e', .inr (timerStep_of_prompt h), .inl rfl, .inl ht⟩
    · exact .inl ⟨w, h, .inr rfl⟩
    · exact .inr ⟨e', .inr h, .inl rfl, .inl ht⟩
  · next ht =>
    simp only [Option.orElse_eq_orElse, Option.orElse_eq_or, Option.or_eq_some_iff,
      Option.map_eq_some_iff] at h
    obtain h | ⟨hw, h | ⟨-, w, h, rfl⟩⟩ := h
    · exact .inl ⟨e', h, .inl ⟨ht, rfl⟩⟩
    · exact .inr ⟨e', .inr h, .inl rfl, .inr hw⟩
    · exact .inr ⟨w, .inl h, .inr rfl, .inr hw⟩

theorem sendingWork_timerStep {e e' : Endpoint} (h : e.timerStep = some e') :
    e'.reader = e.reader ∧ e'.sendingWork < e.sendingWork := by
  obtain ⟨t, ht, -, rfl⟩ := timerStep_cases h
  refine ⟨by simp, ?_⟩
  have hw : writerWork { e with life := { e.life with timer := none } }.teardown =
      e.writerWork := by simp [writerWork]
  have h0 : timerWork { e with life := { e.life with timer := none } }.teardown ≤ 0 :=
    timerWork_teardown _
  have h1 : e.timerWork = 1 := by simp [timerWork, ht]
  unfold sendingWork
  omega

/-- Every step lessens the reader's work, or leaves the reader alone and lessens the other work. -/
theorem work_tick {e e' : Endpoint} (h : e.tick = some e') :
    e'.readerWork < e.readerWork ∨ (e'.reader = e.reader ∧ e'.sendingWork < e.sendingWork) := by
  rcases tick_parties h with ⟨w, hw, hsame⟩ | ⟨d, hd | hd, hsame, -⟩
  · have hless := sendingWork_writerStep hw
    rcases hsame with ⟨-, rfl⟩ | rfl <;> exact .inr hless
  · have hless := readerWork_readerStep hd
    rcases hsame with rfl | rfl <;> exact .inl hless
  · have hless := sendingWork_timerStep hd
    rcases hsame with rfl | rfl <;> exact .inr hless

theorem readerWork_congr {e e' : Endpoint} (h : e'.reader = e.reader) :
    e'.readerWork = e.readerWork := by
  simp only [readerWork, h]

/-- Runs an end until it is at rest. -/
def settle (e : Endpoint) : Endpoint :=
  match _h : e.tick with
  | none => e
  | some e' => e'.settle
termination_by (e.readerWork, e.sendingWork)
decreasing_by
  rcases work_tick _h with h | ⟨h, h'⟩
  · exact .left _ _ h
  · rw [readerWork_congr h]
    exact .right _ h'

theorem tick_settle (e : Endpoint) : e.settle.tick = none := by
  fun_induction settle e with
  | case1 e h => exact h
  | case2 e e' h ih => exact ih

end WebSocket.Endpoint
