import WebSocket.Proofs.Endpoint.Turn

/-! Refused calls. A call that is refused leaves the end as it is, with its slots, jobs, flags,
completions and its timer. So whatever comes later is as if the call had not been made. -/

namespace WebSocket

namespace Endpoint

/-- The call is refused, and nothing that comes later shows that it was made. -/
structure LeftAlone (e : Endpoint) (c : WriteCall) (r : Refusal) : Prop where
  same : e.write c = (e, .error r)
  calls : ∀ cs, e.writeAll (c :: cs) = ((e.writeAll cs).1, .error r :: (e.writeAll cs).2)
  accept : e.held = true → e.accept (.write c) = (e, .refused r)
  handle : e.tick = none → ∀ ev, (e.handle (.write c)).1.handle ev = e.handle ev

variable {e : Endpoint} {past : List Endpoint} {fits : Nat → Nat → Prop} {c : WriteCall}
  {r : Refusal}

theorem Entered.eq_of_refused {makes : Job → Prop} {a : Attempt} (h : Entered fits makes e a)
    (hr : a.2 = .error r) : a = (e, .error r) := by
  cases h with
  | refused r' =>
    cases hr
    rfl
  | accepted => cases hr

theorem leftAlone_of_write (h : e.write c = (e, .error r)) : LeftAlone e c r := by
  have haccept : (e.accept (.write c)).1 = e := by
    rw [fst_accept_write, h]
    exact ite_self e
  refine ⟨h, fun cs => ?_, fun hheld => ?_, fun hrest ev => ?_⟩
  · rw [writeAll, h]
  · unfold accept
    dsimp only
    rw [if_pos hheld, h]
  · have hsettled : (e.handle (.write c)).1 = e.giveTurn .reader := by
      unfold Endpoint.handle
      dsimp only
      rw [haccept, settle_of_rest (tick_giveTurn .reader hrest)]
    rw [hsettled, handle_giveTurn .reader hrest]

/-- In every state of a run, also between the calls of a callback, a call that is refused changes
nothing. -/
theorem leftAlone_of_run (h : Run (fun _ => True) (e :: past)) (reader : Reader)
    (cs : List WriteCall) (c : WriteCall) (r : Refusal)
    (hr : (({ e with reader }.writeAll cs).1.write c).2 = .error r) :
    LeftAlone ({ e with reader }.writeAll cs).1 c r := by
  have hok : ∀ c : WriteCall, True → c.Within fun _ _ => True := fun c _ => c.within_any
  have hsend := (h.inOrder hok).sending
  have hread : Acts (fun _ _ => True) e { e with reader } := .read e reader
  have hcalls := writeAll_acts (hread.sending hsend) cs fun c _ => c.within_any
  have hentered := write_entered (hcalls.sending (hread.sending hsend)) c.within_any
  exact leftAlone_of_write (hentered.eq_of_refused hr)

/-- A server with a frame open on the wire and a ping held back behind it, whose application calls
for a close where there is no clock. -/
theorem leftAlone_of_run_untimed :
    ∃ (e : Endpoint) (past : List Endpoint), Run (fun _ => True) (e :: past) ∧
      e.tick = none ∧ e.writer.deferred.map (·.kind) = [.ping] ∧ e.outbox.frame.remaining = 1 ∧
      (e.write (.close .normal "" false)).2 = .error .noTimer ∧
      LeftAlone e (.close .normal "" false) .noTimer := by
  have h : Run (fun _ => True) [opened .server .none (fun _ => .zero) none none] :=
    .start _ _ _ _ _ fun _ _ => trivial
  obtain ⟨e, past, h, hy⟩ := h.handleAll (n := 8)
    (f := fun e => (e.tick.isNone, e.writer.deferred.map (·.kind), e.outbox.frame.remaining,
      match (e.write (.close .normal "" false)).2 with | .error r => some r | .ok _ => none))
    [.write (.firstChunk 2 [0x61] true true), .write (.ping [])] (fun _ _ => trivial)
    (y := (true, [.ping], 1, some .noTimer)) (by decide)
  simp only [Prod.mk.injEq] at hy
  obtain ⟨hrest, hheld, hrem, hr⟩ := hy
  have hr : (e.write (.close .normal "" false)).2 = .error .noTimer := by
    split at hr
    · next heq => rw [heq, Option.some.inj hr]
    · cases hr
  exact ⟨e, past, h, Option.isNone_iff_eq_none.mp hrest, hheld, hrem, hr,
    leftAlone_of_run h e.reader [] _ _ hr⟩

end Endpoint

end WebSocket
