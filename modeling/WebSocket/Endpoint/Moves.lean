import WebSocket.Endpoint.Reader

/-!
What a step of the reader or the writer can do, with all that is known when it does it. What steps
keep is shown case by case from here.
-/

namespace WebSocket.Endpoint

/-- Reading goes on: it has not ended, and there has been no teardown. -/
def Listens (e : Endpoint) : Prop := e.reader.finished = false ∧ e.life.closed = false

def wanted (e : Endpoint) : Nat :=
  match e.reader.stage with
  | .header p => p.need
  | .data f => chunkLength e.config f
  | .control h => h.payloadLength.toNat
  | .answer _ => 0

/-- What a step of the reader does. -/
inductive ReaderMove (e : Endpoint) : Endpoint → Prop where
  | leave (hover : (e.reader.finished || e.life.closed) = true) : ReaderMove e (e.endRead .ended)
  | fail (f : Fault) (n : Nat) (hopen : e.Listens)
      (ht : e.reader.input.take n = .failed f ∨ e.reader.input.take n = .ended)
      (hn : n = e.wanted)
      (hcut : e.reader.input.take n = .ended →
        e.reader.stage ≠ .header .start ∧ f.kind = .unexpectedEof) :
      ReaderMove e (e.failRead f)
  | finish (hopen : e.Listens) (hs : e.reader.stage = .header .start)
      (ht : e.reader.input.take HeaderProgress.start.need = .ended) : ReaderMove e e.endOfStream
  | header (p : HeaderProgress) (piece rest : Bytes) (hopen : e.Listens)
      (hs : e.reader.stage = .header p) (ht : e.reader.input.take p.need = .got piece rest) :
      ReaderMove e ((e.setInput rest).readHeaderPiece p piece)
  | data (f : IncomingFrame) (piece rest : Bytes) (hopen : e.Listens)
      (hs : e.reader.stage = .data f)
      (ht : e.reader.input.take (chunkLength e.config f) = .got piece rest) :
      ReaderMove e ((e.setInput rest).readData f piece)
  | control (h : Header) (piece rest : Bytes) (hopen : e.Listens)
      (hs : e.reader.stage = .control h)
      (ht : e.reader.input.take h.payloadLength.toNat = .got piece rest) :
      ReaderMove e ((e.setInput rest).readControl h piece)
  | answer (payload : Bytes) (hopen : e.Listens) (hs : e.reader.stage = .answer payload)
      (hp : e.pongOutstanding = false) : ReaderMove e (e.answerPing payload)

/-- What a reader waits for: more bytes, or the answer to an earlier ping to be written. -/
inductive ReaderWaits (e : Endpoint) : Prop where
  | header (p : HeaderProgress) (hs : e.reader.stage = .header p)
      (ht : e.reader.input.take p.need = .waits)
  | data (f : IncomingFrame) (hs : e.reader.stage = .data f)
      (ht : e.reader.input.take (chunkLength e.config f) = .waits)
  | control (h : Header) (hs : e.reader.stage = .control h)
      (ht : e.reader.input.take h.payloadLength.toNat = .waits)
  | answer (payload : Bytes) (hs : e.reader.stage = .answer payload)
      (hp : e.pongOutstanding = true)

inductive WriterMove (e : Endpoint) : Endpoint → Prop where
  | cut (job : Job) (unsent : Bytes) (hs : e.writer.state = .sending job unsent)
      (hshut : e.life.closed = true) : WriterMove e (e.finish job .aborted).stop
  | fail (job : Job) (unsent : Bytes) (f : Fault) (hs : e.writer.state = .sending job unsent)
      (hopen : e.life.closed = false)
      (hf : e.transport.flushFault = some f ∨ unsent ≠ [] ∧ e.transport.write unsent = .failed f) :
      WriterMove e (e.failJob job f)
  | complete (job : Job) (hs : e.writer.state = .sending job []) (hopen : e.life.closed = false)
      (hf : e.transport.flushFault = none) : WriterMove e (e.complete job)
  | put (job : Job) (unsent rest : Bytes) (t : Transport)
      (hs : e.writer.state = .sending job unsent) (hopen : e.life.closed = false)
      (hne : unsent ≠ []) (hw : e.transport.write unsent = .took rest t) :
      WriterMove e { e.setWriterState (.sending job rest) with transport := t }
  | takeHeld (job : Job) (rest : List Job) (hs : e.writer.state = .idle)
      (hopen : e.life.closed = false) (hf : e.writer.frameOpen = false)
      (hd : e.writer.deferred = job :: rest) : WriterMove e ((e.setDeferred rest).takeUp job)
  | takeNew (job : Job) (rest : List Job) (hs : e.writer.state = .idle)
      (hopen : e.life.closed = false)
      (hd : e.writer.frameOpen = true ∨ e.writer.deferred = [])
      (hq : e.outbox.queue = job :: rest) : WriterMove e ((e.setQueue rest).takeUp job)
  /-- After a teardown, or with nothing left of an end that has been dropped. -/
  | stop (hs : e.writer.state = .idle)
      (hwhy : e.life.closed = true ∨ e.held = false ∧ e.outbox.queue = [] ∧
        (e.writer.frameOpen = true ∨ e.writer.deferred = [])) : WriterMove e e.stop

variable {e e' : Endpoint}

theorem readerStep_cases (h : e.readerStep = some e') :
    e.reader.reading.isSome = true ∧ ReaderMove e e' := by
  unfold readerStep at h
  split at h
  · simp at h
  · next m hm =>
    refine ⟨by rw [hm]; rfl, ?_⟩
    split at h
    · next hover =>
      obtain rfl := Option.some.inj h
      exact .leave hover
    · next hgo =>
      have hopen : e.Listens := Bool.or_eq_false_iff.mp (eq_false_of_ne_true hgo)
      split at h
      · next p hs =>
        split at h
        · simp at h
        · next f ht =>
          obtain rfl := Option.some.inj h
          refine .fail f _ hopen (.inl ht) (by rw [wanted, hs]) fun hcut => ?_
          rw [ht] at hcut
          cases hcut
        · next ht =>
          split at h
          · next hp =>
            subst hp
            obtain rfl := Option.some.inj h
            exact .finish hopen hs ht
          · next hp =>
            obtain rfl := Option.some.inj h
            refine .fail _ _ hopen (.inr ht) (by rw [wanted, hs]) fun _ => ⟨fun hstart => ?_, rfl⟩
            exact hp (Stage.header.inj (hs.symm.trans hstart))
        · next piece rest ht =>
          obtain rfl := Option.some.inj h
          exact .header p piece rest hopen hs ht
      · next f hs =>
        split at h
        · simp at h
        · next x ht =>
          obtain rfl := Option.some.inj h
          refine .fail x _ hopen (.inl ht) (by rw [wanted, hs]) fun hcut => ?_
          rw [ht] at hcut
          cases hcut
        · next ht =>
          obtain rfl := Option.some.inj h
          exact .fail _ _ hopen (.inr ht) (by rw [wanted, hs]) fun _ => ⟨by simp [hs], rfl⟩
        · next piece rest ht =>
          obtain rfl := Option.some.inj h
          exact .data f piece rest hopen hs ht
      · next c hs =>
        split at h
        · simp at h
        · next x ht =>
          obtain rfl := Option.some.inj h
          refine .fail x _ hopen (.inl ht) (by rw [wanted, hs]) fun hcut => ?_
          rw [ht] at hcut
          cases hcut
        · next ht =>
          obtain rfl := Option.some.inj h
          exact .fail _ _ hopen (.inr ht) (by rw [wanted, hs]) fun _ => ⟨by simp [hs], rfl⟩
        · next piece rest ht =>
          obtain rfl := Option.some.inj h
          exact .control c piece rest hopen hs ht
      · next payload hs =>
        split at h
        · simp at h
        · next hp =>
          obtain rfl := Option.some.inj h
          exact .answer payload hopen hs (eq_false_of_ne_true hp)

theorem readerStep_of_over (hover : (e.reader.finished || e.life.closed) = true)
    (h : e.readerStep = some e') : e' = e.endRead .ended := by
  have hnot : ¬ e.Listens := by
    rintro ⟨hfin, hopen⟩
    rw [hfin, hopen] at hover
    cases hover
  cases (readerStep_cases h).2 with
  | leave => rfl
  | fail _ _ hopen | finish hopen | header _ _ _ hopen => exact absurd hopen hnot
  | data _ _ _ hopen | control _ _ _ hopen | answer _ hopen => exact absurd hopen hnot

theorem waits_of_readerStep (h : e.readerStep = none) (hreading : e.reader.reading.isSome = true) :
    e.Listens ∧ ReaderWaits e := by
  obtain ⟨m, hm⟩ := Option.isSome_iff_exists.mp hreading
  unfold readerStep at h
  rw [hm] at h
  dsimp only at h
  split at h
  · simp at h
  · next hgo =>
    refine ⟨Bool.or_eq_false_iff.mp (eq_false_of_ne_true hgo), ?_⟩
    split at h
    · next p hs =>
      split at h
      · next ht => exact .header p hs ht
      · simp at h
      · split at h <;> cases h
      · simp at h
    · next f hs =>
      split at h
      · next ht => exact .data f hs ht
      all_goals simp at h
    · next c hs =>
      split at h
      · next ht => exact .control c hs ht
      all_goals simp at h
    · next payload hs =>
      split at h
      · next hp => exact .answer payload hs hp
      · simp at h

theorem ReaderWaits.readerStep_eq_none (h : ReaderWaits e) (hopen : e.Listens) :
    e.readerStep = none := by
  unfold Endpoint.readerStep
  split
  · rfl
  · rw [if_neg (by simp [hopen.1, hopen.2])]
    cases h with
    | header p hs ht | data f hs ht | control c hs ht =>
      rw [hs]
      dsimp only
      rw [ht]
    | answer payload hs hp =>
      rw [hs]
      exact if_pos hp

theorem writerStep_cases (h : e.writerStep = some e') : WriterMove e e' := by
  unfold writerStep at h
  split at h
  · simp at h
  · next job unsent hs =>
    split at h
    · next hshut =>
      obtain rfl := Option.some.inj h
      exact .cut job unsent hs hshut
    · next hopen =>
      have hopen := eq_false_of_ne_true hopen
      split at h
      · split at h
        · next f hf =>
          obtain rfl := Option.some.inj h
          exact .fail job [] f hs hopen (.inl hf)
        · next hf =>
          obtain rfl := Option.some.inj h
          exact .complete job hs hopen hf
      · next b bs =>
        split at h
        · simp at h
        · next f hf =>
          obtain rfl := Option.some.inj h
          exact .fail job (b :: bs) f hs hopen (.inr ⟨List.cons_ne_nil b bs, hf⟩)
        · next rest t hw =>
          obtain rfl := Option.some.inj h
          exact .put job (b :: bs) rest t hs hopen (List.cons_ne_nil b bs) hw
  · next hs =>
    split at h
    · next hshut =>
      obtain rfl := Option.some.inj h
      exact .stop hs (.inl hshut)
    · next hopen =>
      have hopen := eq_false_of_ne_true hopen
      split at h
      · next job rest hd =>
        obtain rfl := Option.some.inj h
        split at hd
        · simp at hd
        · next hf => exact .takeHeld job rest hs hopen (eq_false_of_ne_true hf) hd
      · next hd =>
        have hd : e.writer.frameOpen = true ∨ e.writer.deferred = [] := by
          split at hd
          · next hf => exact .inl hf
          · exact .inr hd
        split at h
        · next job rest hq =>
          obtain rfl := Option.some.inj h
          exact .takeNew job rest hs hopen hd hq
        · next hq =>
          split at h
          · simp at h
          · next hheld =>
            obtain rfl := Option.some.inj h
            exact .stop hs (.inr ⟨eq_false_of_ne_true hheld, hq, hd⟩)

end WebSocket.Endpoint
