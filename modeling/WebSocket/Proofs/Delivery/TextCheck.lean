import WebSocket.Proofs.Delivery.Course
import WebSocket.Proofs.Occupancy

/-! Text is checked message by message. Reading fails when a text message is broken, with the part
that breaks it, and for nothing else in frames that a peer may send. Binary messages do not matter,
nor do the control frames between. -/

namespace WebSocket

namespace Reader

/-- What has become of a reader that has met nothing but frames that it takes: it goes on, or it
has refused the part after those in `front`. -/
inductive Checks (config : Config) (ws : List Frame) (fed : Bytes) (r : Reader) : Prop where
  | going (fs : List Frame) (hgo : r.Going ⟨config.role, config.maxFrameSize⟩ fed fs)
      (hh : r.Handed config.partSize fs)
  | refused (front : List Chunk) (c : Chunk) (v : Violation) (n : Nat) (hfin : r.finished = true)
      (hparts : front ++ [c] <+: Frame.rowChunks config.partSize false ws)
      (hsound : Mark.TextSound (front.flatMap Chunk.marks))
      (hns : ¬ Mark.TextSound ((front ++ [c]).flatMap Chunk.marks))
      (hv : v.code = .invalidPayload)
      (hreads : r.reads.toList =
        front.map .chunk ++ .failed v.toError :: List.replicate n .ended)

variable {config : Config} {ws fs rest : List Frame} {fed : Bytes} {cs : List Chunk}
  {r r' : Reader}

theorem Handed.parts {rules : HeaderRules} {size : Nat} (hh : r.Handed size fs)
    (hplaced : r.Placed rules fed fs) (hw : Frame.Offered rules ws) (hwhole : ∀ w ∈ ws, w.Whole)
    (hfed : fed <+: Frame.rowBytes ws) : ∃ cs, r.reads.toList = cs.map .chunk ∧
      r.received = cs.flatMap Chunk.marks ∧ Frame.rowChunks size false fs <+: cs ∧
      cs <+: Frame.rowChunks size false ws := by
  obtain ⟨rest, cs, rfl, hre⟩ := hh.placed hplaced hw hwhole hfed
  obtain ⟨n, hreads, hn⟩ := hre.reads
  rw [hn hplaced.unfinished, List.replicate_zero, List.append_nil] at hreads
  refine ⟨cs, hreads, received_of_reads hreads, hre.behind, hre.within.trans ?_⟩
  exact Frame.rowChunks_mono ((List.prefix_append_right_inj _).mpr (List.take_prefix 1 rest))

theorem Refuses.checks (h : Refuses ⟨config.role, config.maxFrameSize⟩ config.partSize fed fs r r')
    (hgo : r.Going ⟨config.role, config.maxFrameSize⟩ fed fs) (hh : r.Handed config.partSize fs)
    (hw : Frame.OrderlyRow config ws) (hfed : fed <+: Frame.rowBytes ws)
    (hfin : r'.finished = true) : Checks config ws fed r' := by
  obtain ⟨gs, q, c, v, hq, ha, hpart, hns, hv, hreads⟩ := h
  have hq' := hh.adds hgo.toKept (Config.partSize_pos _) ha
  obtain ⟨cs, hcs, hreceived, -, hfront⟩ := hq'.parts hq hw.offered hw.whole hfed
  obtain ⟨front, hold, hm, -, -⟩ := hh.parts hgo.toPlaced hw.offered hw.whole hfed
  rw [hpart, Array.toList_push, hold] at hcs
  have hsame : cs = front ++ [c] := by
    apply List.map_injective_iff.mpr fun a b hab => ReadResult.chunk.inj hab
    rw [← hcs, List.map_append, List.map_singleton]
  subst hsame
  refine .refused front c v 0 hfin hfront (hm ▸ hgo.text.1) (hreceived ▸ hns) hv ?_
  rw [hreads, Array.toList_push, hold]
  rfl

end Reader

namespace Endpoint

open Reader

variable {config : Config} {ok : Event → Prop} {fed : Bytes} {e e' : Endpoint}
  {past : List Endpoint} {ws : List Frame}

theorem checks_readerStep (h : e.reader.Checks config ws fed) (hc : e.config = config)
    (hw : Frame.OrderlyRow config ws) (hfed : fed <+: Frame.rowBytes ws)
    (hunclosed : e.Unclosed) (hstep : e.readerStep = some e') :
    e'.reader.Checks config ws fed := by
  subst hc
  cases h with
  | going fs hgo hh =>
    rcases readerStep_going hgo hw.offered hfed hw.kinds hstep with ⟨hclosed, -⟩ | hstepped
    · exact absurd ((hunclosed hgo.unfinished).1.symm.trans hclosed) Bool.false_ne_true
    · cases hstepped with
      | going gs hg ha =>
        exact .going gs (going_of_readerStep hgo hstep hg)
          (hh.adds hgo.toKept (Config.partSize_pos _) ha)
      | refused _ hs hr => exact hr.checks hgo hh hw hfed hs.finished
      | closed f hf hop => exact absurd hop (hw.frames f hf).stays
  | refused front c v n hfin hparts hsound hns hv hreads =>
    obtain rfl := readerStep_of_over (by simp [hfin]) hstep
    refine .refused front c v (n + 1) rfl hparts hsound hns hv ?_
    rw [endRead, Array.toList_push, hreads, List.replicate_succ', List.append_assoc]
    rfl

theorem isIncoming_of_undisturbed {ev : Event} (hu : (e.accept ev).1.Undisturbed)
    (hfeed : ∀ b, ev ≠ .feed b) : ev.isIncoming = false := by
  cases ev with
  | feed b => exact absurd rfl (hfeed b)
  | endInput => cases hu.ended
  | failInput f => cases hu.fault
  | write | read | allow | failWrites | takeNothing | failFlushes | advance | drop => rfl

/-- The reader checks the text of the row, throughout. -/
theorem Course.checks (h : Course config ok fed (e :: past)) (hw : Frame.OrderlyRow config ws)
    (hfed : fed <+: Frame.rowBytes ws) (hu : ∀ d ∈ e :: past, d.Undisturbed) :
    e.reader.Checks config ws fed := by
  refine h.always (Q := fun fed d => d.reader.Checks config ws fed) hu hfed ?_ ?_ ?_
  · intro callbacks keys quota maxWrite _
    have hgoing (rules : HeaderRules) := opened_going rules config callbacks keys quota maxWrite
    rw [opened, reader_writeAll] at hgoing ⊢
    exact .going [] (hgoing _) ⟨⟨[], rfl, rfl⟩, rfl⟩
  · intro fed c c' earlier h hpast hu' hfed hstep hc
    cases hstep with
    | event ev hev =>
      obtain ⟨m, hm⟩ := reader_accept (d := c) (isIncoming_of_undisturbed hu' hev.2)
      rw [hm]
      cases hc with
      | going fs hgo hh => exact .going fs (going_reading hgo m) ⟨hh.reads, hh.controls⟩
      | refused front c v n hfin hparts hsound hns hv hreads =>
        exact .refused front c v n hfin hparts hsound hns hv hreads
    | reader hr => exact checks_readerStep hc h.config_eq hw hfed (h.run.unclosed hpast) hr
    | writer hwr =>
      rw [(sendingWork_writerStep hwr).1]
      exact hc
    | timer ht =>
      rw [(sendingWork_timerStep ht).1]
      exact hc
    | turn t => exact hc
  · intro fed c b _ hc
    cases hc with
    | going fs hgo hh => exact .going fs (feed_going hgo b) ⟨hh.reads, hh.controls⟩
    | refused front c v n hfin hparts hsound hns hv hreads =>
      exact .refused front c v n hfin hparts hsound hns hv hreads

/-- What reads give for a row of frames of which the front has been fed. -/
structure TextChecked (config : Config) (ok : Event → Prop) (ws : List Frame) (fed : Bytes)
    (e : Endpoint) : Prop where
  /-- The parts of the row, as long as they break no message. The part that does is not handed out:
  the read fails, and later reads say that the connection has ended. -/
  parts : (∃ cs, cs <+: Frame.rowChunks config.partSize false ws ∧
      e.reader.reads.toList = cs.map .chunk ∧ ∀ m ∈ Chunk.messages cs, ¬ m.Broken) ∨
    ∃ (front : List Chunk) (c : Chunk) (v : Violation) (n : Nat),
      front ++ [c] <+: Frame.rowChunks config.partSize false ws ∧
      e.reader.reads.toList = front.map .chunk ++ .failed v.toError :: List.replicate n .ended ∧
      v.code = .invalidPayload ∧ (∀ m ∈ Chunk.messages front, ¬ m.Broken) ∧
      ∃ m ∈ Chunk.messages (front ++ [c]), m.Broken
  /-- An application that waits for more, when all has come in, has got all parts, or a violation
  if some message is broken. A data frame of its own that is unfinished would hold the pongs back,
  and with them the reader; there is none if no such frame has been started. -/
  whole : fed = Frame.rowBytes ws → e.tick = none →
    (e.reader.finished = false → e.reader.reading.isSome = true) →
    (e.outbox.frame.remaining = 0 ∨ ∀ c, ok (.write c) → c.kind ≠ .message) →
    ((∃ err, .failed err ∈ e.reader.reads ∧ err.isViolation = true) ↔
      ∃ m ∈ Frame.messages ws, m.Broken) ∧
    ((∀ m ∈ Frame.messages ws, ¬ m.Broken) →
      e.reader.reads.toList = (Frame.rowChunks config.partSize false ws).map .chunk)

theorem Run.frame_eq_none (h : Run ok (e :: past)) (hok : ∀ c, ok (.write c) → c.kind ≠ .message) :
    e.outbox.frame = .none := by
  -- what starts no data frame is within any bounds, even those that no data frame fits
  have hwithin : ∀ c, ok (.write c) → c.Within fun _ _ => False := by
    intro c hc
    have hkind := hok c hc
    cases c with
    | firstChunk | message => exact absurd rfl hkind
    | continuation | ping | pong | close => trivial
  exact (h.trail hwithin).unframed rfl

theorem parts_at_rest {fs : List Frame} (hgo : e.reader.Going e.rules (Frame.rowBytes ws) fs)
    (hh : e.reader.Handed e.config.partSize fs) (hw : Frame.OrderlyRow e.config ws)
    (hsend : e.Sending fun _ _ => True) (hu : e.Undisturbed) (hopen : e.life.closed = false)
    (hrest : e.tick = none) (hreading : e.reader.reading.isSome = true)
    (hdone : e.outbox.frame.remaining = 0) :
    e.reader.reads.toList = (Frame.rowChunks e.config.partSize false ws).map .chunk ∧
      e.reader.received = Frame.rowMarks false ws := by
  have hease : AtEase e := ⟨hrest, hopen, hu.quota⟩
  have hwaits := awaitsInput_of_held hrest hreading (hease.cleared hsend hdone).outstanding
  have hread : ws <+: fs :=
    read_at_rest hgo hw.offered List.prefix_rfl (waits_of_tick hrest).1 hreading hwaits.unanswered
      (fun w hm => ⟨hw.whole w hm, hw.offered.rsv_lt w hm⟩) List.prefix_rfl
  obtain ⟨cs, hcs, hreceived, hbehind, hfront⟩ :=
    hh.parts hgo.toPlaced hw.offered hw.whole List.prefix_rfl
  have hall : cs = Frame.rowChunks e.config.partSize false ws :=
    hfront.eq_of_length_le ((Frame.rowChunks_mono hread).trans hbehind).length_le
  rw [hcs, hreceived, hall, Frame.marks_rowChunks _ false hw.whole]
  exact ⟨rfl, rfl⟩

/-- Reading fails exactly when a text message is broken, and with the part that breaks it. -/
theorem text_checked_of_course (h : Course config ok fed (e :: past))
    (hu : ∀ d ∈ e :: past, d.Undisturbed) (hw : Frame.OrderlyRow config ws)
    (hfed : fed <+: Frame.rowBytes ws) : TextChecked config ok ws fed e := by
  have hc := h.config_eq
  subst hc
  obtain ⟨s, hs⟩ := hw.order
  have hbroken : ¬ Mark.TextSound (Frame.rowMarks false ws) ↔
      ∃ m ∈ Frame.messages ws, m.Broken := by
    rw [Frame.textSound_iff_messages hw.whole hs]
    simp only [not_forall, not_not, exists_prop]
  have hunclosed := h.run.unclosed hu
  cases h.checks hw hfed hu with
  | going fs hgo hh =>
    obtain ⟨cs, hcs, hreceived, -, hfront⟩ := hh.parts hgo.toPlaced hw.offered hw.whole hfed
    have hsound := hgo.text.1
    refine ⟨.inl ⟨cs, hfront, hcs, (Frame.textSound_iff_parts hs hfront).mp (hreceived ▸ hsound)⟩,
      fun hall hrest hreading hframe => ?_⟩
    subst hall
    have hdone : e.outbox.frame.remaining = 0 := by
      refine hframe.elim id fun hok => ?_
      rw [h.run.frame_eq_none fun c hc => hok c (hc.resolve_right (by simp))]
      rfl
    obtain ⟨hopen, -⟩ := hunclosed hgo.unfinished
    -- at rest all parts have been handed out, and their text is sound as the reader goes on
    obtain ⟨hparts, hmarks⟩ := parts_at_rest hgo hh hw h.inOrder.sending (hu e List.mem_cons_self)
      hopen hrest (hreading hgo.unfinished) hdone
    refine ⟨⟨?_, fun hm => ?_⟩, fun _ => hparts⟩
    · rintro ⟨err, herr, -⟩
      obtain ⟨c, hc⟩ := hgo.chunks _ herr
      cases hc
    · exact absurd (hmarks ▸ hsound) (hbroken.mpr hm)
  | refused front c v n hfin hparts hsound hns hv hreads =>
    have hpart : ∃ m ∈ Chunk.messages (front ++ [c]), m.Broken := by
      rw [Frame.textSound_iff_parts hs hparts] at hns
      simpa only [not_forall, not_not, exists_prop] using hns
    have hsound := (Frame.textSound_iff_parts hs ((List.prefix_append _ _).trans hparts)).mp hsound
    refine ⟨.inr ⟨front, c, v, n, hparts, hreads, hv, hsound, hpart⟩, fun _ _ _ _ => ?_⟩
    have hbad : ∃ m ∈ Frame.messages ws, m.Broken := by
      obtain ⟨tail, htail⟩ := hparts
      rw [← hbroken, ← Frame.marks_rowChunks e.config.partSize false hw.whole, ← htail,
        List.flatMap_append]
      exact mt Mark.TextSound.front hns
    refine ⟨⟨fun _ => hbad, fun _ => ⟨v.toError, ?_, rfl⟩⟩, fun hnone => ?_⟩
    · rw [← Array.mem_toList_iff, hreads]
      simp
    · obtain ⟨m, hm, hbad⟩ := hbad
      exact absurd hbad (hnone m hm)

/-- A server reads byte by byte. A binary message is no text, and a character of the message after
it is in two frames with a ping between them; then a text message ends inside a character. -/
theorem text_checked_of_course_unfinished_character :
    ∃ (ws : List Frame) (e : Endpoint) (past : List Endpoint),
      Course { Config.server with readChunkSize := 0 } (fun _ => True) (Frame.rowBytes ws)
        (e :: past) ∧
      (∀ d ∈ e :: past, d.Undisturbed) ∧
      Frame.OrderlyRow { Config.server with readChunkSize := 0 } ws ∧
      Frame.messages ws =
        [⟨true, [0xff], true⟩, ⟨false, [0x61, 0xc3, 0xa4], true⟩, ⟨false, [0x62, 0xe2], true⟩] ∧
      e.tick = none ∧ e.reader.finished = true ∧ e.outbox.frame.remaining = 0 ∧
      e.reader.reads.toList = [.chunk ⟨[0xff], true, true, true⟩,
        .chunk ⟨[0x61], false, false, false⟩, .chunk ⟨[0xc3], true, false, false⟩,
        .chunk ⟨[0xa4], true, true, false⟩, .chunk ⟨[0x62], false, true, false⟩,
        .failed Violation.unfinishedText.toError] ∧
      TextChecked { Config.server with readChunkSize := 0 } (fun _ => True) ws
        (Frame.rowBytes ws) e ∧
      ∃ m ∈ Frame.messages ws, m.Broken := by
  let key : Key := ⟨1, 2, 3, 4⟩
  let ws : List Frame := [⟨.plain true .binary 1 (some key), [0xff]⟩,
    ⟨.plain false .text 2 (some key), [0x61, 0xc3]⟩, ⟨.plain true .ping 0 (some key), []⟩,
    ⟨.plain true .continuation 1 (some key), [0xa4]⟩,
    ⟨.plain true .text 2 (some key), [0x62, 0xe2]⟩]
  have hw : Frame.OrderlyRow { Config.server with readChunkSize := 0 } ws := by
    refine ⟨?_, ⟨.initial, rfl⟩⟩
    intro w hm
    simp only [ws, List.mem_cons, List.not_mem_nil, or_false] at hm
    rcases hm with rfl | rfl | rfl | rfl | rfl <;>
      exact ⟨by decide, by decide, by decide, by decide, by decide,
        fun k => by cases k <;> decide, by decide⟩
  have h0 : Course { Config.server with readChunkSize := 0 } (fun _ => True) []
      [opened _ .none (fun _ => .zero) none (some 3)] := .start _ _ _ _ fun _ _ => trivial
  obtain ⟨e, past, h, hu, hy⟩ := h0.driven (P := Undisturbed) (n := 60)
    (f := fun e => e.tick.isNone && e.reader.finished && e.outbox.frame.remaining == 0 &&
      e.reader.reads.toList == [.chunk ⟨[0xff], true, true, true⟩,
        .chunk ⟨[0x61], false, false, false⟩, .chunk ⟨[0xc3], true, false, false⟩,
        .chunk ⟨[0xa4], true, true, false⟩, .chunk ⟨[0x62], false, true, false⟩,
        .failed Violation.unfinishedText.toError])
    (y := true)
    [.feed ((Frame.rowBytes ws).take 20), .read .all, .feed ((Frame.rowBytes ws).drop 20)]
    (fun d t hd => ⟨hd.quota, hd.maxWrite, hd.writeFault, hd.takes, hd.flushFault, hd.fault,
      hd.ended, hd.held, hd.closing⟩)
    (fun _ _ => .inl trivial) (fun _ _ d hd => hd.ended) (by decide +kernel)
  simp only [Bool.and_eq_true, beq_iff_eq] at hy
  obtain ⟨⟨⟨hrest, hfin⟩, hdone⟩, hreads⟩ := hy
  have hfed : [] ++ [Event.feed ((Frame.rowBytes ws).take 20), .read .all,
      .feed ((Frame.rowBytes ws).drop 20)].flatMap fedBy = Frame.rowBytes ws := by decide
  rw [hfed] at h
  have hrest : e.tick = none := Option.isNone_iff_eq_none.mp hrest
  have hchecked := text_checked_of_course h hu hw List.prefix_rfl
  refine ⟨ws, e, past, h, hu, hw, by decide, hrest, hfin, hdone, hreads, hchecked, ?_⟩
  have hiff := (hchecked.whole rfl hrest (fun hgo => absurd (hgo.symm.trans hfin) (by simp))
    (.inl hdone)).1
  refine hiff.mp ⟨Violation.unfinishedText.toError, ?_, rfl⟩
  rw [← Array.mem_toList_iff, hreads]
  simp

end Endpoint

end WebSocket
