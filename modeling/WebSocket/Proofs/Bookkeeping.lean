import WebSocket.Proofs.Frame.Sequence
import WebSocket.Proofs.Piecewise

/-! Two books are kept of data frames that come in pieces. The calls count what is left of the frame
that they are handing in; the writer notes whether the frame on the wire is complete. Jobs that wait
stand between the two, so that one book may be ahead of the other. Still each piece finds the wire
as it needs it when the writer takes it. -/

namespace WebSocket

namespace Frame

/-- Read frame by frame, the bytes end inside a frame of which `n` payload bytes are to come. -/
def Owes (b : Bytes) (n : Nat) : Prop :=
  ∃ fs rest h used, Reads parse? b fs rest ∧ Header.decode? rest = some (h, used) ∧
    rest.length + n = used + h.payloadLength.toNat

variable {fs : List Frame}

/-- Whole frames are read off, up to bytes that do not begin with a whole frame. -/
theorem reads_rowBytes_append (h : ∀ f ∈ fs, f.Whole ∧ f.header.rsv < 8) {rest : Bytes}
    (hrest : parse? rest = none) : Reads parse? (rowBytes fs ++ rest) fs rest := by
  induction fs with
  | nil => exact .stop hrest
  | cons f fs ih =>
    obtain ⟨hwhole, hrsv⟩ := h f List.mem_cons_self
    rw [rowBytes_cons, List.append_assoc]
    refine .next (parse?_bytes_append f hrsv hwhole _) ?_
    rw [List.drop_left]
    exact ih fun g hg => h g (List.mem_cons_of_mem f hg)

theorem parse?_of_part {f : Frame} (hr : f.header.rsv < 8)
    (hlt : f.payload.length < f.header.payloadLength.toNat) : parse? f.bytes = none := by
  have hmore : f.filled.bytes = f.bytes ++ _ := bytes_more f _
  refine parse?_eq_none (f := f.filled) hr (whole_filled (Nat.le_of_lt hlt))
    (hmore.symm.trans (List.append_nil _).symm) ?_
  rw [hmore, List.length_append, length_maskWith, List.length_replicate]
  omega

theorem owes_rowBytes_append (h : ∀ f ∈ fs, f.Whole ∧ f.header.rsv < 8) {f : Frame}
    (hr : f.header.rsv < 8) {n : Nat} (hn : n ≠ 0)
    (hlen : f.payload.length + n = f.header.payloadLength.toNat) :
    Owes (rowBytes fs ++ f.bytes) n := by
  refine ⟨fs, f.bytes, f.header, f.header.encodedLength,
    reads_rowBytes_append h (parse?_of_part hr (by omega)), ?_, ?_⟩
  · exact Header.decode?_encode_append f.header hr _
  · rw [bytes_eq, List.length_append, Header.length_encode, length_maskWith]
    omega

end Frame

/-! What jobs that have been written leave open. -/

section

variable {masked : Bool} {fits : Nat → Nat → Prop} {f g : OutgoingFrame} {j : Job} {js : List Job}

theorem Laid.rsv_lt (h : Laid masked fits js f) : ∀ g ∈ Job.frames js, g.header.rsv < 8 := by
  intro g hg
  rw [(h.framed.fit g hg).rsv]
  decide

theorem Laid.reads (h : Laid masked fits js f) (hf : f.remaining = 0) :
    Frame.Reads Frame.parse? (js.flatMap Job.bytes) (Job.frames js) [] := by
  have hframed := h.framed
  have hrest : Frame.parse? [] = none := rfl
  have hreads := Frame.reads_rowBytes_append
    (fun g hg => ⟨hframed.ends.all_whole hf g hg, h.rsv_lt g hg⟩) hrest
  rwa [List.append_nil, hframed.bytes] at hreads

theorem Laid.owes (h : Laid masked fits js f) (hf : f.remaining ≠ 0) :
    Frame.Owes (js.flatMap Job.bytes) f.remaining := by
  have hframed := h.framed
  have hrsv := h.rsv_lt
  rw [← hframed.bytes]
  have hends := hframed.ends
  generalize Job.frames js = fs at hends hrsv ⊢
  cases hends with
  | whole h0 => exact absurd h0 hf
  | part g _ hwhole _ _ hoff hlen =>
    rw [Frame.rowBytes_append, Frame.rowBytes_cons, Frame.rowBytes_nil, List.append_nil]
    exact Frame.owes_rowBytes_append (fun x hx => ⟨hwhole x hx, hrsv x (by simp [hx])⟩)
      (hrsv g (by simp)) hf (hoff ▸ hlen)

theorem Follows.goes_on (hj : Follows masked fits f j g) (hk : j.kind = .continuation) :
    f.remaining ≠ 0 ∧ j.data.length + j.owed = f.remaining := by
  cases hj with
  | first => cases hk
  | further n data hopen hlen => exact ⟨hopen, Nat.add_sub_of_le hlen⟩
  | control n kind op key data last hop =>
    obtain rfl : kind = .continuation := hk
    cases hop

end

/-- The pieces of data frames that have been handed in leave `n` bytes to come: what the last first
piece announces is what it brings, with the further pieces behind it, and these. -/
inductive Job.Leaves : List Job → Nat → Prop where
  | nothing : Leaves [] 0
  | frame {n : Nat} (before : List Job) (first : Job) (further : List Job) (h : Header)
      (hfirst : first.kind = .message) (hfurther : ∀ j ∈ further, j.kind = .continuation)
      (hheader : first.header = some h)
      (hsum : load (first :: further) + n = h.payloadLength.toNat) :
      Leaves (before ++ (first :: further)) n

namespace Endpoint

/-- The writer takes a job: one that it has held back, if it may send these and there are any, or
else the next one in the queue. -/
inductive Fetches (e : Endpoint) (job : Job) : Endpoint → Prop where
  | held (rest : List Job) (hs : e.writer.state = .idle) (hopen : e.life.closed = false)
      (hf : e.writer.frameOpen = false) (hd : e.writer.deferred = job :: rest) :
      Fetches e job ((e.setDeferred rest).takeUp job)
  | queued (rest : List Job) (hs : e.writer.state = .idle) (hopen : e.life.closed = false)
      (hd : e.writer.frameOpen = true ∨ e.writer.deferred = [])
      (hq : e.outbox.queue = job :: rest) : Fetches e job ((e.setQueue rest).takeUp job)

/-- The two books agree. -/
structure InStep (e : Endpoint) : Prop where
  remaining : Job.Leaves e.pieces e.outbox.frame.remaining
  /-- Between two jobs the writer takes the next one, or it stops for want of one. -/
  next : e.writer.state = .idle → e.life.closed = false → ∀ e', e.writerStep = some e' ↔
    (∃ job, e.Fetches job e') ∨ e.held = false ∧ e.outbox.queue = [] ∧
      (e.writer.frameOpen = true ∨ e.writer.deferred = []) ∧ e' = e.stop
  /-- A first piece is sent behind whole frames. -/
  first : (∀ j ∈ e.written, j.kind ≠ .close) → ∀ job e', e.Fetches job e' → job.kind = .message →
    e.writer.frameOpen = false ∧
      (∃ fs, Frame.Reads Frame.parse? e.transport.wire.toList fs []) ∧
      e'.writer.state = .sending job job.bytes
  further : (∀ j ∈ e.written, j.kind ≠ .close) → ∀ job e', e.Fetches job e' →
    job.kind = .continuation →
      e.writer.frameOpen = true ∧
        Frame.Owes e.transport.wire.toList (job.data.length + job.owed) ∧
        e'.writer.state = .sending job job.bytes
  deferred : ∀ j ∈ e.writer.deferred, j.kind = .ping ∨ j.kind = .pong ∨ j.kind = .close
  distinct : (e.writer.deferred.map (·.kind)).Nodup
  earlier : ∀ i ∈ e.writer.deferred, ∀ j ∈ e.outbox.queue, i.serial < j.serial

variable {ok : Event → Prop} {fits : Nat → Nat → Prop} {e e' : Endpoint} {past : List Endpoint}
  {job : Job}

theorem Fetches.writerStep (h : e.Fetches job e') : e.writerStep = some e' := by
  unfold Endpoint.writerStep
  cases h with
  | held rest hs hopen hf hd => simp [hs, hopen, hf, hd]
  | queued rest hs hopen hd hq =>
    rcases hd with hf | hd
    · simp [hs, hopen, hf, hq]
    · simp [hs, hopen, hd, hq]

theorem writerStep_iff_fetches (hs : e.writer.state = .idle) (hopen : e.life.closed = false) :
    e.writerStep = some e' ↔ (∃ job, e.Fetches job e') ∨ e.held = false ∧ e.outbox.queue = [] ∧
      (e.writer.frameOpen = true ∨ e.writer.deferred = []) ∧ e' = e.stop := by
  constructor
  · intro h
    cases writerStep_cases h with
    | cut _ _ hsend | fail _ _ _ hsend | complete _ hsend | put _ _ _ _ hsend =>
      cases hs.symm.trans hsend
    | takeHeld job rest _ _ hf hd => exact .inl ⟨job, .held rest hs hopen hf hd⟩
    | takeNew job rest _ _ hd hq => exact .inl ⟨job, .queued rest hs hopen hd hq⟩
    | stop _ hwhy =>
      obtain hshut | ⟨hheld, hqueue, hnone⟩ := hwhy
      · exact absurd (hopen.symm.trans hshut) Bool.false_ne_true
      · exact .inr ⟨hheld, hqueue, hnone, rfl⟩
  · rintro (⟨job, hfetch⟩ | ⟨hheld, hqueue, hnone, rfl⟩)
    · exact hfetch.writerStep
    · unfold Endpoint.writerStep
      rcases hnone with hf | hd
      · simp [hs, hopen, hf, hheld, hqueue]
      · simp [hs, hopen, hd, hheld, hqueue]

theorem takeUp_sending (hsent : e.writer.closeSent = false)
    (hk : e.writer.frameOpen = true → job.kind = .continuation) :
    (e.takeUp job).writer.state = .sending job job.bytes := by
  unfold takeUp
  rw [if_neg (by simp [hsent]), if_neg]
  · rfl
  · simpa using hk

namespace Fetches

theorem idle (h : e.Fetches job e') : e.writer.state = .idle := by
  cases h with
  | held _ hs | queued _ hs => exact hs

/-- The job taken next is one that may come next. -/
theorem follows (h : e.Fetches job e') {f : OutgoingFrame}
    (hf : Outgoing.FlowsFrom e.masks fits e.outgoing f) : ∃ g, Follows e.masks fits f job g := by
  cases h with
  | held rest hs hopen _ hd =>
    have hmem : job ∈ e.outgoing.writer.deferred :=
      (show e.outgoing.writer.deferred = _ from hd) ▸ List.mem_cons_self
    exact ⟨f, (hf.deferred job hmem).2 f⟩
  | queued rest hs hopen _ hq =>
    have htrail := hf.trail_idle hs
    rw [show e.outgoing.outbox.queue = _ from hq] at htrail
    cases htrail with
    | cons hj => exact ⟨_, hj⟩

theorem sending (h : e.Fetches job e') (hsent : e.writer.closeSent = false)
    (hk : e.writer.frameOpen = true → job.kind = .continuation) :
    e'.writer.state = .sending job job.bytes := by
  cases h with
  | held rest => exact takeUp_sending (e := e.setDeferred rest) hsent hk
  | queued rest => exact takeUp_sending (e := e.setQueue rest) hsent hk

end Fetches

/-- The jobs written lead to where the writer stands when it takes one. -/
theorem Fetches.flows (h : e.Fetches job e') (hsend : e.Sending fits)
    (hclose : ∀ j ∈ e.written, j.kind ≠ .close) : e.writer.closeSent = false ∧
      ∃ f, Outgoing.FlowsFrom e.masks fits e.outgoing f := by
  have hsent : e.writer.closeSent = false := by
    apply Bool.eq_false_iff.mpr
    intro hsent
    obtain ⟨-, -, j, hj, hk⟩ := hsend.closes.spent hsent
    exact hclose j hj hk
  exact ⟨hsent, hsend.flowing (by simp [show e.outgoing.writer.state = _ from h.idle]) hsent⟩

theorem Shift.ordered {heldBack : Job → Prop} (hs : Shift fits e e') (h : e.Sending fits)
    (ho : e.outgoing.Ordered heldBack) : e'.outgoing.Ordered heldBack := by
  refine hs.lift (P := fun o => o.Ordered heldBack) h ho ?_
  intro o o' hsound hm ho
  cases hm with
  | enter j f keys hj => exact ho.join hsound.numbered (Outgoing.lineUp_enter o j f keys _) hj.serial
  | shut => exact ho

theorem leaves_of_trail (ht : Trail e.masks fits .none e.pieces e.outbox.frame) :
    Job.Leaves e.pieces e.outbox.frame.remaining := by
  by_cases hnone : e.pieces = []
  · rw [hnone] at ht ⊢
    generalize e.outbox.frame = frame at ht ⊢
    cases ht
    exact .nothing
  · have hdata : ∀ j ∈ e.pieces, j.isData = true := fun _ hj => (List.mem_filter.mp hj).2
    obtain ⟨before, first, further, hsplit, hfirst, hfurther⟩ := ht.last_frame hdata hnone
    have hall : e.pieces = before ++ (first :: further ++ []) := by rw [List.append_nil, hsplit]
    obtain ⟨h, hheader, -, -, hlast⟩ := frame_of_trail ht hall hfirst hfurther
    obtain ⟨hoffset, hsum⟩ := hlast rfl
    rw [hsplit]
    exact .frame before first further h hfirst hfurther hheader (hoffset ▸ hsum)

theorem inStep_of_trail {heldBack : Job → Prop} (h : e.Sending fits) (ht : e.OnTrail fits)
    (ho : e.outgoing.Ordered heldBack) : InStep e where
  remaining := leaves_of_trail ht.filter_isData
  next hs hopen _ := writerStep_iff_fetches hs hopen
  first hclose job e' hfetch hk := by
    obtain ⟨hsent, f, hf⟩ := hfetch.flows h hclose
    obtain ⟨g, hj⟩ := hfetch.follows hf
    have hdone := (hj.starts hk).1
    have hframe : e.writer.frameOpen = false := hf.closed_iff.mpr hdone
    refine ⟨hframe, ⟨Job.frames e.written, ?_⟩, hfetch.sending hsent (by simp [hframe])⟩
    rw [show e.transport.wire.toList = _ from h.wire_of_idle hfetch.idle]
    exact hf.laid.reads hdone
  further hclose job e' hfetch hk := by
    obtain ⟨hsent, f, hf⟩ := hfetch.flows h hclose
    obtain ⟨g, hj⟩ := hfetch.follows hf
    obtain ⟨hne, hsum⟩ := hj.goes_on hk
    refine ⟨hf.open_iff.mpr hne, ?_, hfetch.sending hsent fun _ => hk⟩
    rw [show e.transport.wire.toList = _ from h.wire_of_idle hfetch.idle, hsum]
    exact hf.laid.owes hne
  deferred j hj := JobKind.isSome_control?.mp (h.deferred_control j hj)
  distinct := by
    have hkinds := h.slotted.nodup
    rw [Outgoing.held, Outgoing.waiting, List.map_append, List.map_append] at hkinds
    exact (List.nodup_append.mp (List.nodup_append.mp hkinds).2.1).1
  earlier i hi j hj := by
    rw [Outgoing.Ordered, Outgoing.lineUp, Outgoing.held, Outgoing.waiting] at ho
    have hwaiting := (List.pairwise_append.mp (List.pairwise_append.mp ho).2.1).2.1
    obtain hlt | ⟨hk, -⟩ := (List.pairwise_append.mp hwaiting).2.2 i hi j hj
    · exact hlt
    · have hcontrol := h.deferred_control i hi
      rw [hk] at hcontrol
      cases hcontrol

/-- In every run, also between the calls of a callback, the calls and the writer agree on which
frame is open and how much of it is to come. -/
theorem inStep_of_run (h : Run (fun _ => True) (e :: past)) (r : Reader) (cs : List WriteCall) :
    InStep ({ e with reader := r }.writeAll cs).1 := by
  have hok : ∀ c : WriteCall, True → c.Within fun _ _ => True := fun c _ => c.within_any
  have hsend := (h.inOrder hok).sending
  have hread : Acts (fun _ _ => True) e { e with reader := r } := .read e r
  have hacts := hread.trans (writeAll_acts (hread.sending hsend) cs fun c _ => c.within_any)
  have hshift := hacts.reaction.toShift
  exact inStep_of_trail (hacts.sending hsend) (hshift.trail hsend (h.trail hok))
    (hshift.ordered hsend (h.ordered hok))

/-- A server of which half a message is on the wire, with a ping held back behind that, and with the
other half and the start of the next message still to be taken. -/
theorem inStep_of_run_ahead :
    ∃ (e e' : Endpoint) (past : List Endpoint) (job : Job), Run (fun _ => True) (e :: past) ∧
      e.writer.deferred.map (·.kind) = [.ping] ∧
      e.outbox.queue.map (·.kind) = [.continuation, .message] ∧
      e.outbox.frame.remaining = 8 ∧ e.transport.wire.toList = [0x82, 0x04, 0x61, 0x62] ∧
      (∀ j ∈ e.written, j.kind ≠ .close) ∧ e.Fetches job e' ∧ job.kind = .continuation ∧
      InStep e ∧ Frame.Owes e.transport.wire.toList 2 := by
  have h : Run (fun _ => True) [opened .server .none (fun _ => .zero) none none] :=
    .start _ _ _ _ _ fun _ _ => trivial
  obtain ⟨d, past, h, hy⟩ := h.handleAll (n := 16)
    (f := fun d =>
      let e := ((d.accept (.write (.continuation [0x63, 0x64]))).1.accept
        (.write (.firstChunk 9 [0x65] true true))).1
      (match e.writer.state with | .idle => true | _ => false,
        decide (e.life.closed = false ∧ e.writer.frameOpen = true ∧
          (∀ j ∈ e.written, j.kind ≠ .close) ∧ e.writer.deferred.map (·.kind) = [.ping] ∧
          e.outbox.frame.remaining = 8),
        e.outbox.queue, e.transport.wire.toList))
    [.write (.firstChunk 4 [0x61, 0x62] true true), .write (.ping [])] (fun _ _ => trivial)
    (y := (true, true,
      [⟨2, .continuation, none, [0x63, 0x64], none, 2, 0, false⟩,
        ⟨3, .message, some (.plain true .binary 9 none), [0x65], none, 0, 8, false⟩],
      [0x82, 0x04, 0x61, 0x62])) (by decide +kernel)
  replace h := (h.step (.event (.write (.continuation [0x63, 0x64])) trivial)).step
    (.event (.write (.firstChunk 9 [0x65] true true)) trivial)
  dsimp only at hy
  generalize ((d.accept (.write (.continuation [0x63, 0x64]))).1.accept
    (.write (.firstChunk 9 [0x65] true true))).1 = e at h hy
  simp only [Prod.mk.injEq] at hy
  obtain ⟨hidle, hy, hqueue, hwire⟩ := hy
  obtain ⟨hopen, hframe, hclose, hdeferred, hremaining⟩ := of_decide_eq_true hy
  have hs : e.writer.state = .idle := by
    split at hidle
    · assumption
    · cases hidle
  have hfetch := Fetches.queued _ hs hopen (.inl hframe) hqueue
  have hstep : InStep e := inStep_of_run h e.reader []
  exact ⟨e, _, _, _, h, hdeferred, by rw [hqueue]; rfl, hremaining, hwire, hclose, hfetch, rfl,
    hstep, (hstep.further hclose _ _ hfetch rfl).2.1⟩

end Endpoint

end WebSocket
