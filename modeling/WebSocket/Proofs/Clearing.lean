import WebSocket.Proofs.Completions
import WebSocket.Proofs.Endpoint.Driven

/-! What waits behind a data frame that is open. On an open connection, on a stream that takes what
it is given, control frames wait for that and nothing else waits for anything. When the frame is
complete they go out, up to the first close among them, before all that is handed in later. -/

namespace WebSocket

/-- The jobs up to the first close among them. -/
def Job.uptoClose : List Job → List Job
  | [] => []
  | j :: js => if j.kind = .close then [j] else j :: uptoClose js

namespace Endpoint

/-- At rest on an open connection, on a stream that takes what it is given. -/
structure AtEase (e : Endpoint) : Prop where
  rest : e.tick = none
  opened : e.life.closed = false
  quota : e.transport.quota ≠ some 0

structure Cleared (e : Endpoint) : Prop where
  resolved : (e.ended.map (·.job.serial)).Perm (List.range e.outbox.nextSerial)
  outstanding : e.outstanding = []
  free : e.pending = []

/-- Control frames wait, in the order in which they were handed in, and nothing else. -/
structure HeldUp (e : Endpoint) : Prop where
  pending : ∀ k ∈ e.pending, k = .ping ∨ k = .pong ∨ k = .close
  outstanding : ∀ j ∈ e.outstanding, j.kind.control?.isSome = true
  order : e.outstanding.Pairwise fun i j => i.serial < j.serial
  sent : ∀ j ∈ e.outgoing.lineUp, j.kind = .message ∨ j.kind = .continuation → j ∈ e.written
  wire : e.transport.wire.toList = e.written.flatMap Job.bytes

/-- A data frame is open in the state `d`, and the state `e` comes later. Since then `parts` of the
frame have been written, and then `more`. -/
structure Resumes (d e : Endpoint) (parts more : List Job) : Prop where
  written : e.written = d.written ++ (parts ++ more)
  wire : d.transport.wire.toList ++ (parts ++ more).flatMap Job.bytes <+: e.transport.wire.toList
  further : ∀ j ∈ parts, j.kind = .continuation
  within : Job.load parts ≤ d.outbox.frame.remaining
  /-- Nothing comes before the last byte of the frame. -/
  complete : more ≠ [] → Job.load parts = d.outbox.frame.remaining
  /-- The jobs held back come first, up to the first close among them. -/
  order : more <+: Job.uptoClose d.outstanding ∨ Job.uptoClose d.outstanding <+: more

/-- A part has been handed in since that leaves nothing of its frame to come. -/
def Completed (d e : Endpoint) : Prop :=
  ∃ j ∈ e.outgoing.lineUp, j.kind = .continuation ∧ j.owed = 0 ∧ d.outbox.nextSerial ≤ j.serial

/-- The writer has done what it can. If the connection is closed, it is so because the job that was
to close it has been written. -/
structure CaughtUp (e : Endpoint) : Prop where
  waits : e.writerStep = none
  quota : e.transport.quota ≠ some 0
  closed : e.life.closed = true → ∃ j ∈ e.written, j.last = true

structure Unstuck (states : List Endpoint) (e : Endpoint) : Prop where
  cleared : AtEase e → e.outbox.frame.remaining = 0 → Cleared e
  heldUp : AtEase e → e.outbox.frame.remaining ≠ 0 → HeldUp e
  resumes : ∀ d ∈ states, AtEase d → d.outbox.frame.remaining ≠ 0 →
    ∃ parts more, Resumes d e parts more ∧ (Completed d e → CaughtUp e →
      Job.load parts = d.outbox.frame.remaining ∧
        Job.uptoClose d.outstanding <+: more)

end Endpoint

namespace Job

variable {js is : List Job} {j : Job}

theorem uptoClose_append (h : ∀ i ∈ js, i.kind ≠ .close) (is : List Job) :
    uptoClose (js ++ is) = js ++ uptoClose is := by
  induction js with
  | nil => rfl
  | cons j js ih =>
    rw [List.cons_append, uptoClose, if_neg (h j List.mem_cons_self),
      ih fun i hi => h i (List.mem_cons_of_mem j hi)]
    rfl

theorem uptoClose_close (h : ∀ i ∈ js, i.kind ≠ .close) (hj : j.kind = .close) (is : List Job) :
    uptoClose (js ++ j :: is) = js ++ [j] := by
  rw [uptoClose_append h, uptoClose, if_pos hj]

theorem uptoClose_prefix (js : List Job) : uptoClose js <+: js := by
  induction js with
  | nil => exact List.prefix_rfl
  | cons j js ih =>
    rw [uptoClose]
    split
    · exact List.prefix_append [j] js
    · exact (List.prefix_cons_inj j).mpr ih

theorem uptoClose_mono (js is : List Job) : uptoClose js <+: uptoClose (js ++ is) := by
  induction js with
  | nil => exact List.nil_prefix
  | cons j js ih =>
    rw [List.cons_append, uptoClose, uptoClose]
    split
    · exact List.prefix_rfl
    · exact (List.prefix_cons_inj j).mpr ih

theorem uptoClose_compare (h : js <+: is) (hno : ∀ j ∈ js, j.kind ≠ .close) {front : List Job}
    (hfront : front <+: is) : js <+: uptoClose front ∨ uptoClose front <+: js := by
  obtain ⟨rest, rfl⟩ := h
  obtain ⟨more, hmore⟩ := hfront
  have hall : uptoClose front <+: uptoClose (js ++ rest) := hmore ▸ uptoClose_mono front more
  refine List.prefix_or_prefix_of_prefix ?_ hall
  rw [uptoClose_append hno]
  exact List.prefix_append _ _

end Job

namespace Outgoing

variable {masked : Bool} {fits : Nat → Nat → Prop} {o o' : Outgoing}

/-! Nothing but parts of the open frame is handed in behind a close call. -/

/-- The frame is complete by the time that the close frame has been sent. -/
structure Sealed (o : Outgoing) : Prop where
  announced : ∀ j ∈ o.lineUp, j.kind = .close → j.last = false → o.closing = true
  behind : o.lineUp.Pairwise fun j i => j.kind = .close → j.last = false → i.kind = .continuation
  frame : o.writer.closeSent = true → o.outbox.frame.remaining = 0

theorem Sealed.announced_move (h : Sealed o) (hp : Phased o) (hm : Move masked fits o o') :
    ∀ j ∈ o'.lineUp, j.kind = .close → j.last = false → o'.closing = true := by
  intro j hj hk hl
  have hperm := (LineMove.of_move hp hm).perm
  cases hm with
  | enter i f keys hi =>
    rw [lineUp_enter] at hj
    rcases List.mem_append.mp hj with hj | hj
    · simp [h.announced j hj hk hl]
    · rw [List.mem_singleton.mp hj] at hk hl
      simp [hk, hl]
  | _ => exact h.announced j ((hperm rfl).mem_iff.mp hj) hk hl

theorem Sealed.behind_move (h : Sealed o) (hp : Phased o) (hm : Move masked fits o o') :
    o'.lineUp.Pairwise fun j i => j.kind = .close → j.last = false → i.kind = .continuation := by
  have hline := LineMove.of_move hp hm
  have hkept : o'.outbox.nextSerial = o.outbox.nextSerial → o'.lineUp.Pairwise fun j i =>
      j.kind = .close → j.last = false → i.kind = .continuation := by
    intro hn
    cases hline with
    | join _ _ _ hnext => omega
    | keep hl => exact hl ▸ h.behind
    | overtake front rest j _ _ _ hk hold hnew =>
      have hbehind := h.behind
      rw [hold] at hbehind
      rw [hnew]
      refine pairwise_overtake hbehind fun i _ hclose => ?_
      rw [hk] at hclose
      cases hclose
  cases hm with
  | enter i f keys hi =>
    rw [lineUp_enter]
    refine List.pairwise_append.mpr ⟨h.behind, List.pairwise_singleton _ _, ?_⟩
    intro a ha b hb hk hl
    rw [List.mem_singleton.mp hb]
    exact hi.closing (h.announced a ha hk hl)
  | _ => exact hkept rfl

theorem Sealed.remaining_of_close (h : Sealed o) (hs : o.Sound masked fits) {j : Job}
    (hsend : o.writer.state = .sending j []) (hl : j.last = false) (hk : j.kind = .close) :
    o.outbox.frame.remaining = 0 := by
  obtain ⟨f, g, -, hj, hrest, hbetween⟩ := hs.sending hsend
  have hqueue : ∀ i ∈ o.outbox.queue, i.kind = .continuation := by
    intro i hi
    have hbehind := h.behind
    rw [lineUp_sending hsend] at hbehind
    obtain ⟨-, hbehind, -⟩ := List.pairwise_append.mp hbehind
    exact (List.pairwise_cons.mp hbehind).1 i (List.mem_append_right _ hi) hk hl
  obtain ⟨rfl, -⟩ := hj.control_iff (by rw [hk]; rfl)
  have hdone := hbetween (by simp [hk])
  have := hrest.remaining hqueue
  omega

theorem Sealed.move (h : Sealed o) (hs : o.Sound masked fits) (hm : Move masked fits o o') :
    Sealed o' := by
  refine ⟨h.announced_move hs.phased hm, h.behind_move hs.phased hm, ?_⟩
  intro hsent
  cases hm with
  | enter j f keys hj =>
    have hzero := h.frame hsent
    have hk := hj.closing (hs.closes.spent hsent).1
    have hfollows := hj.follows
    cases hfollows with
    | first => cases hk
    | further n data hne => exact absurd hzero hne
    | control => exact hzero
  | writeClose j _ hsend hl hk => exact h.remaining_of_close hs hsend hl hk
  | _ => exact h.frame hsent

/-! How the jobs held back behind a frame get on the wire. -/

/-- The frame is open, and the jobs in `held` are still held back. -/
structure Waiting (held : List Job) (o : Outgoing) : Prop where
  running : o.writer.state ≠ .stopped
  unsent : o.writer.closeSent = false
  frameOpen : o.writer.frameOpen = true
  front : held <+: o.writer.deferred

/-- The frame is complete, and of the jobs in `held` and such as came to be held back with them
those in `done` have been written. -/
structure Draining (held : List Job) (o : Outgoing) (done : List Job) : Prop where
  running : o.writer.state ≠ .stopped
  unsent : o.writer.closeSent = false
  frameDone : o.writer.frameOpen = false
  noClose : ∀ j ∈ done, j.kind ≠ .close
  jobs : ∃ new, (∀ j ∈ held ++ new, j.kind.control?.isSome = true) ∧
    held ++ new = done ++ (o.inHand ++ o.writer.deferred)

/-- How far the writer has come. When `lack` bytes of the open frame were to come, the jobs in
`held` were held back; then `parts` of the frame were written, and behind these other jobs. -/
inductive Clears (held : List Job) (lack : Nat) (o : Outgoing) (parts : List Job) :
    List Job → Prop where
  | waiting (h : Waiting held o) : Clears held lack o parts []
  | abandoned (hs : o.writer.state = .stopped) : Clears held lack o parts []
  | draining (done : List Job) (hload : Job.load parts = lack) (h : Draining held o done) :
      Clears held lack o parts done
  | cleared (done : List Job) (hload : Job.load parts = lack)
      (hall : Job.uptoClose held <+: done) : Clears held lack o parts done
  | cutShort (done : List Job) (hload : Job.load parts = lack)
      (hs : o.writer.state = .stopped) (hno : ∀ j ∈ done, j.kind ≠ .close)
      (hfront : done <+: Job.uptoClose held) : Clears held lack o parts done

/-- What has been written since the jobs in `front` had been. -/
structure Since (front held : List Job) (lack : Nat) (o : Outgoing) (parts done : List Job) :
    Prop where
  written : o.written = front ++ (parts ++ done)
  further : ∀ j ∈ parts, j.kind = .continuation
  stage : Clears held lack o parts done

def Lacks (masked : Bool) (fits : Nat → Nat → Prop) (front : List Job) (lack : Nat) : Prop :=
  ∀ f, Laid masked fits front f → f.remaining = lack

variable {front held parts done : List Job} {lack : Nat} {j : Job}

theorem Lacks.load (h : Lacks masked fits front lack) (hk : ∀ j ∈ parts, j.kind = .continuation)
    {g : OutgoingFrame} (hlaid : Laid masked fits (front ++ parts) g) :
    Job.load parts + g.remaining = lack := by
  obtain ⟨f, hfront, htrail⟩ := hlaid.split
  rw [← h f hfront]
  exact htrail.remaining hk

theorem Waiting.kind (h : Waiting held o) (hs : o.Sound masked fits) {u : Bytes}
    (hsend : o.writer.state = .sending j u) : j.kind = .continuation := by
  obtain ⟨f, g, hf, -, -, hbetween⟩ := hs.sending hsend
  by_contra hne
  exact hf.open_iff.mp h.frameOpen (hbetween hne)

theorem Draining.of_same (h : Draining held o done) (hrun : o'.writer.state ≠ .stopped)
    (hsent : o'.writer.closeSent = o.writer.closeSent)
    (hopen : o'.writer.frameOpen = o.writer.frameOpen)
    (hjobs : o'.inHand ++ o'.writer.deferred = o.inHand ++ o.writer.deferred) :
    Draining held o' done :=
  ⟨hrun, hsent.trans h.unsent, hopen.trans h.frameDone, h.noClose, hjobs ▸ h.jobs⟩

theorem Draining.control (h : Draining held o done) (hj : j ∈ o.inHand) :
    j.kind.control?.isSome = true := by
  obtain ⟨new, hcontrol, hjobs⟩ := h.jobs
  exact hcontrol j (by simp [hjobs, hj])

theorem Draining.compare (h : Draining held o done) :
    done <+: Job.uptoClose held ∨ Job.uptoClose held <+: done := by
  obtain ⟨new, -, hjobs⟩ := h.jobs
  exact Job.uptoClose_compare (hjobs ▸ List.prefix_append _ _) h.noClose
    (List.prefix_append held new)

theorem Draining.all (h : Draining held o done) (hidle : o.writer.state = .idle)
    (hnone : o.writer.deferred = []) : Job.uptoClose held <+: done := by
  obtain ⟨new, -, hjobs⟩ := h.jobs
  rw [inHand_idle hidle, hnone, List.append_nil, List.append_nil] at hjobs
  exact (Job.uptoClose_prefix held).trans (hjobs ▸ List.prefix_append held new)

theorem Draining.all_of_close (h : Draining held o done) {u : Bytes}
    (hsend : o.writer.state = .sending j u) (hk : j.kind = .close) :
    Job.uptoClose held <+: done ++ [j] := by
  obtain ⟨new, -, hjobs⟩ := h.jobs
  rw [inHand_sending hsend] at hjobs
  rw [← Job.uptoClose_close h.noClose hk o.writer.deferred]
  exact hjobs ▸ Job.uptoClose_mono held new

theorem Draining.write (h : Draining held o done) (hs : o.Sound masked fits) {u : Bytes}
    (hsend : o.writer.state = .sending j u) (hk : j.kind ≠ .close) :
    Draining held (o.complete j) (done ++ [j]) := by
  have hcontrol := h.control (j := j) (by simp [inHand_sending hsend])
  obtain ⟨f, g, -, hfollows, -⟩ := hs.sending hsend
  obtain ⟨new, hall, hjobs⟩ := h.jobs
  refine ⟨WriterState.noConfusion, h.unsent, ?_, ?_, new, hall, ?_⟩
  · simp [complete, hfollows.owed_of_control hcontrol]
  · intro i hi
    rcases List.mem_append.mp hi with hi | hi
    · exact h.noClose i hi
    · rwa [List.mem_singleton.mp hi]
  · rw [hjobs, inHand_sending hsend, inHand_idle (state_complete o j), List.append_assoc]
    rfl

theorem Since.same (h : Since front held lack o parts done) (hw : o'.written = o.written)
    (hstage : Clears held lack o' parts done) : Since front held lack o' parts done :=
  ⟨hw.trans h.written, h.further, hstage⟩

theorem Since.snoc (h : Since front held lack o parts done) (hw : o'.written = o.written ++ [j])
    (hstage : Clears held lack o' parts (done ++ [j])) :
    Since front held lack o' parts (done ++ [j]) := by
  refine ⟨?_, h.further, hstage⟩
  rw [hw, h.written]
  simp

theorem Since.snoc_part (h : Since front held lack o parts []) (hs' : o'.Sound masked fits)
    (hlack : Lacks masked fits front lack) (hk : j.kind = .continuation)
    (hw : o'.written = o.written ++ [j]) (hidle : o'.writer.state = .idle)
    (hsent : o'.writer.closeSent = false) (hfront : held <+: o'.writer.deferred) :
    Since front held lack o' (parts ++ [j]) [] := by
  have hrun : o'.writer.state ≠ .stopped := by simp [hidle]
  have hwritten : o'.written = front ++ (parts ++ [j]) := by
    rw [hw, h.written, List.append_nil, List.append_assoc]
  have hparts : ∀ i ∈ parts ++ [j], i.kind = .continuation := by
    intro i hi
    rcases List.mem_append.mp hi with hi | hi
    · exact h.further i hi
    · rwa [List.mem_singleton.mp hi]
  refine ⟨by rw [hwritten, List.append_nil], hparts, ?_⟩
  obtain ⟨g, hg⟩ := hs'.flowing hrun hsent
  cases hopen : o'.writer.frameOpen with
  | true => exact .waiting ⟨hrun, hsent, hopen, hfront⟩
  | false =>
    have hdone := hg.closed_iff.mp hopen
    have hlaid := hg.laid
    rw [hwritten] at hlaid
    have hload := hlack.load hparts hlaid
    obtain ⟨new, hnew⟩ := hfront
    refine .draining [] (by omega) ⟨hrun, hsent, hopen, List.forall_mem_nil _, new, ?_, ?_⟩
    · rw [hnew]
      exact fun i hi => (hg.deferred i hi).1
    · rw [hnew, inHand_idle hidle]
      rfl

theorem Since.move_waiting (h : Since front held lack o parts []) (hwait : Waiting held o)
    (hs : o.Sound masked fits) (hlack : Lacks masked fits front lack) (hm : Move masked fits o o') :
    ∃ parts' done', Since front held lack o' parts' done' := by
  have hs' := hs.move hm
  have hkind : ∀ {j u}, o.writer.state = .sending j u → j.kind = .continuation := hwait.kind hs
  obtain ⟨hrun, hsent, hopen, hfront⟩ := hwait
  cases hm with
  | enter | shut => exact ⟨parts, [], h.same rfl (.waiting ⟨hrun, hsent, hopen, hfront⟩)⟩
  | takeHeld j rest _ _ _ hf => exact absurd (hf.symm.trans hopen) Bool.false_ne_true
  | takeNew | put =>
    exact ⟨parts, [], h.same rfl (.waiting ⟨WriterState.noConfusion, hsent, hopen, hfront⟩)⟩
  | hold j rest =>
    have hmore := hfront.trans (List.prefix_append o.writer.deferred [j])
    exact ⟨parts, [], h.same rfl (.waiting ⟨hrun, hsent, hopen, hmore⟩)⟩
  | dropHeld j rest _ _ hc | dropNew j rest _ _ hc =>
    exact absurd (hsent.symm.trans hc) Bool.false_ne_true
  | write j _ hsend =>
    exact ⟨parts ++ [j], [], h.snoc_part hs' hlack (hkind hsend) (written_complete o j)
      (state_complete o j) hsent hfront⟩
  | writeClose j _ hsend hl hk => cases (hkind hsend).symm.trans hk
  | writeLast j _ hsend hl => cases (hkind hsend).symm.trans (hs.kind_of_last hsend hl)
  | fail j | cut j =>
    exact ⟨parts, [], h.same (written_stop_settle o j (by simp)) (.abandoned rfl)⟩
  | stop => exact ⟨parts, [], h.same (written_stop o) (.abandoned rfl)⟩

theorem Since.move_draining (h : Since front held lack o parts done)
    (hload : Job.load parts = lack) (hdrain : Draining held o done) (hs : o.Sound masked fits)
    (hm : Move masked fits o o') : ∃ parts' done', Since front held lack o' parts' done' := by
  -- a writer that ends has written the front of what was held back, or all of it
  have hcut : ∀ {o''}, o''.written = o.written → o''.writer.state = .stopped →
      ∃ parts' done', Since front held lack o'' parts' done' := by
    intro o'' hw hstopped
    refine ⟨parts, done, h.same hw ?_⟩
    rcases hdrain.compare with hfront | hall
    · exact .cutShort done hload hstopped hdrain.noClose hfront
    · exact .cleared done hload hall
  cases hm with
  | enter | shut =>
    exact ⟨parts, done, h.same rfl (.draining done hload
      (hdrain.of_same hdrain.running rfl rfl rfl))⟩
  | takeHeld j rest _ hidle _ _ hd =>
    refine ⟨parts, done, h.same rfl (.draining done hload
      (hdrain.of_same WriterState.noConfusion rfl rfl ?_))⟩
    rw [inHand_idle hidle, hd]
    rfl
  | takeNew j rest _ hidle _ hd =>
    have hnone : o.writer.deferred = [] :=
      hd.resolve_left fun hf => absurd (hdrain.frameDone.symm.trans hf) Bool.false_ne_true
    exact ⟨parts, done, h.same rfl (.cleared done hload (hdrain.all hidle hnone))⟩
  | hold j rest _ _ _ hf => exact absurd (hdrain.frameDone.symm.trans hf) Bool.false_ne_true
  | dropHeld j rest _ _ hc | dropNew j rest _ _ hc =>
    exact absurd (hdrain.unsent.symm.trans hc) Bool.false_ne_true
  | put j front rest _ hsend =>
    refine ⟨parts, done, h.same rfl (.draining done hload
      (hdrain.of_same WriterState.noConfusion rfl rfl ?_))⟩
    rw [inHand_sending hsend]
    rfl
  | write j _ hsend _ hk =>
    exact ⟨parts, _, h.snoc (written_complete o j) (.draining _ hload (hdrain.write hs hsend hk))⟩
  | writeClose j _ hsend _ hk =>
    exact ⟨parts, _, h.snoc (written_abort_complete o j)
      (.cleared _ hload (hdrain.all_of_close hsend hk))⟩
  | writeLast j _ hsend hl =>
    exact ⟨parts, _, h.snoc (written_abort_complete o j)
      (.cleared _ hload (hdrain.all_of_close hsend (hs.kind_of_last hsend hl)))⟩
  | fail j | cut j => exact hcut (written_stop_settle o j (by simp)) rfl
  | stop => exact hcut (written_stop o) rfl

theorem Move.written_prefix (hm : Move masked fits o o') : o.written <+: o'.written :=
  (hm.completions_prefix.filter _).map _

theorem Move.written_of_stopped (hm : Move masked fits o o') (hs : o.writer.state = .stopped) :
    o'.written = o.written ∧ o'.writer.state = .stopped := by
  cases hm with
  | enter j f keys hj => exact absurd hs hj.running
  | shut => exact ⟨rfl, hs⟩
  | takeHeld _ _ _ hidle | takeNew _ _ _ hidle | hold _ _ _ hidle | dropHeld _ _ _ hidle
  | dropNew _ _ _ hidle | stop hidle => cases hs.symm.trans hidle
  | put _ _ _ _ hsend | write _ _ hsend | writeClose _ _ hsend | writeLast _ _ hsend
  | fail _ _ _ _ hsend | cut _ _ _ hsend => cases hs.symm.trans hsend

theorem Since.move (h : Since front held lack o parts done) (hs : o.Sound masked fits)
    (hlack : Lacks masked fits front lack) (hm : Move masked fits o o') :
    ∃ parts' done', Since front held lack o' parts' done' := by
  cases h.stage with
  | waiting hwait => exact h.move_waiting hwait hs hlack hm
  | abandoned hstopped =>
    obtain ⟨hw, hstopped⟩ := hm.written_of_stopped hstopped
    exact ⟨parts, [], h.same hw (.abandoned hstopped)⟩
  | draining _ hload hdrain => exact h.move_draining hload hdrain hs hm
  | cleared _ hload hall =>
    obtain ⟨more, hmore⟩ := hm.written_prefix
    refine ⟨parts, done ++ more, ?_, h.further,
      .cleared _ hload (hall.trans (List.prefix_append _ _))⟩
    rw [← hmore, h.written]
    simp
  | cutShort _ hload hstopped hno hfront =>
    obtain ⟨hw, hstopped⟩ := hm.written_of_stopped hstopped
    exact ⟨parts, done, h.same hw (.cutShort done hload hstopped hno hfront)⟩

/-! What is to be seen of it. -/

theorem Since.complete (h : Since front held lack o parts done) (hne : done ≠ []) :
    Job.load parts = lack := by
  cases h.stage with
  | waiting | abandoned => exact absurd rfl hne
  | draining _ hload | cleared _ hload | cutShort _ hload => exact hload

theorem Since.order (h : Since front held lack o parts done) :
    done <+: Job.uptoClose held ∨ Job.uptoClose held <+: done := by
  cases h.stage with
  | waiting | abandoned => exact .inl List.nil_prefix
  | draining _ _ hdrain => exact hdrain.compare
  | cleared _ _ hall => exact .inr hall
  | cutShort _ _ _ _ hfront => exact .inl hfront

/-- A close frame goes out as the last of what was held back. -/
theorem Since.all_of_close (h : Since front held lack o parts done)
    (hfront : ∀ j ∈ front, j.kind ≠ .close) (hj : j ∈ o.written) (hk : j.kind = .close) :
    Job.load parts = lack ∧ Job.uptoClose held <+: done := by
  rw [h.written, List.mem_append, List.mem_append] at hj
  have hmem : j ∈ done := by
    rcases hj with hj | hj | hj
    · exact absurd hk (hfront j hj)
    · cases (h.further j hj).symm.trans hk
    · exact hj
  cases h.stage with
  | waiting | abandoned => cases hmem
  | draining _ _ hdrain => exact absurd hk (hdrain.noClose j hmem)
  | cleared _ hload hall => exact ⟨hload, hall⟩
  | cutShort _ _ _ hno => exact absurd hk (hno j hmem)

theorem Since.remaining_of_owed (h : Since front held lack o parts []) {f : OutgoingFrame}
    (hlaid : Laid masked fits o.written f) (hj : j ∈ parts) (howed : j.owed = 0) :
    f.remaining = 0 := by
  obtain ⟨before, behind, rfl⟩ := List.append_of_mem hj
  rw [h.written, List.append_nil, List.append_cons before, ← List.append_assoc,
    ← List.append_assoc] at hlaid
  obtain ⟨g, hlaid, htrail⟩ := hlaid.split
  obtain ⟨-, f', -, hfollows, hbetween⟩ := hlaid.of_concat
  have hzero := hfollows.owed_eq hbetween
  have := htrail.remaining fun i hi => h.further i (by simp [hi])
  omega

end Outgoing

namespace Endpoint

variable {ok : Event → Prop} {fits : Nat → Nat → Prop} {e d : Endpoint} {past : List Endpoint}

/-! An end at ease. -/

theorem flowsFrom_of_waits (hsend : e.Sending fits) (hidle : e.writer.state = .idle)
    (hqueue : e.outbox.queue = []) (hsent : e.writer.closeSent = false) :
    Outgoing.FlowsFrom e.masks fits e.outgoing e.outbox.frame := by
  obtain ⟨f, hf⟩ := hsend.flowing (by rw [show e.outgoing.writer.state = _ from hidle]; simp) hsent
  have htrail := hf.trail_idle hidle
  rw [show e.outgoing.outbox.queue = [] from hqueue] at htrail
  have : f = e.outbox.frame := by
    generalize hframe : e.outgoing.outbox.frame = frame at htrail
    cases htrail
    exact hframe.symm
  exact this ▸ hf

/-- All jobs settled have been written while the writer goes on and no close frame has been sent. -/
theorem jobs_settled (hsend : e.Sending fits) (hrun : e.writer.state ≠ .stopped)
    (hsent : e.writer.closeSent = false) : e.ended.map (·.job) = e.written := by
  rw [show e.ended = e.outgoing.completions from rfl, hsend.all_written hrun hsent, List.map_map]
  exact List.map_id _

namespace AtEase

variable (h : AtEase e) (hsend : e.Sending fits)

include h hsend

theorem waits : e.writer.state = .idle ∧ e.outbox.queue = [] ∧
    (e.writer.frameOpen = true ∨ e.writer.deferred = []) :=
  idle_of_waits hsend h.opened h.quota (waits_of_tick h.rest).2.1

theorem outstanding : e.outstanding = e.writer.deferred := by
  obtain ⟨hidle, hqueue, -⟩ := h.waits hsend
  rw [Endpoint.outstanding, Outgoing.held_idle hidle, show e.outgoing.outbox.queue = [] from hqueue,
    List.append_nil]
  rfl

theorem cleared (hdone : e.outbox.frame.remaining = 0) : Cleared e := by
  obtain ⟨hidle, hqueue, hdeferred⟩ := h.waits hsend
  have hnone : e.outstanding = [] := by
    rw [h.outstanding hsend]
    cases hsent : e.writer.closeSent with
    | true => exact (hsend.phased.spent hsent).1
    | false =>
      have hflows := flowsFrom_of_waits hsend hidle hqueue hsent
      exact hdeferred.resolve_left fun hopen => hflows.open_iff.mp hopen hdone
  exact ⟨resolved_of_outstanding hsend hnone, hnone, pending_of_outstanding hsend hnone⟩

theorem wire : e.transport.wire.toList = e.written.flatMap Job.bytes :=
  Outgoing.Sound.wire_of_idle hsend (h.waits hsend).1

theorem flows (hsealed : e.outgoing.Sealed) (hopen : e.outbox.frame.remaining ≠ 0) :
    e.writer.closeSent = false ∧
      Outgoing.FlowsFrom e.masks fits e.outgoing e.outbox.frame := by
  obtain ⟨hidle, hqueue, -⟩ := h.waits hsend
  have hsent : e.writer.closeSent = false :=
    Bool.eq_false_iff.mpr fun hsent => hopen (hsealed.frame hsent)
  exact ⟨hsent, flowsFrom_of_waits hsend hidle hqueue hsent⟩

theorem heldUp (hsealed : e.outgoing.Sealed) {heldBack : Job → Prop}
    (hordered : e.outgoing.Ordered heldBack) (hopen : e.outbox.frame.remaining ≠ 0) :
    HeldUp e := by
  obtain ⟨hsent, hf⟩ := h.flows hsend hsealed hopen
  have hcontrol : ∀ j ∈ e.outstanding, j.kind.control?.isSome = true := by
    rw [h.outstanding hsend]
    exact fun j hj => (hf.deferred j hj).1
  refine ⟨?_, hcontrol, ?_, ?_, h.wire hsend⟩
  · intro k hk
    obtain ⟨j, hj, rfl⟩ := List.mem_map.mp ((hsend.slotted.busy k).mp (List.mem_filter.mp hk).2)
    exact JobKind.isSome_control?.mp (hcontrol j hj)
  · rw [Outgoing.Ordered, Outgoing.lineUp] at hordered
    refine List.Pairwise.imp_of_mem ?_ (List.pairwise_append.mp hordered).2.1
    rintro i j hi - (hlt | ⟨hk, -⟩)
    · exact hlt
    · have := hcontrol i hi
      rw [hk] at this
      cases this
  · intro j hj hk
    rw [← jobs_settled hsend (by simp [(h.waits hsend).1]) hsent]
    refine (List.mem_append.mp hj).resolve_right fun hj => ?_
    have := hcontrol j hj
    rcases hk with hk | hk <;> rw [hk] at this <;> cases this

end AtEase

theorem Run.sealed (h : Run ok (e :: past)) (hok : ∀ c, ok (.write c) → c.Within fits) :
    e.outgoing.Sealed := by
  refine Run.lift (P := fun _ _ o => o.Sealed) ?_ (fun _ _ _ _ => id) ?_ hok h
  · refine fun _ _ => ⟨List.forall_mem_nil _, .nil, fun hsent => ?_⟩
    cases hsent
  · exact fun _ _ _ _ hs _ hm hp => hp.move hs hm

/-! What follows when a frame is open. -/

theorem all_of_caughtUp (hsend : e.Sending fits) {parts done : List Job}
    (h : e.outgoing.Since d.written d.outstanding d.outbox.frame.remaining parts done)
    (hold : ∀ j ∈ d.written, j.serial < d.outbox.nextSerial ∧ j.kind ≠ .close)
    (hcompleted : Completed d e) (hcaught : CaughtUp e) :
    Job.load parts = d.outbox.frame.remaining ∧ Job.uptoClose d.outstanding <+: done := by
  cases hclosed : e.life.closed with
  | true =>
    -- the job that has closed the connection brings a close frame, so it is one of those held back
    obtain ⟨j, hj, hl⟩ := hcaught.closed hclosed
    obtain ⟨part, tail, f, -, hlaid, -⟩ := hsend.wired
    obtain ⟨g, hlaid, -⟩ := hlaid.split
    exact h.all_of_close (fun i hi => (hold i hi).2) hj (hlaid.kind_of_last j hj hl)
  | false =>
    obtain ⟨hidle, hqueue, hdeferred⟩ := idle_of_waits hsend hclosed hcaught.quota hcaught.waits
    have hrun : e.writer.state ≠ .stopped := by simp [hidle]
    cases h.stage with
    | waiting hwait =>
      have hf := flowsFrom_of_waits hsend hidle hqueue hwait.unsent
      obtain ⟨j, hj, hk, howed, hserial⟩ := hcompleted
      have hended : j ∈ e.written := by
        rw [← jobs_settled hsend hrun hwait.unsent]
        refine (List.mem_append.mp hj).resolve_right fun hj => ?_
        rw [Outgoing.held_idle hidle, show e.outgoing.outbox.queue = [] from hqueue,
          List.append_nil] at hj
        have := (hf.deferred j hj).1
        rw [hk] at this
        cases this
      have hpart : j ∈ parts := by
        rw [written, h.written, List.append_nil, List.mem_append] at hended
        refine hended.resolve_left fun hj => ?_
        have := (hold j hj).1
        omega
      have hdone := h.remaining_of_owed hf.laid hpart howed
      exact absurd hdone (hf.open_iff.mp hwait.frameOpen)
    | abandoned hs | cutShort _ _ hs => exact absurd hs hrun
    | draining _ hload hdrain =>
      refine ⟨hload, hdrain.all hidle (hdeferred.resolve_left fun hf => ?_)⟩
      exact absurd (hdrain.frameDone.symm.trans hf) Bool.false_ne_true
    | cleared _ hload hall => exact ⟨hload, hall⟩

theorem AtEase.since (h : AtEase d) (hsend : d.Sending fits) (hsealed : d.outgoing.Sealed)
    (hopen : d.outbox.frame.remaining ≠ 0) :
    d.outgoing.Since d.written d.outstanding d.outbox.frame.remaining [] [] ∧
      Outgoing.Lacks d.masks fits d.written d.outbox.frame.remaining ∧
      ∀ j ∈ d.written, j.serial < d.outbox.nextSerial ∧ j.kind ≠ .close := by
  obtain ⟨hsent, hf⟩ := h.flows hsend hsealed hopen
  refine ⟨⟨(List.append_nil _).symm, List.forall_mem_nil _, .waiting ⟨?_, hsent, ?_, ?_⟩⟩,
    fun g hg => hg.remaining_unique hf.laid, fun j hj => ⟨?_, hf.noClose j hj⟩⟩
  · rw [show d.outgoing.writer.state = _ from (h.waits hsend).1]
    exact WriterState.noConfusion
  · rw [hf.opened]
    exact decide_eq_true (Nat.pos_of_ne_zero hopen)
  · rw [h.outstanding hsend]
    exact List.prefix_rfl
  · refine hsend.numbered.lt (List.mem_append_left _ ?_)
    exact List.mem_map_of_mem (Outgoing.mem_written.mp hj)

theorem Run.resumes (h : Run ok (e :: past)) (hok : ∀ c, ok (.write c) → c.Within fits)
    (hd : d ∈ e :: past) (hease : AtEase d) (hopen : d.outbox.frame.remaining ≠ 0) :
    ∃ parts more, Resumes d e parts more ∧ (Completed d e → CaughtUp e →
      Job.load parts = d.outbox.frame.remaining ∧ Job.uptoClose d.outstanding <+: more) := by
  obtain ⟨earlier, hrun⟩ := h.of_mem hd
  have hsend := (hrun.inOrder hok).sending
  obtain ⟨hstart, hlack, hold⟩ := hease.since hsend (hrun.sealed hok) hopen
  have hthen : e.outgoing.Sound d.masks fits ∧ ∃ parts done,
      e.outgoing.Since d.written d.outstanding d.outbox.frame.remaining parts done := by
    refine h.carry (P := fun o => o.Sound d.masks fits ∧ ∃ parts done,
      o.Since d.written d.outstanding d.outbox.frame.remaining parts done) hok hd
      ⟨hsend, [], [], hstart⟩ ?_
    rintro o o' hs hm ⟨-, parts, done, hsince⟩
    exact ⟨hs.move hm, hsince.move hs hlack hm⟩
  obtain ⟨hsound, parts, done, hsince⟩ := hthen
  obtain ⟨part, tail, f, hwire, hlaid, -⟩ := hsound.wired
  have hwritten : e.written = d.written ++ (parts ++ done) := hsince.written
  refine ⟨parts, done, ⟨hwritten, ?_, hsince.further, ?_, hsince.complete, hsince.order⟩,
    all_of_caughtUp (h.inOrder hok).sending hsince hold⟩
  · rw [hease.wire hsend, ← List.flatMap_append, ← hwritten]
    exact ⟨tail, hwire.symm⟩
  · rw [show e.outgoing.written = _ from hwritten, ← List.append_assoc, List.append_assoc] at hlaid
    obtain ⟨g, hlaid, -⟩ := hlaid.split
    have := hlack.load hsince.further hlaid
    omega

/-- In every run no write is stuck. On an open connection at rest, on a stream that takes what it is
given, either nothing waits, or a data frame is open and only control frames wait. When it is
complete these are written right behind it, up to the first close among them. -/
theorem unstuck_of_run (h : Run (fun _ => True) (e :: past)) : Unstuck (e :: past) e := by
  have hok : ∀ c : WriteCall, True → c.Within fun _ _ => True := fun c _ => c.within_any
  have hsend := (h.inOrder hok).sending
  exact ⟨fun hease => hease.cleared hsend,
    fun hease => hease.heldUp hsend (h.sealed hok) (h.ordered hok), fun d => h.resumes hok⟩

/-- A server that holds back a ping and a close behind half a message, and then is given the other
half. -/
theorem unstuck_of_run_held_back :
    ∃ (d e : Endpoint) (past : List Endpoint), Run (fun _ => True) (e :: past) ∧ d ∈ e :: past ∧
      AtEase d ∧ d.outbox.frame.remaining = 2 ∧ d.outstanding.map (·.kind) = [.ping, .close] ∧
      d.transport.wire.toList = [0x82, 0x04, 0x61, 0x62] ∧ Completed d e ∧ CaughtUp e ∧
      e.transport.wire.toList =
        [0x82, 0x04, 0x61, 0x62] ++ [0x63, 0x64] ++ [0x89, 0x00] ++ [0x88, 0x02, 0x03, 0xe8] ∧
      Unstuck (e :: past) e := by
  have h : Run (fun _ => True) [opened .server .none (fun _ => .zero) none none] :=
    .start _ _ _ _ _ fun _ _ => trivial
  -- what follows is computed from the state that the run has come to
  obtain ⟨d, before, hd, hy⟩ := h.handleAll (n := 16)
    (f := fun d => decide (d.tick.isNone = true ∧ d.life.closed = false ∧
      d.transport.quota = none ∧ d.outbox.frame.remaining = 2 ∧ d.outbox.nextSerial = 3 ∧
      d.outstanding.map (·.kind) = [.ping, .close] ∧
      d.transport.wire.toList = [0x82, 0x04, 0x61, 0x62] ∧
      (d.handleAll 16 [.write (.continuation [0x63, 0x64])]).map (fun e =>
        decide (e.writerStep.isNone = true ∧ e.life.closed = false ∧ e.transport.quota = none ∧
          (∃ j ∈ e.outgoing.lineUp, j.kind = .continuation ∧ j.owed = 0 ∧ 3 ≤ j.serial) ∧
          e.transport.wire.toList =
            [0x82, 0x04, 0x61, 0x62, 0x63, 0x64, 0x89, 0x00, 0x88, 0x02, 0x03, 0xe8])) = some true))
    [.write (.firstChunk 4 [0x61, 0x62] true true), .write (.ping []),
      .write (.close .normal "" true)]
    (fun _ _ => trivial) (y := true) (by decide +kernel)
  obtain ⟨hrest, hopened, hquota, hlack, hserial, hkinds, hwire, hthen⟩ := of_decide_eq_true hy
  obtain ⟨e, past, he, hy, hsuffix⟩ := hd.handleAll_onward _ (fun _ _ => trivial) hthen
  obtain ⟨hwaits, hclosed, hquota', hcompleted, hwire'⟩ := of_decide_eq_true hy
  refine ⟨d, e, past, he, hsuffix.subset List.mem_cons_self,
    ⟨Option.isNone_iff_eq_none.mp hrest, hopened, by simp [hquota]⟩, hlack, hkinds, hwire, ?_,
    ⟨Option.isNone_iff_eq_none.mp hwaits, by simp [hquota'], by simp [hclosed]⟩, hwire',
    unstuck_of_run he⟩
  rw [← hserial] at hcompleted
  exact hcompleted

end Endpoint

end WebSocket
