import Mathlib.Data.List.DropRight
import Mathlib.Data.List.Sort
import WebSocket.Proofs.Completions
import WebSocket.Proofs.Delivery.Rows
import WebSocket.Proofs.Wire

/-! What an end has been given to send. The jobs are numbered as they are handed in, so they can be
put into that order again, whatever the writer does with them; and what is on the wire is the front
of what was handed in, for data, pings and pongs each. -/

namespace WebSocket

/-- What jobs say to the other application, if they are sent in this order. -/
def Job.traffic (js : List Job) : Traffic :=
  ⟨marks (false, true) (js.filter isData), (js.filter (·.kind = .ping)).map (·.data),
    (js.filter (·.kind = .pong)).map (·.data)⟩

theorem Job.traffic_mono {js ks : List Job} (h : js <+: ks) : (traffic js).Front (traffic ks) := by
  refine ⟨marks_mono _ (h.filter _), ?_, ?_⟩
  · exact (h.filter _).map _
  · exact (h.filter _).map _

theorem Laid.traffic {masked : Bool} {fits : Nat → Nat → Prop} {js : List Job} {f : OutgoingFrame}
    (h : Laid masked fits js f) : Frame.traffic (Job.frames js) = Job.traffic js := by
  rw [Frame.traffic, Job.traffic, (h.carried (false, true)).marks, h.payloads (k := .ping) rfl,
    h.payloads (k := .pong) rfl]

namespace Outgoing

variable {masked : Bool} {fits : Nat → Nat → Prop} {o o' : Outgoing} {js : List Job}

/-- All jobs in the order in which they were handed in. -/
def handedIn (o : Outgoing) : List Job := o.lineUp.insertionSort fun a b => a.serial ≤ b.serial

theorem handedIn_perm (o : Outgoing) : o.handedIn.Perm o.lineUp := List.perm_insertionSort _ _

theorem Numbered.handedIn_pairwise (h : Numbered o) :
    o.handedIn.Pairwise fun a b => a.serial < b.serial := by
  have hle : o.handedIn.Pairwise fun a b => a.serial ≤ b.serial :=
    haveI : Std.Total fun a b : Job => a.serial ≤ b.serial := ⟨fun a b => Nat.le_total _ _⟩
    haveI : IsTrans Job fun a b => a.serial ≤ b.serial := ⟨fun _ _ _ => Nat.le_trans⟩
    List.pairwise_insertionSort _ _
  have hne : o.handedIn.Pairwise fun a b => a.serial ≠ b.serial := by
    have := ((handedIn_perm o).map (·.serial)).nodup_iff.mpr h.nodup
    exact List.pairwise_map.mp this
  exact hle.imp₂ (fun _ _ => Nat.lt_of_le_of_ne) hne

theorem eq_of_serials {js ks : List Job} (hp : js.Perm ks)
    (hj : js.Pairwise fun a b => a.serial < b.serial)
    (hk : ks.Pairwise fun a b => a.serial < b.serial) : js = ks :=
  List.Perm.eq_of_pairwise (fun _ _ _ _ hab hba => absurd hab (Nat.lt_asymm hba)) hj hk hp

/-- A job that joins the line is the last that was handed in. -/
theorem Numbered.handedIn_join {j : Job} (h : Numbered o) (h' : Numbered o')
    (hl : o'.lineUp = o.lineUp ++ [j]) (hj : j.serial = o.outbox.nextSerial) :
    o'.handedIn = o.handedIn ++ [j] := by
  refine eq_of_serials ?_ h'.handedIn_pairwise ?_
  · apply (handedIn_perm o').trans
    rw [hl]
    exact (handedIn_perm o).symm.append_right [j]
  · refine List.pairwise_append.mpr ⟨h.handedIn_pairwise, List.pairwise_singleton _ _, ?_⟩
    intro a ha b hb
    rw [List.mem_singleton.mp hb, hj]
    exact h.lt ((handedIn_perm o).subset ha)

theorem Numbered.handedIn_enter {j : Job} {f : OutgoingFrame} {keys : Nat} {closing : Bool}
    (h : Numbered o) (hj : Enters masked fits o j f) :
    handedIn { o with outbox := o.outbox.enter j f keys, closing } = o.handedIn ++ [j] := by
  have hl := lineUp_enter o j f keys closing
  exact h.handedIn_join (h.move (.join j hl hj.serial rfl)) hl hj.serial

theorem Numbered.handedIn_perm (h : Numbered o) (h' : Numbered o') (hl : o'.lineUp.Perm o.lineUp) :
    o'.handedIn = o.handedIn :=
  eq_of_serials ((Outgoing.handedIn_perm o').trans (hl.trans (Outgoing.handedIn_perm o).symm))
    h'.handedIn_pairwise h.handedIn_pairwise

theorem LineMove.handedIn_eq (hm : LineMove o o') (h : Numbered o)
    (hn : o'.outbox.nextSerial = o.outbox.nextSerial) : o'.handedIn = o.handedIn := by
  have h' := h.move hm
  cases hm with
  | join j hl hj hnext => omega
  | keep hl => exact h.handedIn_perm h' (by rw [hl])
  | overtake front rest j hs hc hf hk hold hnew =>
    apply h.handedIn_perm h'
    rw [hold, hnew]
    exact List.Perm.append_left front List.perm_middle.symm

theorem LineMove.handedIn_mono (hm : LineMove o o') (h : Numbered o) :
    o.handedIn <+: o'.handedIn := by
  have h' := h.move hm
  have hm' := hm
  cases hm with
  | join j hl hj =>
    rw [h.handedIn_join h' hl hj]
    exact List.prefix_append _ _
  | keep hl hn => exact (hm'.handedIn_eq h hn) ▸ List.prefix_rfl
  | overtake front rest j hs hc hf hk hold hnew hn =>
    exact (hm'.handedIn_eq h hn) ▸ List.prefix_rfl

/-- Jobs of which none overtakes another stand in the line as they were handed in. -/
theorem Ordered.filter_handedIn {heldBack : Job → Prop} {p : Job → Bool}
    (ho : Ordered heldBack o) (h : Numbered o)
    (hp : ∀ a b, p a = true → p b = true → a.kind = .continuation → b.kind.control? = none) :
    o.handedIn.filter p = o.lineUp.filter p := by
  apply eq_of_serials ((Outgoing.handedIn_perm o).filter p) (h.handedIn_pairwise.filter p)
  refine List.Pairwise.imp_of_mem ?_ (List.Pairwise.filter p ho)
  intro a b ha hb hab
  rcases hab with hlt | ⟨hk, hctl, -⟩
  · exact hlt
  · rw [hp a b (List.mem_filter.mp ha).2 (List.mem_filter.mp hb).2 hk] at hctl
    simp at hctl

/-- The line says to the other application what was handed in. -/
theorem Ordered.traffic_handedIn {heldBack : Job → Prop} (ho : Ordered heldBack o)
    (h : Numbered o) : Job.traffic o.handedIn = Job.traffic o.lineUp := by
  rw [Job.traffic, Job.traffic, ho.filter_handedIn h, ho.filter_handedIn h, ho.filter_handedIn h]
  · intro a b ha hb hk
    rw [hk] at ha
    simp at ha
  · intro a b ha hb hk
    rw [hk] at ha
    simp at ha
  · intro a b ha hb hk
    exact Option.isNone_iff_eq_none.mp hb

end Outgoing

namespace Endpoint

variable {ok : Event → Prop} {fits : Nat → Nat → Prop} {e e' : Endpoint} {past : List Endpoint}

/-- What an end has been given to say to the other application. -/
def submitted (e : Endpoint) : Traffic := Job.traffic e.outgoing.handedIn

/-- What was handed in follows on, job by job, and the bookkeeping stands where that leads. -/
def OnTrail (fits : Nat → Nat → Prop) (e : Endpoint) : Prop :=
  Trail e.masks fits .none e.outgoing.handedIn e.outbox.frame

theorem Shift.handedIn_mono (hs : Shift fits e e') (h : e.Sending fits) :
    e.outgoing.handedIn <+: e'.outgoing.handedIn := by
  refine hs.lift (P := fun o => e.outgoing.handedIn <+: o.handedIn) h List.prefix_rfl ?_
  intro o o' hsound hm hpre
  have hline := Outgoing.LineMove.of_move hsound.phased hm.move
  exact hpre.trans (hline.handedIn_mono hsound.numbered)

theorem Shift.trail (hs : Shift fits e e') (h : e.Sending fits) (ht : e.OnTrail fits) :
    e'.OnTrail fits := by
  rw [OnTrail, hs.masks]
  refine hs.lift (P := fun o => Trail e.masks fits .none o.handedIn o.outbox.frame) h ht ?_
  intro o o' hsound hm htrail
  cases hm with
  | enter j f keys hj =>
    rw [hsound.numbered.handedIn_enter hj]
    exact htrail.snoc hj.follows
  | shut => exact htrail

/-- What has been handed in stays so. -/
theorem Step.submitted_front (hs : Step ok e e') (h : e.InOrder fits)
    (hok : ∀ c, ok (.write c) → c.Within fits) : e.submitted.Front e'.submitted := by
  apply Job.traffic_mono
  rcases hs.shift_or h hok with hshift | hw
  · exact hshift.handedIn_mono h.sending
  · have hm : Outgoing.Move e.masks fits e.outgoing e'.outgoing := writerStep_move hw
    exact (Outgoing.LineMove.of_move h.sending.phased hm).handedIn_mono h.sending.numbered

end Endpoint

/-- What a data frame may announce for another end to take it. -/
def HeaderRules.Fits (r : HeaderRules) (n _ : Nat) : Prop :=
  n < HeaderProgress.lengthLimit ∧ n ≤ r.maxFrameSize.toNat

theorem Frame.Fit.admits {rules : HeaderRules} {f : Frame}
    (h : f.Fit rules.role.expectsMasked rules.Fits) : rules.Admits f.header := by
  cases hop : f.header.opcode.isControl with
  | true =>
    obtain ⟨hfin, hwhole, hlen⟩ := h.control hop
    rw [Frame.Whole] at hwhole
    rw [maxControlPayload] at hlen
    refine ⟨h.rsv, h.mask, ?_, ?_⟩
    · rw [HeaderProgress.lengthLimit]
      omega
    · rw [HeaderRules.check, if_pos hop, hfin, if_neg (by simp), if_neg]
      rw [maxControlPayload]
      omega
  | false =>
    obtain ⟨-, hshort, hmax⟩ := h.data hop
    refine ⟨h.rsv, h.mask, hshort, ?_⟩
    rw [HeaderRules.check, if_neg (by simp [hop]), if_neg]
    exact UInt64.not_lt.mpr hmax

theorem Laid.offered {rules : HeaderRules} {js : List Job} {f : OutgoingFrame}
    (h : Laid rules.role.expectsMasked rules.Fits js f) : Frame.Offered rules (Job.frames js) := by
  have hframed := h.framed
  obtain ⟨s, hs, -⟩ := hframed.order
  exact ⟨hframed.ends.row, fun g hg => (hframed.fit g hg).admits, ⟨s, hs⟩,
    fun g hg => (hframed.fit g hg).close⟩

/-- When no first part of a frame fits, no frame is ever open. -/
theorem Trail.unframed {masked : Bool} {js : List Job} {f g : OutgoingFrame}
    (h : Trail masked (fun _ _ => False) f js g) (hf : f = .none) : g = .none := by
  induction h with
  | nil => exact hf
  | cons hj _ ih =>
    subst hf
    cases hj with
    | first _ _ _ _ _ _ _ _ _ _ hfits => exact False.elim hfits
    | further _ _ hopen => exact absurd rfl hopen
    | control => exact ih rfl

namespace Endpoint

variable {ok : Event → Prop} {e : Endpoint} {past : List Endpoint}

/-- The wire is the front of the frames of some jobs, and these carry the front of what was handed
in. -/
theorem Sending.laid_on_wire {fits : Nat → Nat → Prop} {heldBack : Job → Prop}
    (h : e.Sending fits) (ho : e.outgoing.Ordered heldBack) :
    ∃ js f, Laid e.masks fits js f ∧ e.transport.wire.toList <+: Frame.rowBytes (Job.frames js) ∧
      (Frame.traffic (Job.frames js)).Front e.submitted := by
  obtain ⟨js, f, hlaid, hpre, -, hline⟩ := h.jobs_on_wire
  refine ⟨js, f, hlaid, ?_, ?_⟩
  · rw [hlaid.framed.bytes]
    exact hpre
  · rw [hlaid.traffic, submitted, ho.traffic_handedIn h.numbered]
    exact Job.traffic_mono hline

theorem offered_on_wire {rules : HeaderRules} {heldBack : Job → Prop}
    (h : e.Sending rules.Fits) (ho : e.outgoing.Ordered heldBack)
    (hmasks : e.masks = rules.role.expectsMasked) :
    ∃ ws, e.transport.wire.toList <+: Frame.rowBytes ws ∧ Frame.Offered rules ws ∧
      (Frame.traffic ws).Front e.submitted := by
  obtain ⟨js, f, hlaid, hwire, hfront⟩ := h.laid_on_wire ho
  exact ⟨Job.frames js, hwire, (hmasks ▸ hlaid).offered, hfront⟩

theorem Run.trail {fits : Nat → Nat → Prop} (h : Run ok (e :: past))
    (hok : ∀ c, ok (.write c) → c.Within fits) : e.OnTrail fits := by
  refine Run.lift (P := fun _ masked o => Trail masked fits .none o.handedIn o.outbox.frame)
    (fun _ _ => .nil) (fun _ _ _ _ ht => ht) ?_ hok h
  intro states masked o o' hsound _ hm ht
  have hline := Outgoing.LineMove.of_move hsound.phased hm
  cases hm with
  | enter j f keys hj =>
    rw [hsound.numbered.handedIn_enter hj]
    exact ht.snoc hj.follows
  | _ =>
    rw [hline.handedIn_eq hsound.numbered rfl]
    exact ht

end Endpoint

/-! What was handed in whole. -/

def Mark.isByte : Mark → Bool
  | byte .. => true
  | frameEnd .. => false

/-- The part of a traffic that is in whole frames. -/
def Traffic.whole (t : Traffic) : Traffic := { t with marks := t.marks.rdropWhile Mark.isByte }

theorem Mark.isByte_of_bytes {binary : Bool} {b : Bytes} : ∀ m ∈ bytes binary b, m.isByte := by
  intro m hm
  obtain ⟨x, -, rfl⟩ := List.mem_map.mp hm
  rfl

theorem rdropWhile_append_of_all {α : Type} {p : α → Bool} {xs ys : List α}
    (h : ∀ y ∈ ys, p y = true) : (xs ++ ys).rdropWhile p = xs.rdropWhile p := by
  induction ys using List.reverseRecOn with
  | nil => rw [List.append_nil]
  | append_singleton ys y ih =>
    rw [← List.append_assoc, List.rdropWhile_concat_pos _ _ _ (h y (by simp))]
    exact ih fun x hx => h x (by simp [hx])

theorem Job.marks_of_owed {now : Bool × Bool} {js : List Job} (h : ∀ j ∈ js, j.owed ≠ 0) :
    ∀ m ∈ marks now js, m.isByte := by
  induction js generalizing now with
  | nil => exact List.forall_mem_nil _
  | cons j js ih =>
    rw [marks, if_neg (h j (by simp)), List.append_nil]
    intro m hm
    rcases List.mem_append.mp hm with hm | hm
    · exact Mark.isByte_of_bytes m hm
    · exact ih (fun i hi => h i (by simp [hi])) m hm

section

variable {masked : Bool} {fits : Nat → Nat → Prop} {f g : OutgoingFrame} {js ks : List Job}

/-- The whole frames at the front carry all but the bytes of an unfinished frame. -/
theorem Laid.whole_frames (h : Laid masked fits js f) :
    ∃ gs bs, (∀ g ∈ gs, g.Whole ∧ g.header.rsv < 8) ∧ Frame.rowBytes gs <+: js.flatMap Job.bytes ∧
      (∀ m ∈ bs, m.isByte) ∧ Job.traffic js =
        { Frame.traffic gs with marks := Frame.rowMarks false gs ++ bs } := by
  have hframed := h.framed
  have hrsv : ∀ g ∈ Job.frames js, g.header.rsv < 8 := by
    intro g hg
    rw [(hframed.fit g hg).rsv]
    decide
  rw [← h.traffic, ← hframed.bytes]
  have hends := hframed.ends
  generalize Job.frames js = fs at hends hrsv
  cases hends with
  | whole h0 hw => exact ⟨fs, [], fun g hg => ⟨hw g hg, hrsv g hg⟩, List.prefix_rfl,
      List.forall_mem_nil _, by rw [List.append_nil]; rfl⟩
  | @part fs g hne hw hdata hmask hoff hsum =>
    have hpart : ¬ g.Whole := by
      rw [Frame.Whole, hoff]
      omega
    have hcontrol (op : Opcode) (hop : op.isControl = true) : g.header.opcode ≠ op := by
      rintro rfl
      exact absurd (hdata.symm.trans hop) Bool.false_ne_true
    refine ⟨fs, Mark.bytes (g.header.opcode.binaryAfter (Frame.lastBinary false fs)) g.payload,
      fun g hg => ⟨hw g hg, hrsv g (by simp [hg])⟩, ?_, Mark.isByte_of_bytes, ?_⟩
    · rw [Frame.rowBytes_append]
      exact List.prefix_append _ _
    · rw [Frame.traffic, Frame.traffic, Frame.rowMarks_append, Frame.rowMarks_data hdata,
        if_neg hpart, List.append_nil, Frame.payloads_concat, if_neg (hcontrol .ping rfl),
        Frame.payloads_concat, if_neg (hcontrol .pong rfl), List.append_nil, List.append_nil]

theorem Trail.mem (h : Trail masked fits f js g) {j : Job} (hj : j ∈ js) :
    ∃ f' g', Follows masked fits f' j g' := by
  induction h with
  | nil => simp at hj
  | cons hfirst _ ih =>
    rcases List.mem_cons.mp hj with rfl | hj
    · exact ⟨_, _, hfirst⟩
    · exact ih hj

/-- A job that puts nothing on the wire completes no frame. -/
theorem Follows.owed_of_bytes {j : Job} (h : Follows masked fits f j g) (hb : j.bytes = []) :
    j.owed ≠ 0 := by
  cases h with
  | first => simp [Job.bytes, Header.encode] at hb
  | control => simp [Job.bytes, Header.encode] at hb
  | further n data hopen hlen =>
    have hdata : data = [] := by
      have := congrArg List.length hb
      simpa [Job.bytes, Job.payload] using this
    rw [hdata]
    exact hopen

end

namespace Endpoint

variable {fits : Nat → Nat → Prop} {e : Endpoint} {b : Bytes}

/-- All bytes of the frames that were handed in whole are among some bytes: the first jobs are
there, and with them every job that completes a frame. -/
def WholeIn (e : Endpoint) (b : Bytes) : Prop :=
  ∃ js, js <+: e.outgoing.lineUp ∧ js.flatMap Job.bytes <+: b ∧
    ∀ j ∈ e.outgoing.lineUp, j.owed = 0 → j ∈ js

theorem WholeIn.among (hin : e.WholeIn b) {ks : List Job} (hks : ks <+: e.outgoing.lineUp)
    (hb : b <+: ks.flatMap Job.bytes)
    (hfollows : ∀ j ∈ e.outgoing.lineUp, ∃ f g, Follows e.masks fits f j g) :
    ∃ js, js <+: ks ∧ js.flatMap Job.bytes <+: b ∧
      ∀ j ∈ e.outgoing.lineUp, j.owed = 0 → j ∈ js := by
  obtain ⟨js, hjs, hbytes, hall⟩ := hin
  rcases List.prefix_or_prefix_of_prefix hjs hks with hp | ⟨extra, rfl⟩
  · exact ⟨js, hp, hbytes, hall⟩
  · have hnone : extra.flatMap Job.bytes = [] := by
      have := (hbytes.trans hb).length_le
      rw [List.flatMap_append, List.length_append] at this
      exact List.length_eq_zero_iff.mp (by omega)
    refine ⟨ks, List.prefix_rfl, ?_, ?_⟩
    · rwa [List.flatMap_append, hnone, List.append_nil] at hbytes
    · intro j hj howed
      rcases List.mem_append.mp (hall j hj howed) with hm | hm
      · exact hm
      · obtain ⟨f, g, hf⟩ := hfollows j hj
        exact absurd howed (hf.owed_of_bytes (List.flatMap_eq_nil_iff.mp hnone j hm))

theorem Sending.owed_of_rest (h : e.Sending fits) {js rest : List Job}
    (hline : js ++ rest = e.outgoing.lineUp)
    (hall : ∀ j ∈ e.outgoing.lineUp, j.owed = 0 → j ∈ js) : ∀ j ∈ rest, j.owed ≠ 0 := by
  intro j hj howed
  have hnodup := h.numbered.nodup
  rw [← hline, List.map_append] at hnodup
  have hmem := hall j (by rw [← hline]; exact List.mem_append_right _ hj) howed
  exact (List.nodup_append.mp hnodup).2.2 _ (List.mem_map_of_mem hmem) _
    (List.mem_map_of_mem hj) rfl

/-- These bytes begin with whole frames, which carry all that was handed in whole. -/
theorem WholeIn.frames {heldBack : Job → Prop} (hin : e.WholeIn b) (h : e.Sending fits)
    (ho : e.outgoing.Ordered heldBack) (ht : e.OnTrail fits)
    (hb : b <+: e.transport.wire.toList) :
    ∃ gs, (∀ g ∈ gs, g.Whole ∧ g.header.rsv < 8) ∧ Frame.rowBytes gs <+: b ∧
      e.submitted.whole.Front (Frame.traffic gs) := by
  obtain ⟨ks, f, hlaid, hwire, -, hks⟩ := h.jobs_on_wire
  have hfollows : ∀ j ∈ e.outgoing.lineUp, ∃ f' g', Follows e.masks fits f' j g' := fun j hj =>
    ht.mem ((Outgoing.handedIn_perm _).symm.subset hj)
  obtain ⟨js, hjs, hbytes, hall⟩ := hin.among hks (hb.trans hwire) hfollows
  obtain ⟨rest, hline⟩ := hjs.trans hks
  obtain ⟨_, rfl⟩ := hjs
  obtain ⟨g, hlaid, -⟩ := hlaid.split
  obtain ⟨gs, bs, hgs, hrow, hbs, htraffic⟩ := hlaid.whole_frames
  refine ⟨gs, hgs, hrow.trans hbytes, ?_⟩
  -- the jobs behind these complete no frame, so they bring no control frame and no end of one
  have hrest := h.owed_of_rest hline hall
  have hcontrol : ∀ k : JobKind, k.control?.isSome = true →
      e.outgoing.lineUp.filter (·.kind = k) = js.filter (·.kind = k) := by
    intro k hk
    have hnone : rest.filter (·.kind = k) = [] := by
      apply List.filter_eq_nil_iff.mpr
      intro j hj hjk
      obtain ⟨f', g', hf⟩ := hfollows j (by rw [← hline]; exact List.mem_append_right _ hj)
      rw [decide_eq_true_eq] at hjk
      exact hrest j hj (hf.owed_of_control (by rw [hjk, hk]))
    rw [← hline, List.filter_append, hnone, List.append_nil]
  obtain ⟨hmarks, hpings, hpongs⟩ := Traffic.mk.inj htraffic
  rw [submitted, ho.traffic_handedIn h.numbered]
  refine ⟨?_, ?_, ?_⟩
  · show (Job.marks (false, true) (e.outgoing.lineUp.filter Job.isData)).rdropWhile Mark.isByte <+:
      Frame.rowMarks false gs
    rw [← hline, List.filter_append, Job.marks_append, hmarks,
      rdropWhile_append_of_all (Job.marks_of_owed fun j hj => hrest j (List.mem_filter.mp hj).1),
      rdropWhile_append_of_all hbs]
    exact List.rdropWhile_prefix _ _
  · show (e.outgoing.lineUp.filter (·.kind = .ping)).map _ <+: Frame.payloads .ping gs
    rw [hcontrol .ping rfl, hpings]
    exact List.prefix_rfl
  · show (e.outgoing.lineUp.filter (·.kind = .pong)).map _ <+: Frame.payloads .pong gs
    rw [hcontrol .pong rfl, hpongs]
    exact List.prefix_rfl

end Endpoint

end WebSocket
