import Mathlib.Data.List.Induction
import WebSocket.Endpoint.State
import WebSocket.Proofs.Frame

/-! Jobs in a row and the frames that they make up. A row of jobs that is fit for the wire makes
frames which are whole, but for the last, and stand in the right order; and the bytes of the jobs
are the bytes of the frames. -/

namespace WebSocket

def JobKind.control? : JobKind → Option Opcode
  | ping => some .ping
  | pong => some .pong
  | close => some .close
  | message | continuation => none

theorem JobKind.isControl_of_control? {k : JobKind} {op : Opcode} (h : k.control? = some op) :
    op.isControl = true := by
  cases k <;> cases h <;> rfl

theorem JobKind.isSome_control? {k : JobKind} :
    k.control?.isSome = true ↔ k = .ping ∨ k = .pong ∨ k = .close := by
  cases k <;> simp [control?]

theorem JobKind.control?_eq_close {k : JobKind} {op : Opcode} (h : k.control? = some op) :
    op = .close ↔ k = .close := by
  cases k <;> cases h <;> simp

def OutgoingFrame.Starts (f : OutgoingFrame) (op : Opcode) : Prop :=
  if f.messageOpen then op = .continuation else op.isData = true

/-- The jobs that may be handed in while the bookkeeping stands at a given point, and where it
stands after them. What a data frame announces `fits` what comes with it. -/
inductive Follows (masked : Bool) (fits : Nat → Nat → Prop) :
    OutgoingFrame → Job → OutgoingFrame → Prop where
  | first {f : OutgoingFrame} (n : Nat) (fin : Bool) (op : Opcode) (len : UInt64)
      (key : Option Key) (data : Bytes) (hdone : f.remaining = 0) (hop : f.Starts op)
      (hkey : key.isSome = masked) (hlen : data.length ≤ len.toNat)
      (hfits : fits len.toNat data.length) :
      Follows masked fits f
        ⟨n, .message, some (.plain fin op len key), data, key, 0, len.toNat - data.length, false⟩
        ⟨len.toNat - data.length, data.length, key, !fin⟩
  | further {f : OutgoingFrame} (n : Nat) (data : Bytes) (hopen : f.remaining ≠ 0)
      (hlen : data.length ≤ f.remaining) :
      Follows masked fits f
        ⟨n, .continuation, none, data, f.mask, f.offset, f.remaining - data.length, false⟩
        { f with remaining := f.remaining - data.length, offset := f.offset + data.length }
  | control {f : OutgoingFrame} (n : Nat) (kind : JobKind) (op : Opcode) (key : Option Key)
      (data : Bytes) (last : Bool) (hop : kind.control? = some op) (hkey : key.isSome = masked)
      (hlen : data.length ≤ maxControlPayload) (hlast : last = true → kind = .close)
      (hclose : kind = .close → ∃ p, ClosePayload.parse data = .ok p) :
      Follows masked fits f
        ⟨n, kind, some (.plain true op data.length.toUInt64 key), data, key, 0, 0, last⟩ f

/-- Jobs that follow each other, control jobs standing anywhere. -/
inductive Trail (masked : Bool) (fits : Nat → Nat → Prop) :
    OutgoingFrame → List Job → OutgoingFrame → Prop where
  | nil {f : OutgoingFrame} : Trail masked fits f [] f
  | cons {f g h : OutgoingFrame} {j : Job} {js : List Job} (hj : Follows masked fits f j g)
      (hs : Trail masked fits g js h) : Trail masked fits f (j :: js) h

/-- Jobs on the wire: control jobs stand between whole frames, and nothing follows a close. -/
inductive Laid (masked : Bool) (fits : Nat → Nat → Prop) : List Job → OutgoingFrame → Prop where
  | nil : Laid masked fits [] .none
  | snoc {f g : OutgoingFrame} {js : List Job} {j : Job} (hs : Laid masked fits js f)
      (hj : Follows masked fits f j g) (hbetween : j.kind ≠ .continuation → f.remaining = 0)
      (hclose : ∀ i ∈ js, i.kind ≠ .close) : Laid masked fits (js ++ [j]) g

def Job.load (js : List Job) : Nat := (js.flatMap (·.data)).length

section

variable {masked : Bool} {fits : Nat → Nat → Prop} {f g h : OutgoingFrame} {j : Job} {js : List Job}

theorem Trail.snoc (hs : Trail masked fits f js g) (hj : Follows masked fits g j h) :
    Trail masked fits f (js ++ [j]) h := by
  induction hs with
  | nil => exact .cons hj .nil
  | cons hi _ ih => exact .cons hi (ih hj)

theorem Follows.control_iff (hj : Follows masked fits f j g) (hc : j.kind.control?.isSome) :
    f = g ∧ ∀ f', Follows masked fits f' j f' := by
  cases hj with
  | first => simp [JobKind.control?] at hc
  | further => simp [JobKind.control?] at hc
  | control n kind op key data last h1 h2 h3 h4 h5 =>
    exact ⟨rfl, fun f' => .control n kind op key data last h1 h2 h3 h4 h5⟩

theorem Follows.mono {fits' : Nat → Nat → Prop} (hfits : ∀ n k, fits n k → fits' n k)
    (hj : Follows masked fits f j g) : Follows masked fits' f j g := by
  cases hj with
  | first n fin op len key data h1 h2 h3 h4 h5 =>
    exact .first n fin op len key data h1 h2 h3 h4 (hfits _ _ h5)
  | further n data h1 h2 => exact .further n data h1 h2
  | control n kind op key data last h1 h2 h3 h4 h5 =>
    exact .control n kind op key data last h1 h2 h3 h4 h5

theorem Laid.mono {fits' : Nat → Nat → Prop} (hfits : ∀ n k, fits n k → fits' n k)
    (h : Laid masked fits js f) : Laid masked fits' js f := by
  induction h with
  | nil => exact .nil
  | snoc _ hj hbetween hclose ih => exact .snoc ih (hj.mono hfits) hbetween hclose

/-- Nothing but further parts and control jobs may be handed in while a frame is open. -/
theorem Follows.isControl (hj : Follows masked fits f j g) (hopen : 0 < f.remaining)
    (hk : j.kind ≠ .continuation) : j.kind.control?.isSome = true := by
  cases hj with
  | first n fin op len key data hdone => omega
  | further => exact absurd rfl hk
  | control n kind op key data last hop => rw [hop]; rfl

theorem Follows.owed_of_control (hj : Follows masked fits f j g)
    (hc : j.kind.control?.isSome = true) : j.owed = 0 := by
  cases hj with
  | first => cases hc
  | further => cases hc
  | control => rfl

theorem Follows.kind_of_last (hj : Follows masked fits f j g) (hl : j.last = true) :
    j.kind = .close := by
  cases hj with
  | first => simp at hl
  | further => simp at hl
  | control n kind op key data last _ _ _ hlast => exact hlast hl

theorem Follows.owed_eq (hj : Follows masked fits f j g)
    (hb : j.kind ≠ .continuation → f.remaining = 0) : j.owed = g.remaining := by
  cases hj with
  | first => rfl
  | further => rfl
  | control n kind op key data last hop =>
    refine (hb ?_).symm
    rintro rfl
    cases hop

theorem Follows.remaining_eq (hj : Follows masked fits f j g) :
    g.remaining = if j.kind.control?.isSome then f.remaining else j.owed := by
  cases hj with
  | first | further => rfl
  | control n kind op key data last hop => simp [hop]

theorem Laid.of_concat (h : Laid masked fits (js ++ [j]) g) :
    (∀ i ∈ js, i.kind ≠ .close) ∧ ∃ f, Laid masked fits js f ∧ Follows masked fits f j g ∧
      (j.kind ≠ .continuation → f.remaining = 0) := by
  generalize hs : js ++ [j] = all at h
  cases h with
  | nil => simp at hs
  | @snoc f _ _ _ hlaid hj hbetween hclose =>
    obtain ⟨rfl, hlast⟩ := List.append_inj' hs rfl
    cases hlast
    exact ⟨hclose, f, hlaid, hj, hbetween⟩

theorem Laid.kind_of_last (h : Laid masked fits js g) :
    ∀ i ∈ js, i.last = true → i.kind = .close := by
  induction h with
  | nil => exact List.forall_mem_nil _
  | snoc _ hj _ _ ih =>
    intro i hi hl
    rcases List.mem_append.mp hi with hi | hi
    · exact ih i hi hl
    · rw [List.mem_singleton.mp hi] at hl ⊢
      exact hj.kind_of_last hl

/-- The jobs alone say how much is left to come. -/
theorem Laid.remaining_unique {g' : OutgoingFrame} (h : Laid masked fits js g)
    (h' : Laid masked fits js g') : g.remaining = g'.remaining := by
  induction js using List.reverseRecOn generalizing g g' with
  | nil =>
    have hnone : ∀ {row x}, Laid masked fits row x → row = [] → x = .none := by
      intro row x hx
      cases hx with
      | nil => exact fun _ => rfl
      | snoc => simp
    rw [hnone h rfl, hnone h' rfl]
  | append_singleton js j ih =>
    obtain ⟨-, f, hs, hj, -⟩ := h.of_concat
    obtain ⟨-, f', hs', hj', -⟩ := h'.of_concat
    rw [hj.remaining_eq, hj'.remaining_eq, ih hs hs']

theorem Laid.split {more : List Job} (h : Laid masked fits (js ++ more) g) :
    ∃ f, Laid masked fits js f ∧ Trail masked fits f more g := by
  induction more using List.reverseRecOn generalizing g with
  | nil =>
    rw [List.append_nil] at h
    exact ⟨g, h, .nil⟩
  | append_singleton more j ih =>
    rw [← List.append_assoc] at h
    obtain ⟨-, f, hs, hj, -⟩ := h.of_concat
    obtain ⟨f', hs', htrail⟩ := ih hs
    exact ⟨f', hs', htrail.snoc hj⟩

theorem Trail.remaining (h : Trail masked fits f js g)
    (hk : ∀ j ∈ js, j.kind = .continuation) : Job.load js + g.remaining = f.remaining := by
  induction h with
  | nil => exact Nat.zero_add _
  | cons hj _ ih =>
    have ih := ih fun i hi => hk i (List.mem_cons_of_mem _ hi)
    have hkind := hk _ List.mem_cons_self
    rw [Job.load, List.flatMap_cons, List.length_append, ← Job.load]
    cases hj with
    | first => cases hkind
    | further n data hopen hlen =>
      dsimp only at ih ⊢
      omega
    | control n kind op key data last hop =>
      obtain rfl : kind = .continuation := hkind
      cases hop

end

namespace Job

/-- Adds what a job brings: a new frame, or more of the last one. -/
def addTo (fs : List Frame) (j : Job) : List Frame :=
  match j.header with
  | some h => fs ++ [⟨h, j.data⟩]
  | none =>
    fs.dropLast ++ (fs.getLast?.map fun f => { f with payload := f.payload ++ j.data }).toList

/-- The frames that jobs make up, the last of them perhaps in part. -/
def frames (js : List Job) : List Frame := js.foldl addTo []

@[simp] theorem frames_concat (js : List Job) (j : Job) :
    frames (js ++ [j]) = j.addTo (frames js) := by
  simp [frames]

theorem addTo_header {j : Job} {h : Header} (hj : j.header = some h) (fs : List Frame) :
    j.addTo fs = fs ++ [⟨h, j.data⟩] := by
  simp [addTo, hj]

theorem addTo_concat {j : Job} (hj : j.header = none) (fs : List Frame) (f : Frame) :
    j.addTo (fs ++ [f]) = fs ++ [{ f with payload := f.payload ++ j.data }] := by
  simp [addTo, hj]

end Job

/-- What every frame sent is, except that the last one may lack a part of its payload. -/
structure Frame.Fit (masked : Bool) (fits : Nat → Nat → Prop) (f : Frame) : Prop where
  rsv : f.header.rsv = 0
  mask : f.header.mask.isSome = masked
  control : f.header.opcode.isControl = true →
    f.header.fin = true ∧ f.Whole ∧ f.payload.length ≤ maxControlPayload
  data : f.header.opcode.isControl = false → ∃ n, fits f.header.payloadLength.toNat n
  close : f.header.opcode = .close → ∃ p, ClosePayload.parse f.payload = .ok p

def Frame.CloseLast (fs : List Frame) : Prop :=
  ∀ front f rest, fs = front ++ f :: rest → f.header.opcode = .close → rest = []

inductive Frame.EndsAt : OutgoingFrame → List Frame → Prop where
  | whole {f : OutgoingFrame} {fs : List Frame} (hf : f.remaining = 0) (hs : ∀ g ∈ fs, g.Whole) :
      EndsAt f fs
  | part {f : OutgoingFrame} {fs : List Frame} (g : Frame) (hf : f.remaining ≠ 0)
      (hs : ∀ g ∈ fs, g.Whole) (hdata : g.header.opcode.isControl = false)
      (hmask : g.header.mask = f.mask) (hoff : g.payload.length = f.offset)
      (hlen : f.offset + f.remaining = g.header.payloadLength.toNat) : EndsAt f (fs ++ [g])

theorem Frame.EndsAt.row {f : OutgoingFrame} {fs : List Frame} (h : EndsAt f fs) : Row fs := by
  cases h with
  | whole hf hs => exact .of_whole hs
  | part g hf hs hdata hmask hoff hlen => exact .append hs (.last g (by omega))

theorem Frame.EndsAt.all_whole {f : OutgoingFrame} {fs : List Frame} (h : EndsAt f fs)
    (hf : f.remaining = 0) : ∀ g ∈ fs, g.Whole := by
  cases h with
  | whole _ hs => exact hs
  | part g hne => exact absurd hf hne

structure Job.Framed (masked : Bool) (fits : Nat → Nat → Prop) (js : List Job) (f : OutgoingFrame) :
    Prop where
  bytes : Frame.rowBytes (Job.frames js) = js.flatMap Job.bytes
  fit : ∀ g ∈ Job.frames js, g.Fit masked fits
  ends : Frame.EndsAt f (Job.frames js)
  order : ∃ s, Sequencing.initial.acceptAll (Frame.order (Job.frames js)) = .ok s ∧
    s.isFragmented = f.messageOpen
  noClose : (∀ j ∈ js, j.kind ≠ .close) → ∀ g ∈ Job.frames js, g.header.opcode ≠ .close
  closeLast : Frame.CloseLast (Job.frames js)

theorem Sequencing.accept_control (s : Sequencing) {op : Opcode} (h : op.isControl = true) :
    s.accept op true = .ok (none, s) := by
  cases op <;> cases h <;> rfl

theorem Sequencing.accept_starts (s : Sequencing) {f : OutgoingFrame} {op : Opcode} (fin : Bool)
    (hs : s.isFragmented = f.messageOpen) (h : f.Starts op) :
    ∃ k t, s.accept op fin = .ok (some k, t) ∧ t.isFragmented = !fin := by
  obtain ⟨unfinished⟩ := s
  unfold OutgoingFrame.Starts at h
  cases unfinished with
  | none =>
    have hf : f.messageOpen = false := by rw [← hs]; rfl
    simp only [hf, Bool.false_eq_true, if_false] at h
    cases op with
    | text => cases fin <;> exact ⟨.text, _, rfl, rfl⟩
    | binary => cases fin <;> exact ⟨.binary, _, rfl, rfl⟩
    | _ => cases h
  | some k =>
    have hf : f.messageOpen = true := by rw [← hs]; rfl
    simp only [hf, if_true] at h
    subst h
    cases fin <;> exact ⟨k, _, rfl, rfl⟩

theorem Frame.order_append (fs gs : List Frame) : order (fs ++ gs) = order fs ++ order gs :=
  List.map_append

theorem Frame.closeLast_concat {fs : List Frame} (h : ∀ f ∈ fs, f.header.opcode ≠ .close)
    (g : Frame) : CloseLast (fs ++ [g]) := by
  intro front f rest he hc
  rcases List.eq_nil_or_concat' rest with rfl | ⟨rest', last, rfl⟩
  · rfl
  · rw [← List.cons_append, ← List.append_assoc] at he
    obtain ⟨he, -⟩ := List.append_inj' he rfl
    exact absurd hc (h f (by simp [he]))

theorem Frame.bytes_more (g : Frame) (more : Bytes) :
    bytes { g with payload := g.payload ++ more } =
      g.bytes ++ maskWith g.header.mask g.payload.length more := by
  simp only [bytes_eq, maskWith_append, Nat.zero_add, List.append_assoc]

theorem OutgoingFrame.Starts.not_control {f : OutgoingFrame} {op : Opcode} (h : f.Starts op) :
    op.isControl = false := by
  unfold OutgoingFrame.Starts at h
  split at h
  · subst h; rfl
  · cases op <;> first | rfl | cases h

namespace Job.Framed

variable {masked : Bool} {fits : Nat → Nat → Prop} {f : OutgoingFrame} {js : List Job}

theorem add_frame (hs : Framed masked fits js f) (hf : f.remaining = 0)
    (hclose : ∀ i ∈ js, i.kind ≠ .close) {j : Job} {h : Header} {g : OutgoingFrame}
    (hj : j.header = some h) (hmask : j.mask = h.mask) (hoff : j.offset = 0)
    (hfit : Frame.Fit masked fits ⟨h, j.data⟩)
    (hends : ∀ fs, (∀ x ∈ fs, Frame.Whole x) → Frame.EndsAt g (fs ++ [⟨h, j.data⟩]))
    (horder : ∀ s : Sequencing, s.isFragmented = f.messageOpen →
      ∃ k t, s.accept h.opcode h.fin = .ok (k, t) ∧ t.isFragmented = g.messageOpen)
    (hkind : j.kind ≠ .close → h.opcode ≠ .close) : Framed masked fits (js ++ [j]) g := by
  have hwhole := hs.ends.all_whole hf
  have hframes : frames (js ++ [j]) = frames js ++ [⟨h, j.data⟩] := by
    rw [frames_concat, addTo_header hj]
  refine ⟨?_, ?_, ?_, ?_, ?_, ?_⟩ <;> rw [hframes]
  · rw [Frame.rowBytes_append, hs.bytes, List.flatMap_append]
    simp [Job.bytes, Job.payload, hj, hmask, hoff, Frame.bytes_eq]
  · exact List.forall_mem_append.mpr ⟨hs.fit, List.forall_mem_singleton.mpr hfit⟩
  · exact hends _ hwhole
  · obtain ⟨s, hacc, hfrag⟩ := hs.order
    obtain ⟨k, t, ht, htf⟩ := horder s hfrag
    refine ⟨t, ?_, htf⟩
    rw [Frame.order_append, Sequencing.acceptAll_append hacc]
    simp [Frame.order, Sequencing.acceptAll, ht]
  · intro hall
    have hjs : ∀ i ∈ js, i.kind ≠ .close := (List.forall_mem_append.mp hall).1
    exact List.forall_mem_append.mpr
      ⟨hs.noClose hjs, List.forall_mem_singleton.mpr (hkind (hall j (by simp)))⟩
  · exact Frame.closeLast_concat (hs.noClose hclose) _

theorem add_more (hs : Framed masked fits js f) (hf : f.remaining ≠ 0)
    (hclose : ∀ i ∈ js, i.kind ≠ .close) (n : Nat) {data : Bytes}
    (hlen : data.length ≤ f.remaining) :
    Framed masked fits
      (js ++ [⟨n, .continuation, none, data, f.mask, f.offset, f.remaining - data.length, false⟩])
      { f with remaining := f.remaining - data.length, offset := f.offset + data.length } := by
  obtain ⟨hbytes, hfit, hends, horder, hno, hlast⟩ := hs
  have hno := hno hclose
  generalize hfs : frames js = fs at *
  -- the last frame is the open one, and it grows in place
  cases hends with
  | whole h0 _ => exact absurd h0 hf
  | @part fs g _ hwhole hdata hmask hoff hsum =>
    have hframes : ∀ j : Job, j.header = none → j.data = data →
        frames (js ++ [j]) = fs ++ [{ g with payload := g.payload ++ data }] := by
      intro j hh hd
      rw [frames_concat, hfs, addTo_concat hh, hd]
    have hg := hfit g (by simp)
    refine ⟨?_, ?_, ?_, ?_, ?_, ?_⟩ <;> rw [hframes _ rfl rfl]
    · rw [List.flatMap_append, ← hbytes]
      simp [Job.bytes, Job.payload, Frame.bytes_more, hmask, hoff]
    · refine List.forall_mem_append.mpr ⟨(List.forall_mem_append.mp hfit).1,
        List.forall_mem_singleton.mpr ?_⟩
      exact ⟨hg.rsv, hg.mask, fun hc => absurd hc (by simp [hdata]), hg.data,
        fun hc => absurd hc (hno g (by simp))⟩
    · by_cases hdone : f.remaining - data.length = 0
      · refine .whole hdone (List.forall_mem_append.mpr ⟨hwhole, List.forall_mem_singleton.mpr ?_⟩)
        rw [Frame.Whole, List.length_append, hoff, ← hsum]
        omega
      · refine .part _ hdone hwhole hdata hmask ?_ ?_
        · rw [List.length_append, hoff]
        · show f.offset + data.length + (f.remaining - data.length) = _
          rw [← hsum]
          omega
    · obtain ⟨s, hacc, hfrag⟩ := horder
      exact ⟨s, by simpa [Frame.order] using hacc, hfrag⟩
    · intro _
      exact List.forall_mem_append.mpr ⟨(List.forall_mem_append.mp hno).1,
        List.forall_mem_singleton.mpr (hno g (by simp))⟩
    · exact Frame.closeLast_concat (fun x hx => hno x (by simp [hx])) _

theorem add_first (hs : Framed masked fits js f) (hf : f.remaining = 0)
    (hclose : ∀ i ∈ js, i.kind ≠ .close) (n : Nat) (fin : Bool) {op : Opcode} {len : UInt64}
    {key : Option Key} {data : Bytes} (hop : f.Starts op) (hkey : key.isSome = masked)
    (hlen : data.length ≤ len.toNat) (hfits : fits len.toNat data.length) :
    Framed masked fits
      (js ++ [⟨n, .message, some (.plain fin op len key), data, key, 0, len.toNat - data.length,
        false⟩])
      ⟨len.toNat - data.length, data.length, key, !fin⟩ := by
  have hnot : op.isControl = false := hop.not_control
  have hnoClose : op ≠ .close := by
    rintro rfl
    cases hnot
  refine hs.add_frame hf hclose rfl rfl rfl ?_ ?_ ?_ fun _ => hnoClose
  · exact ⟨rfl, hkey, fun hc => absurd (hc.symm.trans hnot) Bool.noConfusion,
      fun _ => ⟨_, hfits⟩, fun hc => absurd hc hnoClose⟩
  · intro fs hw
    by_cases hz : len.toNat - data.length = 0
    · have hwhole : Frame.Whole ⟨.plain fin op len key, data⟩ := by
        show data.length = len.toNat
        omega
      exact .whole hz (List.forall_mem_append.mpr ⟨hw, List.forall_mem_singleton.mpr hwhole⟩)
    · exact .part _ hz hw hnot rfl rfl (Nat.add_sub_of_le hlen)
  · intro s hs
    obtain ⟨k, t, ht, htf⟩ := s.accept_starts fin hs hop
    exact ⟨some k, t, ht, htf⟩

theorem add_control (hs : Framed masked fits js f) (hf : f.remaining = 0)
    (hclose : ∀ i ∈ js, i.kind ≠ .close) (n : Nat) {kind : JobKind} {op : Opcode}
    {key : Option Key} {data : Bytes} (last : Bool) (hop : kind.control? = some op)
    (hkey : key.isSome = masked) (hlen : data.length ≤ maxControlPayload)
    (hparse : kind = .close → ∃ p, ClosePayload.parse data = .ok p) :
    Framed masked fits
      (js ++ [⟨n, kind, some (.plain true op data.length.toUInt64 key), data, key, 0, 0, last⟩])
      f := by
  have hctl : op.isControl = true := JobKind.isControl_of_control? hop
  have hkind : op = .close → kind = .close := (JobKind.control?_eq_close hop).mp
  have hwhole : Frame.Whole ⟨.plain true op data.length.toUInt64 key, data⟩ := by
    show data.length = data.length.toUInt64.toNat
    rw [maxControlPayload] at hlen
    simp only [Nat.toUInt64, UInt64.toNat_ofNat']
    omega
  refine hs.add_frame hf hclose rfl rfl rfl ?_ ?_ ?_ fun hk hc => hk (hkind hc)
  · exact ⟨rfl, hkey, fun _ => ⟨rfl, hwhole, hlen⟩,
      fun hc => absurd (hc.symm.trans hctl) Bool.noConfusion, fun hc => hparse (hkind hc)⟩
  · intro fs hw
    exact .whole hf (List.forall_mem_append.mpr ⟨hw, List.forall_mem_singleton.mpr hwhole⟩)
  · exact fun s hs => ⟨none, s, s.accept_control hctl, hs⟩

end Job.Framed

/-- Jobs on the wire make up frames. -/
theorem Laid.framed {masked : Bool} {fits : Nat → Nat → Prop} {js : List Job} {f : OutgoingFrame}
    (h : Laid masked fits js f) : Job.Framed masked fits js f := by
  induction h with
  | nil =>
    refine ⟨rfl, by simp [Job.frames], .whole rfl (by simp [Job.frames]), ⟨.initial, rfl, rfl⟩,
      by simp [Job.frames], ?_⟩
    intro front g rest he
    simp [Job.frames] at he
  | @snoc f g js j _ hj hbetween hclose ih =>
    cases hj with
    | first n fin op len key data hdone hop hkey hlen hfits =>
      exact ih.add_first hdone hclose n fin hop hkey hlen hfits
    | further n data hopen hlen => exact ih.add_more hopen hclose n hlen
    | control n kind op key data last hop hkey hlen hlast hparse =>
      have hne : kind ≠ .continuation := by
        rintro rfl
        cases hop
      exact ih.add_control (hbetween hne) hclose n last hop hkey hlen hparse

end WebSocket
