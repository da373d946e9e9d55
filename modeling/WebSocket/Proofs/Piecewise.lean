import WebSocket.Proofs.Delivery.Submitted
import WebSocket.Proofs.Occupancy

/-! Data frames that are handed in piece by piece. The pieces bring the bytes of the frame written
whole, however it was cut, since each is masked where it stands in the payload. The bookkeeping
counts what has been handed in and what is left to come, and this decides which call is taken. -/

namespace WebSocket

/-! Rows of jobs that follow each other. -/

section

variable {masked : Bool} {fits : Nat → Nat → Prop} {f g : OutgoingFrame} {j : Job} {js ks : List Job}

theorem Trail.of_append (h : Trail masked fits f (js ++ ks) g) :
    ∃ m, Trail masked fits f js m ∧ Trail masked fits m ks g := by
  induction js generalizing f with
  | nil => exact ⟨f, .nil, h⟩
  | cons j js ih =>
    rw [List.cons_append] at h
    cases h with
    | cons hj hs =>
      obtain ⟨m, hfront, hback⟩ := ih hs
      exact ⟨m, .cons hj hfront, hback⟩

theorem Trail.filter_isData (h : Trail masked fits f js g) :
    Trail masked fits f (js.filter Job.isData) g := by
  induction h with
  | nil => exact .nil
  | @cons f m g j js hj _ ih =>
    cases hdata : j.isData with
    | true =>
      rw [List.filter_cons_of_pos hdata]
      exact .cons hj ih
    | false =>
      have hcontrol : j.kind.control?.isSome = true := by
        rw [Job.isData] at hdata
        simpa using hdata
      rw [List.filter_cons_of_neg (by simp [hdata]), (hj.control_iff hcontrol).1]
      exact ih

theorem Job.load_cons (j : Job) (js : List Job) : load (j :: js) = j.data.length + load js := by
  rw [load, List.flatMap_cons, List.length_append, ← load]

/-- What the first piece of a frame brings, and what is then known of the frame. -/
theorem Follows.starts (hj : Follows masked fits f j g) (hk : j.kind = .message) :
    f.remaining = 0 ∧ ∃ h, j.header = some h ∧ h.mask.isSome = masked ∧
      j.bytes = Frame.build h j.data ∧ g.mask = h.mask ∧ g.offset = j.data.length ∧
      g.offset + g.remaining = h.payloadLength.toNat := by
  cases hj with
  | first n fin op len key data hdone hop hkey hlen =>
    exact ⟨hdone, _, rfl, hkey, rfl, rfl, rfl, Nat.add_sub_of_le hlen⟩
  | further => cases hk
  | control n kind op key data last hop =>
    obtain rfl : kind = .message := hk
    cases hop

/-- Further pieces bring what comes next in the payload, masked where it stands. -/
theorem Trail.continues (h : Trail masked fits f js g) (hk : ∀ j ∈ js, j.kind = .continuation) :
    js.flatMap Job.bytes = maskWith f.mask f.offset (js.flatMap (·.data)) ∧
      g.offset = f.offset + Job.load js := by
  induction h with
  | nil => exact ⟨(maskWith_nil _ _).symm, rfl⟩
  | @cons f m g j js hj _ ih =>
    obtain ⟨hbytes, hoffset⟩ := ih fun i hi => hk i (List.mem_cons_of_mem _ hi)
    have hkind := hk j List.mem_cons_self
    cases hj with
    | first => cases hkind
    | further n data hopen hlen =>
      refine ⟨?_, ?_⟩
      · rw [List.flatMap_cons, hbytes, List.flatMap_cons, maskWith_append]
        rfl
      · rw [hoffset, Job.load_cons, Nat.add_assoc]
    | control n kind op key data last hop =>
      obtain rfl : kind = .continuation := hkind
      cases hop

theorem Trail.last_frame (h : Trail masked fits .none js g) (hdata : ∀ j ∈ js, j.isData = true)
    (hne : js ≠ []) : ∃ before first further, js = before ++ (first :: further) ∧
      first.kind = .message ∧ ∀ j ∈ further, j.kind = .continuation := by
  induction js using List.reverseRecOn generalizing g with
  | nil => exact absurd rfl hne
  | append_singleton js j ih =>
    obtain ⟨f, hfront, hback⟩ := h.of_append
    have hj := hdata j (by simp)
    cases hback with
    | cons hlast _ =>
      cases hlast with
      | first => exact ⟨js, _, [], rfl, rfl, List.forall_mem_nil _⟩
      | further n data hopen hlen =>
        -- a frame is open, so there are pieces before this one
        have hsome : js ≠ [] := by
          rintro rfl
          cases hfront
          exact hopen rfl
        obtain ⟨before, first, further, rfl, hfirst, hfurther⟩ :=
          ih hfront (fun i hi => hdata i (List.mem_append_left _ hi)) hsome
        refine ⟨before, first, further ++ [_], by rw [List.append_assoc]; rfl, hfirst, ?_⟩
        intro i hi
        rcases List.mem_append.mp hi with hi | hi
        · exact hfurther i hi
        · rw [List.mem_singleton.mp hi]
      | control n kind op key data last hop =>
        rw [Job.isData, hop] at hj
        cases hj

/-- No job makes the bookkeeping count further than the length that a frame announces. -/
theorem Follows.counted (hj : Follows masked fits f j g)
    (hf : f.offset + f.remaining < UInt64.size) : g.offset + g.remaining < UInt64.size := by
  cases hj with
  | first n fin op len key data hdone hop hkey hlen =>
    dsimp only
    rw [Nat.add_sub_of_le hlen]
    exact len.toNat_lt
  | further n data hopen hlen =>
    dsimp only
    omega
  | control => exact hf

theorem Trail.counted (h : Trail masked fits f js g)
    (hf : f.offset + f.remaining < UInt64.size) : g.offset + g.remaining < UInt64.size := by
  induction h with
  | nil => exact hf
  | cons hj _ ih => exact ih (hj.counted hf)

end

/-- Pieces of one data frame, against the frame with this header written whole. -/
structure Job.PiecesOf (masked : Bool) (h : Header) (js : List Job) : Prop where
  mask : h.mask.isSome = masked
  fits : Job.load js ≤ h.payloadLength.toNat
  bytes : js.flatMap Job.bytes = Frame.build h (js.flatMap (·.data))

theorem WriteCall.kind_of_makes {c : WriteCall} {j : Job} (h : c.Makes j) : j.kind = c.kind := by
  cases c <;> exact h.1

namespace Endpoint

def pieces (e : Endpoint) : List Job := e.outgoing.handedIn.filter Job.isData

/-- What is known of the data frames that an end is given piece by piece, at a state that comes
after some others. -/
structure WritesPiecewise (states : List Endpoint) (e : Endpoint) : Prop where
  kept : ∀ d ∈ states, d.pieces <+: e.pieces
  /-- A call that is taken brings one more piece, with what it was given. -/
  brings : ∀ c : WriteCall, c.kind.control? = none → e.Takes c →
    ∃ j, c.Makes j ∧ (e.write c).1.pieces = e.pieces ++ [j]
  started : e.pieces ≠ [] → ∃ before first further, e.pieces = before ++ (first :: further) ∧
    first.kind = .message ∧ ∀ j ∈ further, j.kind = .continuation
  /-- A first piece and any number of further ones bring the bytes of the frame. They bring all of
  them before the next frame is started; until then the bookkeeping says how far they have come. -/
  frame : ∀ (before : List Job) (first : Job) (further after : List Job),
    e.pieces = before ++ (first :: further ++ after) → first.kind = .message →
    (∀ j ∈ further, j.kind = .continuation) →
    ∃ h, first.header = some h ∧ Job.PiecesOf e.masks h (first :: further) ∧
      (∀ next ∈ after.head?, next.kind = .message →
        Job.load (first :: further) = h.payloadLength.toNat) ∧
      (after = [] → e.outbox.frame.offset = Job.load (first :: further) ∧
        e.outbox.frame.offset + e.outbox.frame.remaining = h.payloadLength.toNat)
  counted : e.outbox.frame.offset + e.outbox.frame.remaining < UInt64.size
  further : e.life.closed = false → e.outbox.slots.isBusy .continuation = false →
    ∀ chunk : Bytes, e.Takes (.continuation chunk) ↔
      0 < e.outbox.frame.remaining ∧ chunk.length ≤ e.outbox.frame.remaining
  first : e.life.closed = false → e.life.closing = false →
    e.outbox.slots.isBusy .message = false →
    ∀ (len : UInt64) (chunk : Bytes) (last binary : Bool), chunk.length ≤ len.toNat →
      (e.Takes (.firstChunk len chunk last binary) ↔ e.outbox.frame.remaining = 0)

variable {ok : Event → Prop} {fits : Nat → Nat → Prop} {e e' : Endpoint} {past : List Endpoint}

theorem Run.handedIn_mono (h : Run ok (e :: past)) (hok : ∀ c, ok (.write c) → c.Within fits) :
    ∀ d ∈ e :: past, d.outgoing.handedIn <+: e.outgoing.handedIn := by
  intro d hd
  refine h.carry (P := fun o => d.outgoing.handedIn <+: o.handedIn) hok hd List.prefix_rfl ?_
  intro o o' hsound hm hpre
  exact hpre.trans ((Outgoing.LineMove.of_move hsound.phased hm).handedIn_mono hsound.numbered)

theorem pieces_of_takes (h : e.Sending fun _ _ => True) {c : WriteCall}
    (hc : c.kind.control? = none) (ht : e.Takes c) :
    ∃ j, c.Makes j ∧ (e.write c).1.pieces = e.pieces ++ [j] := by
  have hentered := write_entered h c.within_any
  obtain ⟨i, -, -, htaken, -⟩ := ht
  generalize e.write c = a at hentered htaken ⊢
  cases hentered with
  | refused => cases htaken
  | accepted j f keys timer hj hmakes =>
    refine ⟨j, hmakes, ?_⟩
    have hdata : j.isData = true := by
      rw [Job.isData, WriteCall.kind_of_makes hmakes, hc]
      rfl
    rw [pieces, show (e.enter j f keys timer).outgoing.handedIn = _ from
      h.numbered.handedIn_enter hj, List.filter_append, List.filter_cons_of_pos hdata]
    rfl

/-- What the pieces of a frame come to. -/
theorem frame_of_trail {e : Endpoint}
    (ht : Trail e.masks fits .none e.pieces e.outbox.frame) {before further after : List Job}
    {first : Job} (hsplit : e.pieces = before ++ (first :: further ++ after))
    (hfirst : first.kind = .message) (hfurther : ∀ j ∈ further, j.kind = .continuation) :
    ∃ h, first.header = some h ∧ Job.PiecesOf e.masks h (first :: further) ∧
      (∀ next ∈ after.head?, next.kind = .message →
        Job.load (first :: further) = h.payloadLength.toNat) ∧
      (after = [] → e.outbox.frame.offset = Job.load (first :: further) ∧
        e.outbox.frame.offset + e.outbox.frame.remaining = h.payloadLength.toNat) := by
  rw [hsplit] at ht
  obtain ⟨f, -, ht⟩ := ht.of_append
  obtain ⟨m, hframe, hafter⟩ := ht.of_append
  cases hframe with
  | @cons _ g _ _ _ hj hs =>
    obtain ⟨-, h, hheader, hmasked, hbytes, hmask, hoffset, hsum⟩ := hj.starts hfirst
    obtain ⟨hmore, hend⟩ := hs.continues hfurther
    have hleft := hs.remaining hfurther
    have hload := Job.load_cons first further
    have hpieces : Job.PiecesOf e.masks h (first :: further) := by
      refine ⟨hmasked, by omega, ?_⟩
      rw [List.flatMap_cons, List.flatMap_cons, hbytes, hmore, hmask, hoffset, Frame.build,
        Frame.build, maskWith_append, Nat.zero_add, List.append_assoc]
    refine ⟨h, hheader, hpieces, fun next hnext hkind => ?_, ?_⟩
    · obtain ⟨rest, rfl⟩ := List.head?_eq_some_iff.mp hnext
      cases hafter with
      | cons hnext _ =>
        have := (hnext.starts hkind).1
        omega
    · rintro rfl
      cases hafter
      omega

theorem writesPiecewise_of_trail {states : List Endpoint} (h : e.Sending fun _ _ => True)
    (ht : e.OnTrail fun _ _ => True)
    (hkept : ∀ d ∈ states, d.outgoing.handedIn <+: e.outgoing.handedIn) :
    WritesPiecewise states e where
  kept d hd := (hkept d hd).filter _
  brings _ := pieces_of_takes h
  started := ht.filter_isData.last_frame fun _ hj => (List.mem_filter.mp hj).2
  frame _ _ _ _ := frame_of_trail ht.filter_isData
  counted := ht.counted (by decide)
  further hopen hfree chunk := by
    rw [takes_iff h hopen (.continuation chunk) trivial]
    exact ⟨fun ⟨_, hrem, hlen⟩ => ⟨Nat.pos_of_ne_zero hrem, hlen⟩,
      fun ⟨hrem, hlen⟩ => ⟨hfree, Nat.ne_of_gt hrem, hlen⟩⟩
  first hopen hcl hfree len chunk last binary hlen := by
    rw [takes_iff h hopen (.firstChunk len chunk last binary) fun _ => trivial]
    exact ⟨fun hadmits => hadmits.2.2.2, fun hrem => ⟨hcl, hlen, hfree, hrem⟩⟩

/-- In every run, also between the calls of a callback, the pieces of a data frame bring the bytes
of the frame written whole; and a first piece is taken when no other frame is unfinished, a further
one when it is no longer than what its frame lacks. -/
theorem writesPiecewise_of_run (h : Run (fun _ => True) (e :: past)) (r : Reader)
    (cs : List WriteCall) :
    WritesPiecewise (e :: past) ({ e with reader := r }.writeAll cs).1 := by
  have hok : ∀ c : WriteCall, True → c.Within fun _ _ => True := fun c _ => c.within_any
  have hsend := (h.inOrder hok).sending
  have hread : Acts (fun _ _ => True) e { e with reader := r } := .read e r
  have hcalls := writeAll_acts (hread.sending hsend) cs fun c _ => c.within_any
  have hacts := hread.trans hcalls
  have hshift := hacts.reaction.toShift
  exact writesPiecewise_of_trail (hacts.sending hsend) (hshift.trail hsend (h.trail hok))
    fun d hd => (h.handedIn_mono hok d hd).trans (hshift.handedIn_mono hsend)

/-- A client that has been given a frame in three pieces, one of them empty. -/
theorem writesPiecewise_of_run_hello :
    ∃ (e : Endpoint) (past : List Endpoint), Run (fun _ => True) (e :: past) ∧
      e.pieces.map (·.data) = [[0x48, 0x65], [], [0x6c, 0x6c, 0x6f]] ∧
      e.transport.wire.toList =
        [0x81, 0x85, 0x37, 0xfa, 0x21, 0x3d, 0x7f, 0x9f, 0x4d, 0x51, 0x58] ∧
      WritesPiecewise (e :: past) e ∧
      Job.PiecesOf true (.plain true .text 5 (some ⟨0x37, 0xfa, 0x21, 0x3d⟩)) e.pieces := by
  have h : Run (fun _ => True)
      [opened .client .none (fun _ => ⟨0x37, 0xfa, 0x21, 0x3d⟩) none none] :=
    .start _ _ _ _ _ fun _ _ => trivial
  obtain ⟨e, past, h, hy⟩ := h.handleAll (n := 8)
    (f := fun e => (e.transport.wire.toList, e.pieces, e.masks))
    [.write (.firstChunk 5 [0x48, 0x65] true false), .write (.continuation []),
      .write (.continuation [0x6c, 0x6c, 0x6f])] (fun _ _ => trivial)
    (y := ([0x81, 0x85, 0x37, 0xfa, 0x21, 0x3d, 0x7f, 0x9f, 0x4d, 0x51, 0x58],
      [⟨0, .message, some (.plain true .text 5 (some ⟨0x37, 0xfa, 0x21, 0x3d⟩)), [0x48, 0x65],
          some ⟨0x37, 0xfa, 0x21, 0x3d⟩, 0, 3, false⟩,
        ⟨1, .continuation, none, [], some ⟨0x37, 0xfa, 0x21, 0x3d⟩, 2, 3, false⟩,
        ⟨2, .continuation, none, [0x6c, 0x6c, 0x6f], some ⟨0x37, 0xfa, 0x21, 0x3d⟩, 2, 0, false⟩],
      true)) (by decide +kernel)
  obtain ⟨hwire, hpieces, hmasks⟩ := by simpa only [Prod.mk.injEq] using hy
  have hwrites : WritesPiecewise (e :: past) e := writesPiecewise_of_run h e.reader []
  obtain ⟨first, further, hsplit, hfirst, hfurther, hheader⟩ : ∃ first further,
      e.pieces = first :: further ∧ first.kind = .message ∧
        (∀ j ∈ further, j.kind = .continuation) ∧
        first.header = some (.plain true .text 5 (some ⟨0x37, 0xfa, 0x21, 0x3d⟩)) :=
    ⟨_, _, hpieces, rfl, by decide, rfl⟩
  obtain ⟨header, hsame, hframe, -⟩ := hwrites.frame [] first further []
    (by rw [hsplit, List.nil_append, List.append_nil]) hfirst hfurther
  obtain rfl := Option.some.inj (hheader.symm.trans hsame)
  rw [hmasks] at hframe
  exact ⟨e, past, h, by rw [hpieces]; rfl, hwire, hwrites, hsplit ▸ hframe⟩

end Endpoint

end WebSocket
