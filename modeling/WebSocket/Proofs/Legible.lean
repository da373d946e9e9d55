import WebSocket.Proofs.Endpoint.Run
import WebSocket.Proofs.Header.Progress
import WebSocket.Proofs.Source

/-! Headers as they are sent and as they are read. An end of the other role that takes frames of any
size reads every header back, whatever follows it, if the length that is announced is below the
limit of 63 bits. The sender tries all that the reader tries but that limit. -/

namespace WebSocket

structure Header.Formed (masked : Bool) (h : Header) : Prop where
  rsv : h.rsv = 0
  mask : h.mask.isSome = masked
  control : h.opcode.isControl = true → h.fin = true ∧ h.payloadLength.toNat ≤ maxControlPayload

/-- The rules of the other end, if it takes frames of any size. -/
def Role.opposingRules (role : Role) : HeaderRules := ⟨role.opposite, .ofNat (UInt64.size - 1)⟩

theorem Role.expectsMasked_opposite (role : Role) :
    role.opposite.expectsMasked = role.masksOutgoing := by
  cases role <;> rfl

theorem Header.Formed.admits {role : Role} {h : Header} (hf : h.Formed role.masksOutgoing)
    (hshort : h.payloadLength.toNat < HeaderProgress.lengthLimit) :
    role.opposingRules.Admits h := by
  refine ⟨hf.rsv, hf.mask.trans role.expectsMasked_opposite.symm, hshort, ?_⟩
  unfold HeaderRules.check
  split
  · next hop =>
    obtain ⟨hfin, hlen⟩ := hf.control hop
    rw [hfin, if_neg (by simp), if_neg (Nat.not_lt.mpr hlen)]
  · rw [if_neg]
    have hlt := h.payloadLength.toNat_lt
    exact UInt64.not_lt.mpr (UInt64.le_iff_toNat_le.mpr (Nat.le_sub_one_of_lt hlt))

theorem Header.wide_of_long {h : Header}
    (hlong : HeaderProgress.lengthLimit ≤ h.payloadLength.toNat) :
    lengthField h.payloadLength = length64 ∧ lengthWidth h.payloadLength = 8 := by
  have h125 : ¬ h.payloadLength ≤ 125 := by
    intro hle
    have hle : h.payloadLength.toNat ≤ 125 := hle
    rw [HeaderProgress.lengthLimit] at hlong
    omega
  have h16 : ¬ h.payloadLength ≤ 0xffff := by
    intro hle
    have hle : h.payloadLength.toNat ≤ 0xffff := hle
    rw [HeaderProgress.lengthLimit] at hlong
    omega
  exact ⟨by rw [lengthField, if_neg h125, if_neg h16], by rw [lengthWidth, if_neg h125, if_neg h16]⟩

/-! Reading a header from a stream. -/

namespace Source

variable {r : HeaderRules} {h : Header} {p : HeaderProgress} {xs : Coming}

theorem readExactly_of_coming {s : Source} {piece : Bytes}
    (hs : s.coming = piece.map .ok ++ xs) :
    ∃ s', s.readExactly piece.length = (.ok (some piece), s') ∧ s'.coming = xs := by
  have hread := readExactly_eq s piece.length
  rw [hs, Coming.takeExactly_bytes] at hread
  obtain ⟨hgot, hrest⟩ := Prod.mk.inj hread
  exact ⟨_, Prod.ext hgot rfl, hrest⟩

theorem readHeaderFrom_of_piece {s : Source} {piece : Bytes} (hl : piece.length = p.need)
    (hs : s.coming = piece.map .ok ++ xs) :
    ∃ s', s'.coming = xs ∧ readHeaderFrom r p s =
      match p.read r piece with
      | .error v => (.error v.toError, s')
      | .ok (.done h) => (.ok (some h), s')
      | .ok (.more q) => readHeaderFrom r q s' := by
  obtain ⟨s', hread, hrest⟩ := readExactly_of_coming hs
  refine ⟨s', hrest, ?_⟩
  rw [readHeaderFrom, ← hl, hread]
  dsimp only
  split <;> next heq => rw [heq]

/-- A header that may be sent is read to its end from any point of it. -/
theorem readHeaderFrom_along (hadm : r.Admits h) {b t : Bytes} {s : Source}
    (ha : HeaderProgress.Along h b p) (he : b ++ t = h.encode)
    (hs : s.coming = t.map .ok ++ xs) :
    ∃ s', readHeaderFrom r p s = (.ok (some h), s') ∧ s'.coming = xs := by
  induction hn : p.rank using Nat.strong_induction_on generalizing p b t s with
  | _ n ih =>
    have hlen : p.need ≤ t.length := by
      have := ha.length
      rw [← he, List.length_append] at this
      omega
    have hpiece : (t.take p.need).length = p.need := List.length_take_of_le hlen
    have hsplit := List.take_append_drop p.need t
    rw [← hsplit, List.map_append, List.append_assoc] at hs
    obtain ⟨s', hs', hread⟩ := readHeaderFrom_of_piece (r := r) hpiece hs
    have hbytes : b ++ t.take p.need ++ t.drop p.need = h.encode ++ [] := by
      rw [List.append_assoc, hsplit, he, List.append_nil]
    have halong := HeaderProgress.read_along hadm ha hpiece hbytes
    rw [hread]
    rcases halong with ⟨q, hq, haq⟩ | ⟨hdone, hall⟩
    · rw [hq]
      have hrank := HeaderProgress.read_rank hq
      exact ih q.rank (hn ▸ hrank) haq (by rw [List.append_assoc, hsplit, he]) hs' rfl
    · rw [hdone]
      refine ⟨s', rfl, ?_⟩
      have : t.drop p.need = [] := by
        rw [← hsplit, ← List.append_assoc, hall] at he
        exact List.append_right_eq_self.mp he
      rw [hs', this]
      rfl

/-- A length with its top bit set is refused as soon as it is there. -/
theorem readHeader_of_long (hf : h.Formed r.role.expectsMasked)
    (hlong : HeaderProgress.lengthLimit ≤ h.payloadLength.toNat) {s : Source}
    (hs : s.coming = h.encode.map .ok ++ xs) :
    ∃ s', readHeader r s = (.error Violation.lengthTopBit.toError, s') := by
  obtain ⟨hfield, hwidth⟩ := Header.wide_of_long hlong
  rw [Header.encode, List.map_cons, List.map_cons, List.map_append, List.cons_append,
    List.cons_append, List.append_assoc] at hs
  obtain ⟨s₁, hs₁, hread₁⟩ := readHeaderFrom_of_piece (r := r)
    (show [h.firstByte].length = HeaderProgress.start.need from rfl) hs
  rw [HeaderProgress.read_start r hf.rsv] at hread₁
  obtain ⟨s₂, hs₂, hread₂⟩ := readHeaderFrom_of_piece (r := r)
    (show [h.secondByte].length = (HeaderProgress.opened h.fin h.opcode).need from rfl) hs₁
  rw [HeaderProgress.read_opened hf.mask, hfield, if_neg (by decide), if_pos rfl] at hread₂
  obtain ⟨s₃, -, hread₃⟩ := readHeaderFrom_of_piece (r := r)
    (p := .extended h.fin h.opcode h.mask.isSome true) (by rw [length_beBytes, hwidth]; rfl) hs₂
  have hwide : Header.lengthWidth h.payloadLength = if true then 8 else 2 := hwidth
  rw [HeaderProgress.read_extended hwide, if_pos hlong] at hread₃
  exact ⟨s₃, hread₁.trans (hread₂.trans hread₃)⟩

end Source

/-! What an end sends. -/

/-- The other end reads the header back, with as many bytes as it takes, if the length it announces
is below the limit; otherwise it refuses it. -/
structure Header.Legible (role : Role) (h : Header) : Prop where
  exact : h.payloadLength.toNat < HeaderProgress.lengthLimit → ∀ (s : Source) (xs : Coming),
    s.coming = h.encode.map .ok ++ xs →
      ∃ s', s.readHeader role.opposingRules = (.ok (some h), s') ∧ s'.coming = xs
  long : HeaderProgress.lengthLimit ≤ h.payloadLength.toNat → ∀ (s : Source) (xs : Coming),
    s.coming = h.encode.map .ok ++ xs →
      ∃ s', s.readHeader role.opposingRules = (.error Violation.lengthTopBit.toError, s')

theorem Header.Formed.legible {role : Role} {h : Header} (hf : h.Formed role.masksOutgoing) :
    h.Legible role :=
  ⟨fun hshort _ _ hs => Source.readHeaderFrom_along (hf.admits hshort) .start rfl hs,
    fun hlong _ _ hs => Source.readHeader_of_long
      (r := role.opposingRules) (role.expectsMasked_opposite ▸ hf) hlong hs⟩

/-- The header of a job is formed as it should be, and only that of a data frame announces more than
a control frame may have. -/
def Job.Formed (masked : Bool) (j : Job) : Prop :=
  ∀ h, j.header = some h →
    h.Formed masked ∧ (j.kind ≠ .message → h.payloadLength.toNat ≤ maxControlPayload)

/-- The other end reads the header of a job, unless it is one of a data frame that is too long. -/
def Job.Legible (role : Role) (j : Job) : Prop :=
  ∀ h, j.header = some h →
    h.Legible role ∧ (j.kind ≠ .message → h.payloadLength.toNat ≤ maxControlPayload)

theorem Job.Formed.legible {role : Role} {j : Job} (hj : j.Formed role.masksOutgoing) :
    j.Legible role :=
  fun h hh => ⟨(hj h hh).1.legible, (hj h hh).2⟩

theorem Follows.formed {masked : Bool} {fits : Nat → Nat → Prop} {f g : OutgoingFrame} {j : Job}
    (h : Follows masked fits f j g) : j.Formed masked := by
  cases h with
  | first n fin op len key data hdone hop hkey =>
    rintro _ ⟨⟩
    refine ⟨⟨rfl, hkey, fun hctl => ?_⟩, fun hk => absurd rfl hk⟩
    exact absurd (hop.not_control.symm.trans hctl) Bool.false_ne_true
  | further => nofun
  | control n kind op key data last hop hkey hlen =>
    have hshort : data.length.toUInt64.toNat ≤ maxControlPayload := by
      simp only [Nat.toUInt64, UInt64.toNat_ofNat']
      exact Nat.le_trans (Nat.mod_le _ _) hlen
    rintro _ ⟨⟩
    exact ⟨⟨rfl, hkey, fun _ => ⟨rfl, hshort⟩⟩, fun _ => hshort⟩

theorem Outgoing.Move.formed {masked : Bool} {fits : Nat → Nat → Prop} {o o' : Outgoing}
    (hm : Move masked fits o o') (hp : Phased o) (h : ∀ j ∈ o.lineUp, j.Formed masked) :
    ∀ j ∈ o'.lineUp, j.Formed masked := by
  by_cases hn : o'.outbox.nextSerial = o.outbox.nextSerial
  · have hperm := (LineMove.of_move hp hm).perm hn
    exact fun j hj => h j (hperm.subset hj)
  · cases hm with
    | enter j f keys hj =>
      intro i hi
      rw [lineUp_enter] at hi
      rcases List.mem_append.mp hi with hi | hi
      · exact h i hi
      · exact List.mem_singleton.mp hi ▸ hj.follows.formed
    | _ => exact absurd rfl hn

namespace Endpoint

/-- What is known of the headers that an end sends. -/
structure SendsLegibly (e : Endpoint) : Prop where
  line : ∀ j ∈ e.outgoing.lineUp, j.Legible e.config.role
  wire : ∀ j ∈ e.outgoing.written, ∃ front back,
    e.transport.wire.toList = front ++ ((j.header.map Header.encode).getD [] ++ j.payload) ++ back
  /-- A call that is taken brings such a job, also from a callback. -/
  calls : ∀ (r : Reader) (cs : List WriteCall) (c : WriteCall) (n : Nat),
    (({ e with reader := r }.writeAll cs).1.write c).2 = .ok n →
      ∃ j, c.Makes j ∧ j.serial = n ∧ j.Legible e.config.role ∧
        (({ e with reader := r }.writeAll cs).1.write c).1.outbox.queue =
          ({ e with reader := r }.writeAll cs).1.outbox.queue ++ [j]

variable {ok : Event → Prop} {e : Endpoint} {past : List Endpoint} {fits : Nat → Nat → Prop}

theorem Run.formed (h : Run ok (e :: past)) (hok : ∀ c, ok (.write c) → c.Within fits) :
    ∀ j ∈ e.outgoing.lineUp, j.Formed e.masks :=
  Run.lift (P := fun _ masked o => ∀ j ∈ o.lineUp, j.Formed masked)
    (fun _ _ => List.forall_mem_nil _) (fun _ _ _ _ hp => hp)
    (fun _ _ _ _ hsound _ hm hp => hm.formed hsound.phased hp) hok h

theorem formed_of_write (h : e.Sending fits) {c : WriteCall} (hc : c.Within fits) {n : Nat}
    (hn : (e.write c).2 = .ok n) :
    ∃ j, c.Makes j ∧ j.serial = n ∧ j.Formed e.masks ∧
      (e.write c).1.outbox.queue = e.outbox.queue ++ [j] := by
  have hentered := write_entered h hc
  generalize e.write c = a at hentered hn ⊢
  cases hentered with
  | refused => cases hn
  | accepted j f keys timer hj hmakes =>
    exact ⟨j, hmakes, Except.ok.inj hn, hj.follows.formed, rfl⟩

/-- In every run the headers that an end sends are read back by one of the other role, but for those
that announce a length with its top bit set. -/
theorem sendsLegibly_of_run (h : Run (fun _ => True) (e :: past)) : SendsLegibly e := by
  have hok : ∀ c : WriteCall, True → c.Within fun _ _ => True := fun c _ => c.within_any
  have hsend := (h.inOrder hok).sending
  refine ⟨fun j hj => (h.formed hok j hj).legible, ?_, ?_⟩
  · intro j hj
    obtain ⟨part, tail, f, hb, -, -⟩ := hsend.wired
    obtain ⟨before, after, hsplit⟩ := List.append_of_mem hj
    refine ⟨before.flatMap Job.bytes, after.flatMap Job.bytes ++ tail, ?_⟩
    rw [show e.transport.wire = e.outgoing.wire from rfl, hb, hsplit]
    simp [Job.bytes]
  · intro r cs c n hn
    have hread : Acts (fun _ _ => True) e { e with reader := r } := .read e r
    have hcalls := writeAll_acts (hread.sending hsend) cs fun c _ => c.within_any
    obtain ⟨j, hmakes, hserial, hformed, hqueue⟩ :=
      formed_of_write (hcalls.sending (hread.sending hsend)) c.within_any hn
    have hmasks : masks ({ e with reader := r }.writeAll cs).1 = e.config.role.masksOutgoing := by
      rw [masks, hcalls.reaction.config]
    exact ⟨j, hmakes, hserial, (hmasks ▸ hformed).legible, hqueue⟩

/-- A server that has been handed the start of a frame of as many bytes as the limit. A client
refuses the header that is then on the wire. -/
theorem sendsLegibly_of_run_top_bit :
    ∃ (e : Endpoint) (past : List Endpoint), Run (fun _ => True) (e :: past) ∧
      e.transport.wire.toList = [0x82, 0x7f, 0x80, 0, 0, 0, 0, 0, 0, 0] ∧ SendsLegibly e ∧
      ∃ s, (Source.ofSegments Source.defaultCapacity [.data e.transport.wire.toList]).readHeader
        e.config.role.opposingRules = (.error Violation.lengthTopBit.toError, s) := by
  have h : Run (fun _ => True) [opened .server .none (fun _ => .zero) none none] :=
    .start _ _ _ _ _ fun _ _ => trivial
  obtain ⟨e, past, h, hy⟩ := h.handleAll (n := 8)
    (f := fun e => (e.transport.wire.toList, e.outgoing.lineUp))
    [.write (.firstChunk 0x8000000000000000 [] true true)] (fun _ _ => trivial)
    (y := ([0x82, 0x7f, 0x80, 0, 0, 0, 0, 0, 0, 0],
      [⟨0, .message, some (.plain true .binary 0x8000000000000000 none), [], none, 0,
        0x8000000000000000, false⟩])) (by decide)
  obtain ⟨hwire, hline⟩ := Prod.mk.inj hy
  have hsends := sendsLegibly_of_run h
  have hlegible := (hsends.line _ (hline ▸ List.mem_singleton_self _) _ rfl).1
  refine ⟨e, past, h, hwire, hsends, hlegible.long (by decide) _ [] ?_⟩
  rw [hwire]
  decide

end Endpoint

end WebSocket
