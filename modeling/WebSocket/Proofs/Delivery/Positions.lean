import WebSocket.Proofs.Delivery.Messages

/-! Where in the bytes of a row of frames its parts end. A reader for which not enough has come in
has handed out the parts that lie within what has. -/

namespace WebSocket

/-- Parts one after the other, each with how many bytes there are up to its end, when there are `n`
before the first. -/
def Chunk.ends (n : Nat) : List Chunk → List (Chunk × Nat)
  | [] => []
  | c :: cs => (c, n + c.data.length) :: ends (n + c.data.length) cs

namespace Frame

def partEnds (size : Nat) : Nat → Bool → List Frame → List (Chunk × Nat)
  | _, _, [] => []
  | n, binary, f :: fs =>
    (if f.header.opcode.isControl then []
      else Chunk.ends (n + f.header.encode.length)
        (Chunk.cut size f.header.fin (f.header.opcode.binaryAfter binary) f.payload)) ++
      partEnds size (n + f.bytes.length) (f.header.opcode.binaryAfter binary) fs

/-- The parts of a row of frames that lie within its first `k` bytes. -/
def partsWithin (size k : Nat) (ws : List Frame) : List Chunk :=
  ((partEnds size 0 false ws).filter (·.2 ≤ k)).map (·.1)

/-- Some bytes of a row end between two frames, and no message is unfinished there. -/
def CleanCut (ws : List Frame) (fed : Bytes) : Prop :=
  ∃ fs, fs <+: ws ∧ rowBytes fs = fed ∧ Message.isOpen (messages fs) = false

end Frame

namespace Chunk

variable {size n : Nat} {fin binary : Bool} {b : Bytes} {cs : List Chunk} {x : Chunk × Nat}

theorem ends_append (n : Nat) (cs ds : List Chunk) :
    ends n (cs ++ ds) = ends n cs ++ ends (n + (cs.flatMap (·.data)).length) ds := by
  induction cs generalizing n with
  | nil => rfl
  | cons c cs ih =>
    rw [List.cons_append, ends, ends, ih, List.flatMap_cons, List.length_append, Nat.add_assoc]
    rfl

theorem map_fst_ends (n : Nat) (cs : List Chunk) : (ends n cs).map (·.1) = cs := by
  induction cs generalizing n with
  | nil => rfl
  | cons c cs ih => rw [ends, List.map_cons, ih]

theorem bounds_of_mem_ends (h : x ∈ ends n cs) :
    n ≤ x.2 ∧ x.2 ≤ n + (cs.flatMap (·.data)).length := by
  induction cs generalizing n with
  | nil => cases h
  | cons c cs ih =>
    rw [List.flatMap_cons, List.length_append]
    rcases List.mem_cons.mp h with rfl | h
    · dsimp only
      omega
    · have := ih h
      omega

theorem data_cut (size : Nat) (fin binary : Bool) (b : Bytes) :
    (cut size fin binary b).flatMap (·.data) = b := by
  induction b using cut.induct size with
  | case1 b h ih => rw [cut, if_pos h, List.flatMap_cons, ih, List.take_append_drop]
  | case2 b h => rw [cut, if_neg h, List.flatMap_cons, List.flatMap_nil, List.append_nil]

theorem le_of_mem_cut (h : x ∈ ends n (cut size fin binary b)) : n + min b.length size ≤ x.2 := by
  rw [cut] at h
  split at h
  · rcases List.mem_cons.mp h with rfl | h
    · dsimp only
      rw [List.length_take]
      omega
    · have := (bounds_of_mem_ends h).1
      rw [List.length_take] at this
      omega
  · rw [List.mem_singleton.mp h]
    dsimp only
    omega

theorem within_of_short {done : List Chunk} {m : Nat}
    (hfront : (done.flatMap (·.data)).length ≤ m)
    (hshort : m < (done.flatMap (·.data)).length + min b.length size) (n : Nat) :
    ((ends n (done ++ cut size fin binary b)).filter (·.2 ≤ n + m)).map (·.1) = done := by
  have hdone : (ends n done).filter (·.2 ≤ n + m) = ends n done := by
    refine List.filter_eq_self.mpr fun x hx => decide_eq_true ?_
    have := (bounds_of_mem_ends hx).2
    omega
  have hnext : (ends (n + (done.flatMap (·.data)).length) (cut size fin binary b)).filter
      (·.2 ≤ n + m) = [] := by
    refine List.filter_eq_nil_iff.mpr fun x hx hle => ?_
    have := le_of_mem_cut hx
    have := of_decide_eq_true hle
    omega
  rw [ends_append, List.filter_append, hdone, hnext, List.append_nil, map_fst_ends]

end Chunk

namespace Frame

variable {size n : Nat} {binary : Bool} {fs gs : List Frame} {x : Chunk × Nat}

theorem length_bytes (f : Frame) : f.bytes.length = f.header.encode.length + f.payload.length := by
  rw [bytes_eq, List.length_append, length_maskWith]

theorem partEnds_append (size n : Nat) (binary : Bool) (fs gs : List Frame) :
    partEnds size n binary (fs ++ gs) = partEnds size n binary fs ++
      partEnds size (n + (rowBytes fs).length) (lastBinary binary fs) gs := by
  induction fs generalizing n binary with
  | nil => rfl
  | cons f fs ih =>
    rw [List.cons_append, partEnds, partEnds, ih, rowBytes_cons, List.length_append,
      List.append_assoc, Nat.add_assoc]
    rfl

theorem map_fst_partEnds (size n : Nat) (binary : Bool) (fs : List Frame) :
    (partEnds size n binary fs).map (·.1) = rowChunks size binary fs := by
  induction fs generalizing n binary with
  | nil => rfl
  | cons f fs ih =>
    rw [partEnds, rowChunks, List.map_append, ih]
    split
    · next hc => rw [binaryAfter_control hc, List.map_nil, List.nil_append]
    · rw [Chunk.map_fst_ends]

theorem bounds_of_mem_partEnds (h : x ∈ partEnds size n binary fs) :
    n < x.2 ∧ x.2 ≤ n + (rowBytes fs).length := by
  induction fs generalizing n binary with
  | nil => cases h
  | cons f fs ih =>
    have hhead : 0 < f.header.encode.length := List.length_pos_of_ne_nil (by simp [Header.encode])
    rw [rowBytes_cons, List.length_append]
    rcases List.mem_append.mp h with h | h
    · split at h
      · cases h
      · have := Chunk.bounds_of_mem_ends h
        rw [Chunk.data_cut] at this
        rw [length_bytes]
        omega
    · have := ih h
      have := List.length_pos_of_ne_nil f.bytes_ne_nil
      omega

/-- The parts within the front of a row: those of the frames before a place, and those behind it. -/
theorem partsWithin_append (size m : Nat) (fs gs : List Frame) :
    partsWithin size ((rowBytes fs).length + m) (fs ++ gs) = rowChunks size false fs ++
      ((partEnds size (rowBytes fs).length (lastBinary false fs) gs).filter
        (·.2 ≤ (rowBytes fs).length + m)).map (·.1) := by
  have hfront : (partEnds size 0 false fs).filter (·.2 ≤ (rowBytes fs).length + m) =
      partEnds size 0 false fs := by
    refine List.filter_eq_self.mpr fun x hx => decide_eq_true ?_
    have := (bounds_of_mem_partEnds hx).2
    omega
  rw [partsWithin, partEnds_append, List.filter_append, hfront, List.map_append, map_fst_partEnds,
    Nat.zero_add]

/-- If a row is cut off inside its first frame, its parts within are parts of that frame. -/
theorem filter_partEnds_cons {m : Nat} {w : Frame} (h : m < w.bytes.length) (size n : Nat)
    (binary : Bool) (more : List Frame) :
    (partEnds size n binary (w :: more)).filter (·.2 ≤ n + m) =
      (partEnds size n binary [w]).filter (·.2 ≤ n + m) := by
  have hbehind : (partEnds size (n + w.bytes.length) (w.header.opcode.binaryAfter binary)
      more).filter (·.2 ≤ n + m) = [] := by
    refine List.filter_eq_nil_iff.mpr fun x hx hle => ?_
    have := (bounds_of_mem_partEnds hx).1
    have := of_decide_eq_true hle
    omega
  rw [partEnds, List.filter_append, hbehind, partEnds, partEnds, List.append_nil, List.append_nil]

end Frame

namespace Endpoint

open Reader

variable {d : Endpoint} {fed : Bytes} {fs ws more : List Frame} {w : Frame}

theorem next_parts_of_short {b tail : Bytes} {done : List Chunk}
    (hplace : d.reader.Place d.rules fs b) (hdone : d.reader.stage.Begun d.config.partSize done)
    (hreads : d.reader.reads.toList =
      (Frame.rowChunks d.config.partSize false fs ++ done).map .chunk)
    (hshort : d.reader.input.bytes.length < d.wanted)
    (hw : Frame.Offered d.rules (fs ++ w :: more)) (hwhole : ∀ v ∈ fs ++ w :: more, v.Whole)
    (hb : b ++ d.reader.input.bytes ++ tail = Frame.rowBytes (w :: more)) (n : Nat) :
    ((Frame.partEnds d.config.partSize n (Frame.lastBinary false fs) [w]).filter
      (·.2 ≤ n + (b ++ d.reader.input.bytes).length)).map (·.1) = done := by
  have hrow := hw.row.of_append
  have hrsv : ∀ v ∈ w :: more, v.header.rsv < 8 := fun v hv => hw.rsv_lt v (by simp [hv])
  rw [Frame.partEnds, Frame.partEnds, List.append_nil]
  cases hs : d.reader.stage with
  | header p =>
    -- the header is not complete
    rw [hs] at hdone
    subst hdone
    rw [wanted, hs] at hshort
    obtain ⟨hreached, -, -⟩ := hplace.at_header hs
    rw [Frame.rowBytes_cons, Frame.bytes_eq, List.append_assoc, List.append_assoc] at hb
    have hlen := (hreached.along (hw.admits w (by simp)) hb).length
    dsimp only at hshort
    refine List.map_eq_nil_iff.mpr (List.filter_eq_nil_iff.mpr fun x hx hle => ?_)
    have hle := of_decide_eq_true hle
    rw [List.length_append] at hle
    split at hx
    · cases hx
    · have := (Chunk.bounds_of_mem_ends hx).1
      omega
  | data f =>
    rw [hs] at hdone
    rw [wanted, hs] at hshort
    obtain ⟨part, rfl, hin⟩ := hplace.at_data hs
    have hpart := hin.part_eq (fun g hg => hwhole g (List.mem_append_left _ hg)) hreads hdone
    have hann := hin.announced
    have hlen := hin.length
    rw [List.append_assoc] at hb
    obtain ⟨v, vs, tail', hv, hh, hp⟩ := Frame.part_of_row hin.rsv (by omega) hrow hrsv hb
    obtain ⟨rfl, rfl⟩ := List.cons.inj hv
    have htail : tail'.length = f.remaining := by
      have hw : w.Whole := hwhole w (by simp)
      rw [Frame.Whole, hp, hh, List.length_append] at hw
      omega
    rw [hh, if_neg (by simp [hin.data]), ← hin.kind, hp, ← hpart, ← hdone.cut tail' htail,
      List.length_append, List.length_append, length_maskWith, Nat.add_assoc f.header.encode.length,
      ← Nat.add_assoc n]
    have hchunk : chunkLength d.config f = min f.remaining d.config.partSize := rfl
    dsimp only at hshort
    refine Chunk.within_of_short ?_ ?_ _ <;> rw [hpart] <;> omega
  | control c =>
    rw [hs] at hdone
    subst hdone
    obtain ⟨rfl, hlt, hop, -⟩ := hplace.at_control hs
    have hb : c.encode ++ maskWith c.mask 0 [] ++ (d.reader.input.bytes ++ tail) =
        Frame.rowBytes (w :: more) := by
      rw [maskWith_nil, List.append_nil, ← hb, List.append_assoc]
    obtain ⟨v, vs, tail', hv, hh, -⟩ := Frame.part_of_row hlt (Nat.zero_le _) hrow hrsv hb
    obtain ⟨rfl, rfl⟩ := List.cons.inj hv
    rw [hh, if_pos hop]
    rfl
  | answer payload =>
    rw [wanted, hs] at hshort
    exact absurd hshort (Nat.not_lt_zero _)

/-- A reader for which not enough has come in has handed out the parts that have come in whole. -/
theorem parts_of_short (hh : d.reader.Handed d.config.partSize fs)
    (hplaced : d.reader.Placed d.rules fed fs) (hw : Frame.Offered d.rules ws)
    (hwhole : ∀ w ∈ ws, w.Whole) (hfed : fed <+: Frame.rowBytes ws)
    (hshort : d.reader.input.bytes.length < d.wanted) :
    d.reader.reads.toList =
      (Frame.partsWithin d.config.partSize fed.length ws).map .chunk := by
  obtain ⟨⟨done, hreads, hdone⟩, -⟩ := hh
  obtain ⟨b, hplace, rfl⟩ := hplaced.place
  obtain ⟨rest, tail, rfl, hrest⟩ := hplaced.rest hw hfed
  rw [hreads, List.append_assoc, List.length_append, Frame.partsWithin_append]
  suffices hnext : ((Frame.partEnds d.config.partSize (Frame.rowBytes fs).length
      (Frame.lastBinary false fs) rest).filter (·.2 ≤ (Frame.rowBytes fs).length +
        (b ++ d.reader.input.bytes).length)).map (·.1) = done by rw [hnext]
  rcases rest with - | ⟨w, more⟩
  · refine (hdone.eq_nil fun f hs => ?_).symm
    obtain ⟨part, rfl, -⟩ := hplace.at_data hs
    simp [Header.encode] at hrest
  · have hlt := next_incomplete hplace hshort hw hrest (hwhole w (by simp))
    rw [Frame.filter_partEnds_cons hlt]
    exact next_parts_of_short hplace hdone hreads hshort hw hwhole hrest _

/-- A reader for which not enough has come in stands where the bytes end between two frames. -/
theorem cleanCut_iff_of_short (hplaced : d.reader.Placed d.rules fed fs)
    (hw : Frame.Offered d.rules ws) (hwhole : ∀ w ∈ ws, w.Whole) (hfed : fed <+: Frame.rowBytes ws)
    (hshort : d.reader.input.bytes.length < d.wanted) :
    Frame.CleanCut ws fed ↔ (d.reader.stage = .header .start ∧ d.reader.input.bytes = []) ∧
      d.reader.sequencing.isFragmented = false := by
  obtain ⟨b, hplace, hb⟩ := hplaced.place
  constructor
  · rintro ⟨gs, hgs, hend, hopen⟩
    have hread := read_of_short hplaced hw hfed hshort
      (fun g hg => ⟨hwhole g (hgs.subset hg), hw.rsv_lt g (hgs.subset hg)⟩) (hend ▸ List.prefix_rfl)
    obtain ⟨as, rfl⟩ := hread
    rw [← hend, Frame.rowBytes_append, List.append_assoc, List.append_assoc,
      List.self_eq_append_right, List.append_eq_nil_iff, List.append_eq_nil_iff] at hb
    obtain ⟨has, rfl, hbytes⟩ := hb
    -- no frame is without bytes, so no frame has been read behind the cut
    have has : as = [] := by
      cases as with
      | nil => rfl
      | cons a as =>
        rw [Frame.rowBytes_cons, List.append_eq_nil_iff] at has
        exact absurd has.1 a.bytes_ne_nil
    rw [has, List.append_nil] at hplace
    cases hs : d.reader.stage with
    | header p =>
      obtain ⟨hreached, -, hq⟩ := hplace.at_header hs
      rw [hreached.eq_start_iff.mpr rfl, ← Frame.isOpen_messages hq]
      exact ⟨⟨rfl, hbytes⟩, hopen⟩
    | data f =>
      obtain ⟨part, hnil, -⟩ := hplace.at_data hs
      simp [Header.encode] at hnil
    | control c =>
      obtain ⟨hnil, -⟩ := hplace.at_control hs
      simp [Header.encode] at hnil
    | answer payload =>
      rw [wanted, hs] at hshort
      exact absurd hshort (Nat.not_lt_zero _)
  · rintro ⟨⟨hs, hbytes⟩, hfrag⟩
    obtain ⟨hreached, -, hq⟩ := hplace.at_header hs
    obtain rfl := hreached.eq_start_iff.mp rfl
    have hfed' := hfed
    rw [hb] at hfed'
    obtain ⟨rest, -, rfl, -⟩ := hplaced.rest hw hfed'
    refine ⟨fs, List.prefix_append _ _, ?_, (Frame.isOpen_messages hq).trans hfrag⟩
    rw [hb, hbytes, List.append_nil, List.append_nil]

end Endpoint

end WebSocket
