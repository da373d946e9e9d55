import Mathlib.Data.List.Forall2
import WebSocket.Proofs.Frame
import WebSocket.Proofs.Header.Shortest

/-! Buffers of frames. A buffer is read frame by frame until what is left does not begin with a
whole frame. The frames stand for pieces of the buffer that follow each other, and each piece is
read for itself. -/

namespace WebSocket.Frame

/-! Reading one frame. -/

variable {b c : Bytes} {f : Frame} {used : Nat}

theorem parse?_take (h : parse? b = some (f, used)) : parse? (b.take used) = some (f, used) := by
  have hle := (used_of_parse? h).2
  simp only [parse?, Option.bind_eq_bind, Option.bind_eq_some_iff] at h
  obtain ⟨⟨hd, n⟩, hhead, ⟨body, r⟩, hbody, hf⟩ := h
  obtain ⟨hlen, hrest⟩ := length_of_splitAt? hbody
  obtain rfl : n + hd.payloadLength.toNat = used := congrArg Prod.snd (Option.some.inj hf)
  have hshort : Header.decode? (b.take (n + hd.payloadLength.toNat)) = some (hd, n) :=
    Header.decode?_congr hhead (by rw [List.take_take, Nat.min_eq_left (Nat.le_add_right _ _)])
  have hdrop : (b.take (n + hd.payloadLength.toNat)).drop n = body ++ [] := by
    rw [List.drop_take, Nat.add_sub_cancel_left, hrest, ← hlen, List.take_left, List.append_nil]
  simp only [parse?, Option.bind_eq_bind, hshort, Option.bind_some, hdrop, splitAt?_append hlen]
  exact hf

/-- A number that can be counted up to. -/
def countable? (limit n : Nat) : Option Nat := if n ≤ limit then some n else none

def slice? (start stop : Nat) (b : Bytes) : Option Bytes :=
  if start ≤ stop ∧ stop ≤ b.length then some ((b.drop start).take (stop - start)) else none

/-- The frame at the front, read by one who cannot count beyond a limit. Where the announced length
or the end of the frame is out of reach, the frame is not there whole. -/
def parseWithin? (limit : Nat) (b : Bytes) : Option (Frame × Nat) := do
  let (h, used) ← Header.decode? b
  let length ← countable? limit h.payloadLength.toNat
  let stop ← countable? limit (used + length)
  let body ← slice? used stop b
  some (⟨h, maskWith h.mask 0 body⟩, stop)

/-- One who can count the bytes of a buffer need not count further. -/
theorem parseWithin?_eq {limit : Nat} (hb : b.length ≤ limit) : parseWithin? limit b = parse? b := by
  unfold parseWithin? parse?
  cases hd : Header.decode? b with
  | none => rfl
  | some r =>
    obtain ⟨h, n⟩ := r
    have hn := (Header.used_of_decode? hd).2
    simp only [Option.bind_eq_bind, Option.bind_some]
    by_cases hfit : n + h.payloadLength.toNat ≤ b.length
    · have hslice : slice? n (n + h.payloadLength.toNat) b =
          some ((b.drop n).take h.payloadLength.toNat) := by
        rw [slice?, if_pos ⟨Nat.le_add_right _ _, hfit⟩, Nat.add_sub_cancel_left]
      have hsplit : splitAt? h.payloadLength.toNat (b.drop n) =
          some ((b.drop n).take h.payloadLength.toNat, (b.drop n).drop h.payloadLength.toNat) := by
        rw [splitAt?, if_pos (by rw [List.length_take, List.length_drop]; omega)]
      rw [countable?, if_pos (by omega), Option.bind_some, countable?, if_pos (by omega),
        Option.bind_some, hslice, hsplit, Option.bind_some, Option.bind_some]
    · have hsplit : splitAt? h.payloadLength.toNat (b.drop n) = none := by
        rw [splitAt?, if_neg (by rw [List.length_take, List.length_drop]; omega)]
      have hslice : slice? n (n + h.payloadLength.toNat) b = none := by
        rw [slice?, if_neg (by omega)]
      rw [hsplit, Option.bind_none, countable?]
      split
      · rw [Option.bind_some, countable?]
        split
        · rw [Option.bind_some, hslice, Option.bind_none]
        · rfl
      · rfl

/-! Reading frame after frame. -/

/-- Frames are read one after the other, each by the same rule, until the rule gives none. -/
inductive Reads (rule : Bytes → Option (Frame × Nat)) : Bytes → List Frame → Bytes → Prop where
  | stop {b : Bytes} (h : rule b = none) : Reads rule b [] b
  | next {b rest : Bytes} {f : Frame} {used : Nat} {fs : List Frame} (h : rule b = some (f, used))
      (hs : Reads rule (b.drop used) fs rest) : Reads rule b (f :: fs) rest

/-- The bytes are those of the frame, and are read as such whatever follows them. -/
def IsPiece (f : Frame) (p : Bytes) : Prop :=
  p ≠ [] ∧ ∀ back, parse? (p ++ back) = some (f, p.length)

theorem isPiece_take (h : parse? b = some (f, used)) : IsPiece f (b.take used) := by
  obtain ⟨hpos, hle⟩ := used_of_parse? h
  have hlen : (b.take used).length = used := List.length_take_of_le hle
  refine ⟨fun hnil => ?_, fun back => ?_⟩
  · rw [hnil, List.length_nil] at hlen
    omega
  · rw [hlen]
    exact parse?_append (parse?_take h) back

theorem exists_reads (b : Bytes) : ∃ rest, Reads parse? b (parseAll b) rest := by
  fun_induction parseAll b with
  | case1 b f used hp ih =>
    obtain ⟨rest, hs⟩ := ih
    exact ⟨rest, .next hp hs⟩
  | case2 b hp => exact ⟨b, .stop hp⟩

namespace Reads

variable {rest rest' : Bytes} {fs gs : List Frame}

theorem parseAll_eq (h : Reads parse? b fs rest) : parseAll b = fs := by
  induction h with
  | stop hp => exact parseAll_of_none hp
  | next hp _ ih => rw [parseAll_cons hp, ih]

theorem rest_eq_none {rule : Bytes → Option (Frame × Nat)} (h : Reads rule b fs rest) :
    rule rest = none := by
  induction h with
  | stop hp => exact hp
  | next _ _ ih => exact ih

theorem length_le (h : Reads parse? b fs rest) : 2 * fs.length + rest.length ≤ b.length := by
  induction h with
  | stop => simp
  | next hp _ ih =>
    have := used_of_parse? hp
    rw [List.length_drop] at ih
    rw [List.length_cons]
    omega

theorem pieces (h : Reads parse? b fs rest) :
    ∃ ps : List Bytes, b = ps.flatten ++ rest ∧ List.Forall₂ IsPiece fs ps := by
  induction h with
  | stop => exact ⟨[], rfl, .nil⟩
  | @next b rest f used fs hp _ ih =>
    obtain ⟨ps, hps, hpieces⟩ := ih
    refine ⟨b.take used :: ps, ?_, .cons (isPiece_take hp) hpieces⟩
    rw [List.flatten_cons, List.append_assoc, ← hps, List.take_append_drop]

theorem append (h : Reads parse? b fs []) (h' : Reads parse? c gs rest) :
    Reads parse? (b ++ c) (fs ++ gs) rest := by
  generalize hnil : ([] : Bytes) = left at h
  induction h with
  | stop => exact hnil ▸ h'
  | @next b left f used fs hp _ ih =>
    refine .next (parse?_append hp c) ?_
    rw [List.drop_append_of_le_length (used_of_parse? hp).2]
    exact ih hnil

/-- Two rules that agree on all that is no longer than the buffer read the same. -/
theorem congr {rule rule' : Bytes → Option (Frame × Nat)} (h : Reads rule b fs rest)
    (hrule : ∀ c : Bytes, c.length ≤ b.length → rule' c = rule c) : Reads rule' b fs rest := by
  induction h with
  | stop hp => exact .stop ((hrule _ (Nat.le_refl _)).trans hp)
  | next hp _ ih =>
    refine .next ((hrule _ (Nat.le_refl _)).trans hp) (ih fun c hc => hrule c ?_)
    exact Nat.le_trans hc (List.length_drop ▸ Nat.sub_le _ _)

end Reads

/-- What is known of the frames read from a buffer, and of what is left. -/
structure ReadOff (b : Bytes) (fs : List Frame) (rest : Bytes) : Prop where
  reads : Reads parse? b fs rest
  few : 2 * fs.length + rest.length ≤ b.length
  pieces : ∃ ps : List Bytes, b = ps.flatten ++ rest ∧ List.Forall₂ IsPiece fs ps
  noMore : parse? rest = none
  /-- It makes no difference if numbers are counted only as far as the buffer is long. -/
  counted : ∀ limit, b.length ≤ limit → Reads (parseWithin? limit) b fs rest

theorem Reads.readOff {rest : Bytes} {fs : List Frame} (h : Reads parse? b fs rest) :
    ReadOff b fs rest :=
  ⟨h, h.length_le, h.pieces, h.rest_eq_none, fun _ hlimit =>
    h.congr fun _ hc => parseWithin?_eq (Nat.le_trans hc hlimit)⟩

/-- Frames written one after the other are read back, up to bytes that do not begin with a whole
frame. Whatever a buffer holds, reading it comes to an end with the frames of consecutive pieces,
and it goes on behind a buffer of which nothing is left. -/
theorem parseAll_exact :
    (∀ (fs : List Frame) (t : Bytes), (∀ f ∈ fs, f.header.rsv ≤ 7 ∧ f.Whole) → parse? t = none →
      parseAll (fs.flatMap (fun f => build f.header f.payload) ++ t) = fs) ∧
    (∀ b : Bytes, ∃ rest, ReadOff b (parseAll b) rest) ∧
    ∀ a b : Bytes, Reads parse? a (parseAll a) [] →
      parseAll (a ++ b) = parseAll a ++ parseAll b := by
  refine ⟨fun fs t hfs ht => ?_, fun b => ?_, fun a b ha => ?_⟩
  · have hrow := parseAll_rowBytes_append fs
      (fun f hf => ⟨(hfs f hf).2, UInt8.lt_iff_toNat_lt.mpr (Nat.lt_succ_of_le (hfs f hf).1)⟩) t
    rwa [parseAll_of_none ht, List.append_nil] at hrow
  · obtain ⟨rest, h⟩ := exists_reads b
    exact ⟨rest, h.readOff⟩
  · obtain ⟨rest, hb⟩ := exists_reads b
    exact (ha.append hb).parseAll_eq

/-- A masked text frame and a ping. Behind them stands the start of a frame that announces more
bytes than can be counted, or a pong. -/
theorem parseAll_exact_two :
    let fs : List Frame :=
      [⟨.plain true .text 2 (some ⟨1, 2, 3, 4⟩), [0x68, 0x69]⟩, ⟨.plain true .ping 0 none, []⟩]
    let a : Bytes := [0x81, 0x82, 1, 2, 3, 4, 0x69, 0x6b, 0x89, 0]
    let t : Bytes := [0x82, 0x7f, 0xff, 0xff, 0xff, 0xff, 0xff, 0xff, 0xff, 0xff, 0x61]
    (∀ f ∈ fs, f.header.rsv ≤ 7 ∧ f.Whole) ∧ parse? t = none ∧
      fs.flatMap (fun f => build f.header f.payload) = a ∧ parseAll (a ++ t) = fs ∧
      Reads parse? a (parseAll a) [] ∧ parseAll (a ++ [0x8a, 0]) = fs ++ parseAll [0x8a, 0] := by
  intro fs a t
  have hfs : ∀ f ∈ fs, f.header.rsv ≤ 7 ∧ f.Whole := by decide
  have ht : parse? t = none := by decide
  have ha : fs.flatMap (fun f => build f.header f.payload) = a := by decide
  have hfirst : parse? a = some (fs[0], 8) := by decide
  have hsecond : parse? (a.drop 8) = some (fs[1], 2) := by decide
  have hreads : Reads parse? a fs [] := .next hfirst (.next hsecond (.stop (by decide)))
  have hall : parseAll a = fs := hreads.parseAll_eq
  exact ⟨hfs, ht, ha, ha ▸ parseAll_exact.1 fs t hfs ht, hall ▸ hreads,
    (parseAll_exact.2.2 a _ (hall ▸ hreads)).trans (congrArg (· ++ _) hall)⟩

end WebSocket.Frame
