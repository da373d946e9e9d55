import WebSocket.Proofs.Source

/-! Exact reads one after the other, against a reference that knows nothing but the row of bytes and
faults. Failed reads are among them, and the reads go on after those. -/

namespace WebSocket

open Coming

/-- An exact read of `n` bytes, and what is to come after it. -/
inductive Coming.ReadsExactly (n : Nat) :
    Coming → Except Fault (Option Bytes) → Coming → Prop where
  | bytes (b : Bytes) (xs : Coming) (hlen : b.length = n) :
      ReadsExactly n (b.map .ok ++ xs) (.ok (some b)) xs
  /-- A fault comes first. It is dropped, with the bytes before it. -/
  | fault (b : Bytes) (f : Fault) (xs : Coming) (hlt : b.length < n) :
      ReadsExactly n (b.map .ok ++ .error f :: xs) (.error f) xs
  | ended (hn : 0 < n) : ReadsExactly n [] (.ok none) []
  | cut (b : Bytes) (hne : b ≠ []) (hlt : b.length < n) :
      ReadsExactly n (b.map .ok) (.error (.unexpectedEof "stream ended inside a frame")) []

inductive Coming.ReadsEach :
    List Nat → Coming → List (Except Fault (Option Bytes)) → Coming → Prop where
  | nil (xs : Coming) : ReadsEach [] xs [] xs
  | cons {n : Nat} {ns : List Nat} {xs ys zs : Coming} {r : Except Fault (Option Bytes)}
      {rs : List (Except Fault (Option Bytes))} (h : ReadsExactly n xs r ys)
      (hs : ReadsEach ns ys rs zs) : ReadsEach (n :: ns) xs (r :: rs) zs

namespace Coming

variable {n : Nat} {ns : List Nat} {xs ys : Coming} {r : Except Fault (Option Bytes)}
  {rs : List (Except Fault (Option Bytes))}

theorem takeExactly_fault (b : Bytes) (f : Fault) (xs : Coming) (hlt : b.length < n) :
    takeExactly n (b.map .ok ++ .error f :: xs) = (.error f, xs) := by
  obtain ⟨m, hm⟩ : ∃ m, n - b.length = m + 1 := ⟨n - b.length - 1, by omega⟩
  rw [takeExactly, takeRest_bytes b (Nat.le_of_lt hlt), hm, takeRest]

theorem ReadsExactly.takeExactly_eq (h : ReadsExactly n xs r ys) : takeExactly n xs = (r, ys) := by
  cases h with
  | bytes b _ hlen => exact hlen ▸ takeExactly_bytes b ys
  | fault b f _ hlt => exact takeExactly_fault b f ys hlt
  | ended hn => exact takeExactly_short [] hn
  | cut b hne hlt => rw [takeExactly_short b hlt, if_neg hne]

theorem ReadsExactly.cons (x : UInt8) (h : ReadsExactly n xs r ys) :
    ∃ r', ReadsExactly (n + 1) (.ok x :: xs) r' ys := by
  cases h with
  | bytes b _ hlen => exact ⟨_, .bytes (x :: b) ys (congrArg Nat.succ hlen)⟩
  | fault b f _ hlt => exact ⟨_, .fault (x :: b) f ys (Nat.succ_lt_succ hlt)⟩
  | ended hn => exact ⟨_, .cut [x] (List.cons_ne_nil x []) (Nat.succ_lt_succ hn)⟩
  | cut b _ hlt => exact ⟨_, .cut (x :: b) (List.cons_ne_nil x b) (Nat.succ_lt_succ hlt)⟩

theorem exists_readsExactly (n : Nat) (xs : Coming) : ∃ r ys, ReadsExactly n xs r ys := by
  induction xs generalizing n with
  | nil =>
    cases n with
    | zero => exact ⟨_, _, .bytes [] [] rfl⟩
    | succ n => exact ⟨_, _, .ended n.succ_pos⟩
  | cons x xs ih =>
    cases n with
    | zero => exact ⟨_, _, .bytes [] (x :: xs) rfl⟩
    | succ n =>
      cases x with
      | error f => exact ⟨_, _, .fault [] f xs n.succ_pos⟩
      | ok x =>
        obtain ⟨r, ys, h⟩ := ih n
        obtain ⟨r', h'⟩ := h.cons x
        exact ⟨r', ys, h'⟩

theorem readsExactly_iff : ReadsExactly n xs r ys ↔ takeExactly n xs = (r, ys) := by
  -- the reference reads something from every row, and so nothing but this
  refine ⟨ReadsExactly.takeExactly_eq, fun h => ?_⟩
  obtain ⟨r', ys', h'⟩ := exists_readsExactly n xs
  obtain ⟨rfl, rfl⟩ := Prod.mk.inj (h'.takeExactly_eq.symm.trans h)
  exact h'

/-- If all reads succeed, then what they have brought is what has come, in order and in the sizes
asked for. -/
theorem ReadsEach.eq_flatten {bs : List Bytes} (h : ReadsEach ns xs rs ys)
    (hrs : rs = bs.map (.ok ∘ some)) :
    bs.map List.length = ns ∧ xs = bs.flatten.map .ok ++ ys := by
  induction h generalizing bs with
  | nil =>
    obtain rfl := List.map_eq_nil_iff.mp hrs.symm
    exact ⟨rfl, rfl⟩
  | cons h _ ih =>
    obtain ⟨b, bs, rfl, rfl, hrest⟩ := List.map_eq_cons_iff.mp hrs.symm
    obtain ⟨rfl, rfl⟩ := ih hrest.symm
    cases h with
    | bytes b _ hlen =>
      refine ⟨congrArg (· :: _) hlen, ?_⟩
      rw [List.flatten_cons, List.map_append, List.append_assoc]

end Coming

/-- What is known of exact reads from a row of bytes and faults, from their results and what they
leave. -/
structure ReadsAs (ns : List Nat) (xs : Coming)
    (got : List (Except Fault (Option Bytes)) × Coming) : Prop where
  reads : ∀ rs ys, ReadsEach ns xs rs ys ↔ got = (rs, ys)
  whole : ∀ bs : List Bytes, got.1 = bs.map (.ok ∘ some) →
    bs.map List.length = ns ∧ xs = bs.flatten.map .ok ++ got.2

theorem ReadsAs.unique {ns : List Nat} {xs : Coming}
    {got got' : List (Except Fault (Option Bytes)) × Coming} (h : ReadsAs ns xs got)
    (h' : ReadsAs ns xs got') : got = got' :=
  (h.reads _ _).mp ((h'.reads _ _).mpr rfl)

theorem readsEach_iff {σ : Type} {read : σ → Nat → Except Fault (Option Bytes) × σ}
    {coming : σ → Coming}
    (hread : ∀ s n, ((read s n).1, coming (read s n).2) = takeExactly n (coming s)) (s : σ)
    (ns : List Nat) (rs : List (Except Fault (Option Bytes))) (ys : Coming) :
    ReadsEach ns (coming s) rs ys ↔
      ((readEach read s ns).1, coming (readEach read s ns).2) = (rs, ys) := by
  induction ns generalizing s rs with
  | nil =>
    constructor
    · rintro ⟨⟩
      rfl
    · rintro ⟨⟩
      exact .nil _
  | cons n ns ih =>
    constructor
    · intro h
      cases h with
      | cons h hs =>
        obtain ⟨rfl, rfl⟩ := Prod.mk.inj ((hread s n).trans h.takeExactly_eq)
        obtain ⟨rfl, rfl⟩ := Prod.mk.inj ((ih _ _).mp hs)
        rfl
    · rintro ⟨⟩
      exact .cons (readsExactly_iff.mpr (hread s n).symm) ((ih _ _).mpr rfl)

theorem readsAs {σ : Type} {read : σ → Nat → Except Fault (Option Bytes) × σ} {coming : σ → Coming}
    (hread : ∀ s n, ((read s n).1, coming (read s n).2) = takeExactly n (coming s)) (s : σ)
    (ns : List Nat) :
    ReadsAs ns (coming s) ((readEach read s ns).1, coming (readEach read s ns).2) where
  reads := readsEach_iff hread s ns
  whole _ hbs := ((readsEach_iff hread s ns _ _).mpr rfl).eq_flatten hbs

namespace Source

theorem readsAs_ofSegments (capacity : Nat) (segments : List Segment) (ns : List Nat) :
    let r := readEach readExactly (ofSegments capacity segments) ns
    ReadsAs ns (segments.flatMap Segment.items) (r.1, r.2.coming) :=
  readsAs readExactly_eq (ofSegments capacity segments) ns

/-- Exact reads go by the bytes and the faults alone: through any reader that holds bytes of one
read at most, and through a source of any capacity, from segments that are cut in any way. -/
theorem reads_by_coming (ns : List Nat) :
    (∀ {σ : Type} (l : ReadLayer σ), l.HoldsOneRead → ∀ s,
      let r := readEach l.readExactly s ns
      ReadsAs ns (l.coming s) (r.1, l.coming r.2)) ∧
    (∀ capacity segments,
      let r := readEach readExactly (ofSegments capacity segments) ns
      ReadsAs ns (segments.flatMap Segment.items) (r.1, r.2.coming)) ∧
    ∀ capacity segments capacity' segments',
      segments.flatMap Segment.items = segments'.flatMap Segment.items →
      (readEach readExactly (ofSegments capacity segments) ns).1 =
        (readEach readExactly (ofSegments capacity' segments') ns).1 := by
  refine ⟨fun l hl s => readsAs hl.readExactly_eq s ns,
    fun capacity segments => readsAs_ofSegments capacity segments ns,
    fun capacity segments capacity' segments' hsame => ?_⟩
  have h := readsAs_ofSegments capacity segments ns
  rw [hsame] at h
  exact (Prod.mk.inj (h.unique (readsAs_ofSegments capacity' segments' ns))).1

/-- Six reads over a fault and beyond the end: without a buffer, and from the same bytes cut
otherwise through a buffer of three bytes. -/
theorem reads_by_coming_over_fault :
    let ns := [1, 0, 3, 2, 2, 1]
    let reset : Fault := ⟨.connectionReset, "reset"⟩
    let whole := ofSegments 0 [.data [1, 2], .fault reset, .data [3, 4, 5]]
    let cut := ofSegments 3 [.data [1], .data [2], .fault reset, .data [3], .data [4, 5]]
    (readEach layer.readExactly whole ns).1 = [.ok (some [1]), .ok (some []), .error reset,
        .ok (some [3, 4]), .error (.unexpectedEof "stream ended inside a frame"), .ok none] ∧
      (readEach readExactly whole ns).1 = (readEach readExactly cut ns).1 := by
  intro ns reset whole cut
  have h := (reads_by_coming ns).1 layer layer_holdsOneRead whole
  refine ⟨congrArg Prod.fst ((h.reads _ []).mp ?_), (reads_by_coming ns).2.2 _ _ _ _ rfl⟩
  exact .cons (.bytes [1] _ rfl) <| .cons (.bytes [] _ rfl) <|
    .cons (.fault [2] reset _ (by decide)) <| .cons (.bytes [3, 4] _ rfl) <|
    .cons (.cut [5] (by decide) (by decide)) <| .cons (.ended (by decide)) <| .nil _

end Source

end WebSocket
