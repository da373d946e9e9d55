import WebSocket.Proofs.Utf8.Prefixes
import WebSocket.Utf8.Buffered

/-! Text checked in pieces, wherever it is cut. The first piece that is refused is the first at whose
end the text begins no well-formed one. No access goes outside of the buffer, also after a refusal. -/

namespace WebSocket.Utf8

/-! Judgements piece by piece. -/

namespace Validator

open Cursor

/-- Feeds pieces one after another. For each it is told whether it was taken and whether no character
was unfinished after it. -/
def feedAll (v : Validator) : List Bytes → List (Bool × Bool)
  | [] => []
  | piece :: pieces =>
    ((v.feed piece).1, (v.feed piece).2.isComplete) :: (v.feed piece).2.feedAll pieces

theorem length_feedAll (v : Validator) (pieces : List Bytes) :
    (v.feedAll pieces).length = pieces.length := by
  induction pieces generalizing v with
  | nil => rfl
  | cons piece pieces ih => rw [feedAll, List.length_cons, List.length_cons, ih]

theorem getElem?_feedAll {c d : Cursor} (hc : Standing c) {pieces : List Bytes} {n : Nat}
    {piece : Bytes} (hd : c.run (pieces.take n).flatten = some d) (hn : pieces[n]? = some piece) :
    ((⟨c.seen⟩ : Validator).feedAll pieces)[n]? =
      some (((⟨d.seen⟩ : Validator).feed piece).1, ((⟨d.seen⟩ : Validator).feed piece).2.isComplete) := by
  induction pieces generalizing c n with
  | nil => cases hn
  | cons p pieces ih =>
    cases n with
    | zero =>
      cases hn
      cases hd
      rfl
    | succ n =>
      rw [List.take_succ_cons, List.flatten_cons, run_append] at hd
      obtain ⟨e, he, hd⟩ := Option.bind_eq_some_iff.mp hd
      have hfeed : (⟨c.seen⟩ : Validator).feed p = (true, ⟨e.seen⟩) := by
        rcases feed_eq hc p with ⟨hnone, -⟩ | ⟨e', he', hfeed⟩
        · rw [hnone] at he
          cases he
        · rw [he] at he'
          rwa [Option.some.inj he']
      rw [feedAll, List.getElem?_cons_succ, hfeed]
      exact ih (hc.run he) hd hn

variable {pieces : List Bytes} {piece : Bytes} {n : Nat} {d : Cursor}

theorem run_take_succ (hn : pieces[n]? = some piece) :
    rest.run (pieces.take (n + 1)).flatten =
      (rest.run (pieces.take n).flatten).bind (·.run piece) := by
  rw [List.take_add_one, hn, Option.toList_some, List.flatten_append, List.flatten_singleton,
    run_append]

abbrev Takes (answers : List (Bool × Bool)) (n : Nat) (taken : Bool) : Prop :=
  answers[n]?.map Prod.fst = some taken

/-- What is told of a piece as its bytes are taken one by one, or not. -/
theorem judged (hd : rest.run (pieces.take n).flatten = some d) (hn : pieces[n]? = some piece) :
    (rest.run (pieces.take (n + 1)).flatten = none ∧ Takes (new.feedAll pieces) n false) ∨
      ∃ c, rest.run (pieces.take (n + 1)).flatten = some c ∧
        (new.feedAll pieces)[n]? = some (true, c.seen.isEmpty) := by
  have htold := getElem?_feedAll .between hd hn
  rw [run_take_succ hn, hd, Option.bind_some]
  rcases feed_eq (Standing.between.run hd) piece with ⟨hnone, hfeed⟩ | ⟨c, hc, hfeed⟩
  · rw [hfeed] at htold
    exact .inl ⟨hnone, by rw [Takes, show (new : Validator) = ⟨rest.seen⟩ from rfl, htold]; rfl⟩
  · rw [hfeed] at htold
    exact .inr ⟨c, hc, htold⟩

theorem lt_of_takes {taken : Bool} (h : Takes (new.feedAll pieces) n taken) :
    n < pieces.length := by
  by_contra hge
  rw [Takes, List.getElem?_eq_none (by rw [length_feedAll]; omega)] at h
  cases h

theorem run_of_takes (h : ∀ m < n, Takes (new.feedAll pieces) m true) :
    ∃ d, rest.run (pieces.take n).flatten = some d := by
  induction n with
  | zero => exact ⟨rest, rfl⟩
  | succ n ih =>
    obtain ⟨d, hd⟩ := ih fun m hm => h m (Nat.lt_succ_of_lt hm)
    have htaken := h n (Nat.lt_succ_self n)
    rcases judged hd (List.getElem?_eq_getElem (lt_of_takes htaken)) with ⟨-, hrefused⟩ | ⟨c, hc, -⟩
    · rw [Takes, hrefused] at htaken
      cases htaken
    · exact ⟨c, hc⟩

abbrev upTo (pieces : List Bytes) (n : Nat) : Bytes := (pieces.take (n + 1)).flatten

/-- What is told of pieces against what they are as a whole. -/
structure Judges (pieces : List Bytes) (answers : List (Bool × Bool)) : Prop where
  /-- The first piece refused is the first at whose end the text begins no well-formed one. -/
  refused : ∀ n, (Takes answers n false ∧ ∀ m < n, Takes answers m true) ↔
    (n < pieces.length ∧ ¬ Begins (upTo pieces n)) ∧ ∀ m < n, Begins (upTo pieces m)
  complete : ∀ n, (∀ m ≤ n, Takes answers m true) →
    (answers[n]?.map Prod.snd = some true ↔ WellFormed (upTo pieces n))

theorem judges (pieces : List Bytes) : Judges pieces (new.feedAll pieces) := by
  constructor
  · intro n
    constructor
    · rintro ⟨hrefused, htaken⟩
      -- up to a piece that is refused all bytes have been taken, so the cursor stands before it
      obtain ⟨d, hd⟩ := run_of_takes htaken
      have hlt := lt_of_takes hrefused
      refine ⟨⟨hlt, ?_⟩, fun m hm => ?_⟩
      · rcases judged hd (List.getElem?_eq_getElem hlt) with ⟨hnone, -⟩ | ⟨c, -, htold⟩
        · rw [begins_iff_run, hnone]
          simp
        · rw [Takes, htold] at hrefused
          cases hrefused
      · exact begins_iff_run.mpr (run_of_takes fun k hk => htaken k (by omega))
    · rintro ⟨⟨hlt, hnot⟩, hbegins⟩
      have hrun : ∀ m ≤ n, ∃ d, rest.run (pieces.take m).flatten = some d := by
        rintro (_ | m) hm
        · exact ⟨rest, rfl⟩
        · exact begins_iff_run.mp (hbegins m hm)
      refine ⟨?_, fun m hm => ?_⟩
      · obtain ⟨d, hd⟩ := hrun n (Nat.le_refl n)
        rcases judged hd (List.getElem?_eq_getElem hlt) with ⟨-, hrefused⟩ | ⟨c, hc, -⟩
        · exact hrefused
        · exact absurd (begins_iff_run.mpr ⟨c, hc⟩) hnot
      · obtain ⟨d, hd⟩ := hrun m (Nat.le_of_lt hm)
        obtain ⟨c, hc⟩ := begins_iff_run.mp (hbegins m hm)
        have hm' : m < pieces.length := Nat.lt_trans hm hlt
        rcases judged hd (List.getElem?_eq_getElem hm') with ⟨hnone, -⟩ | ⟨c', -, htold⟩
        · rw [upTo, hnone] at hc
          cases hc
        · rw [Takes, htold]
          rfl
  · intro n htaken
    obtain ⟨d, hd⟩ := run_of_takes fun m hm => htaken m (Nat.le_of_lt hm)
    have hlt := lt_of_takes (htaken n (Nat.le_refl n))
    rcases judged hd (List.getElem?_eq_getElem hlt) with ⟨-, hrefused⟩ | ⟨c, hc, htold⟩
    · have htrue := htaken n (Nat.le_refl n)
      rw [Takes, hrefused] at htrue
      cases htrue
    · have hrest := (Standing.between.run hc).eq_rest
      rw [htold, wellFormed_iff_run, upTo, hc]
      simp only [Option.map_some, Option.some.injEq, List.isEmpty_iff]
      exact ⟨hrest, fun h => by rw [h]; rfl⟩

end Validator

/-! The buffer. -/

namespace BufferedValidator

def plain (v : BufferedValidator) : Validator := ⟨v.buffer.take v.used⟩

/-- The buffer has four bytes, and the pending ones are among them. -/
structure InBounds (v : BufferedValidator) : Prop where
  size : v.buffer.length = 4
  used : v.used ≤ 4

theorem overwrite?_eq (buffer : Bytes) (start : Nat) (b : Bytes)
    (h : start + b.length ≤ buffer.length) :
    ∃ after, overwrite? buffer start b = some after ∧ after.length = buffer.length ∧
      after.take (start + b.length) = buffer.take start ++ b := by
  have hfront : (buffer.take start ++ b).length = start + b.length := by
    rw [List.length_append, List.length_take_of_le (by omega)]
  refine ⟨_, if_pos h, ?_, ?_⟩
  · rw [List.length_append, hfront, List.length_drop]
    omega
  · rw [← hfront, List.take_left]

theorem characterLength_le (b : UInt8) : characterLength b ≤ 4 := by
  unfold characterLength
  split
  · omega
  · split <;> omega

theorem length_of_cut {piece tail : Bytes} (h : read piece = .cut tail) : tail.length ≤ 4 := by
  have hspec := read_spec piece
  rw [h] at hspec
  obtain ⟨-, front, -, -, -, more, ch, -, hch⟩ := hspec
  have hlen := congrArg List.length hch
  rw [String.length_utf8EncodeChar, List.length_append] at hlen
  have := ch.utf8Size_le_four
  omega

/-- What is done with the buffer is done with the pending bytes alone. -/
def Agrees (result : Option (Bool × BufferedValidator)) (plainly : Bool × Validator) : Prop :=
  ∃ v, result = some (plainly.1, v) ∧ v.InBounds ∧ v.plain = plainly.2

variable {v : BufferedValidator}

theorem feedFresh?_agrees (hv : v.InBounds) (hnone : v.used = 0) (piece : Bytes) :
    Agrees (v.feedFresh? piece) (Validator.feedFresh piece) := by
  have hplain : v.plain = .new := by rw [plain, hnone, List.take_zero]; rfl
  cases hread : read piece with
  | whole =>
    simp only [feedFresh?, Validator.feedFresh, hread]
    exact ⟨v, rfl, hv, hplain⟩
  | cut tail =>
    have hlen := length_of_cut hread
    obtain ⟨buffer, hbuffer, hsize, hfront⟩ :=
      overwrite?_eq v.buffer 0 tail (by rw [hv.size]; omega)
    simp only [feedFresh?, Validator.feedFresh, hread, hbuffer]
    refine ⟨_, rfl, ⟨hsize.trans hv.size, hlen⟩, ?_⟩
    rw [Nat.zero_add] at hfront
    rw [plain, hfront]
    rfl
  | malformed =>
    simp only [feedFresh?, Validator.feedFresh, hread]
    exact ⟨v, rfl, hv, hplain⟩

theorem feed?_agrees (hv : v.InBounds) (piece : Bytes) :
    Agrees (v.feed? piece) (v.plain.feed piece) := by
  by_cases hnone : v.used = 0
  · have hplain : v.plain = .new := by rw [plain, hnone, List.take_zero]; rfl
    rw [feed?, if_pos hnone, hplain]
    exact feedFresh?_agrees hv hnone piece
  · obtain ⟨first, more, hbuf⟩ : ∃ first more, v.buffer = first :: more :=
      List.exists_cons_of_length_pos (by rw [hv.size]; omega)
    obtain ⟨n, hn⟩ : ∃ n, v.used = n + 1 := ⟨v.used - 1, by omega⟩
    have hplain : v.plain = ⟨first :: more.take n⟩ := by
      rw [plain, hbuf, hn, List.take_succ_cons]
    have hlength : (first :: more.take n).length = v.used := by
      rw [hn, List.length_cons, List.length_take_of_le]
      have hsize := hv.size
      rw [hbuf, List.length_cons] at hsize
      have := hv.used
      omega
    obtain ⟨missing, hmissing⟩ : ∃ m, m = characterLength first - v.used := ⟨_, rfl⟩
    obtain ⟨added, hadded⟩ : ∃ a, a = piece.take missing := ⟨_, rfl⟩
    have hfits : v.used + added.length ≤ 4 := by
      have := characterLength_le first
      have := hv.used
      rw [hadded, List.length_take]
      omega
    obtain ⟨buffer, hbuffer, hsize, hfront⟩ :=
      overwrite?_eq v.buffer v.used added (by rw [hv.size]; exact hfits)
    have hpending : buffer.take (v.used + added.length) = first :: more.take n ++ added := by
      rw [hfront, hbuf, hn, List.take_succ_cons]
    have hbegun : front? buffer (v.used + added.length) =
        some (first :: more.take n ++ added) := by
      rw [front?, if_pos (by rw [hsize, hv.size]; exact hfits), hpending]
    have hfirst : v.buffer[0]? = some first := by rw [hbuf]; rfl
    have hdrop : piece.drop added.length = piece.drop missing := by
      rw [hadded, List.drop_eq_drop_iff, List.length_take]
      omega
    have hinside : InBounds ⟨buffer, v.used + added.length⟩ := ⟨hsize.trans hv.size, hfits⟩
    rw [feed?, if_neg hnone, hfirst, hplain]
    simp only [Option.bind_eq_bind, Option.bind_some, Validator.feed, hlength, ← hmissing,
      ← hadded, hbuffer, hbegun]
    cases read (first :: more.take n ++ added) with
    | whole =>
      rw [hdrop]
      exact feedFresh?_agrees ⟨hsize.trans hv.size, Nat.zero_le 4⟩ rfl _
    | cut tail => exact ⟨_, rfl, hinside, congrArg Validator.mk hpending⟩
    | malformed => exact ⟨_, rfl, hinside, congrArg Validator.mk hpending⟩

theorem reset_inBounds (hv : v.InBounds) : v.reset.InBounds := ⟨hv.size, Nat.zero_le 4⟩

theorem plain_reset (v : BufferedValidator) : v.reset.plain = .new := by
  rw [plain, reset, List.take_zero]
  rfl

/-- All calls stay inside of the buffer. -/
theorem performAll?_inBounds (hv : v.InBounds) (calls : List Call) :
    ∃ w, v.performAll? calls = some w ∧ w.InBounds := by
  induction calls generalizing v with
  | nil => exact ⟨v, rfl, hv⟩
  | cons call calls ih =>
    cases call with
    | reset => exact ih (reset_inBounds hv)
    | feed piece =>
      obtain ⟨w, hw, hinside, -⟩ := feed?_agrees hv piece
      rw [performAll?, perform?, hw]
      exact ih hinside

theorem isComplete_plain (hv : v.InBounds) : v.plain.isComplete = v.isComplete := by
  have hlength : v.plain.pending.length = v.used :=
    List.length_take_of_le (by rw [hv.size]; exact hv.used)
  rw [Validator.isComplete, isComplete, ← hlength]
  cases v.plain.pending <;> rfl

theorem feedAll?_eq (hv : v.InBounds) (pieces : List Bytes) :
    v.feedAll? pieces = some (v.plain.feedAll pieces) := by
  induction pieces generalizing v with
  | nil => rfl
  | cons piece pieces ih =>
    obtain ⟨w, hw, hinside, hplain⟩ := feed?_agrees hv piece
    rw [feedAll?, hw, Validator.feedAll, ← hplain, isComplete_plain hinside]
    simp only [Option.bind_eq_bind, Option.bind_some, ih hinside]

/-- Whatever has been fed to a validator, every access is inside of the buffer, also after a refusal.
A validator that is new or has just been reset does with the buffer what is done with the pending
bytes alone, and judges text in pieces by what it is as a whole. -/
theorem judges_after_calls (calls : List Call) (pieces : List Bytes) :
    ∃ v, new.performAll? calls = some v ∧
      v.reset.feedAll? pieces = some (Validator.new.feedAll pieces) ∧
      Validator.Judges pieces (Validator.new.feedAll pieces) := by
  obtain ⟨v, hv, hinside⟩ := performAll?_inBounds (v := new) ⟨rfl, Nat.zero_le 4⟩ calls
  have hfeed := feedAll?_eq (reset_inBounds hinside) pieces
  rw [plain_reset] at hfeed
  exact ⟨v, hv, hfeed, Validator.judges pieces⟩

/-- After a refusal a piece may be taken with no character unfinished, although the text is not
well-formed. -/
theorem taken_after_refusal :
    ¬ ∀ (pieces : List Bytes) (answers : List (Bool × Bool)), new.feedAll? pieces = some answers →
      ∀ n, Validator.Takes answers n true →
        (answers[n]?.map Prod.snd = some true ↔ WellFormed (Validator.upTo pieces n)) := by
  intro h
  have hwell := (h [[0xff], [0x61]] [(false, true), (true, true)] rfl 1 rfl).mp rfl
  rw [wellFormed_iff_run] at hwell
  exact absurd hwell (by decide)

end BufferedValidator

end WebSocket.Utf8
