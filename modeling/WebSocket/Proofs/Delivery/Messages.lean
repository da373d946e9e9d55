import Mathlib.Data.List.Chain
import WebSocket.Proofs.Delivery.Parts

/-! Messages as they are put together, from frames or from the parts that are handed out. Both ways
give the same messages, and text is sound as long as no text message is broken. -/

namespace WebSocket

/-- A message as far as it has come in. -/
structure Message where
  binary : Bool
  payload : Bytes
  finished : Bool
  deriving DecidableEq, Repr

namespace Message

/-- A text message is broken once no text begins with it, or when it is finished and is no text. -/
def Broken (m : Message) : Prop :=
  m.binary = false ∧
    (¬ Utf8.Begins m.payload ∨ m.finished = true ∧ ¬ Utf8.WellFormed m.payload)

def isOpen (ms : List Message) : Bool := ms.getLast?.any (!·.finished)

def goOn (data : Bytes) (last : Bool) (ms : List Message) : List Message :=
  ms.dropLast ++ (ms.getLast?.map fun m => ⟨m.binary, m.payload ++ data, last⟩).toList

variable {ms : List Message} {m : Message}

@[simp] theorem isOpen_concat : isOpen (ms ++ [m]) = !m.finished := by simp [isOpen]

@[simp] theorem goOn_concat (data : Bytes) (last : Bool) :
    goOn data last (ms ++ [m]) = ms ++ [⟨m.binary, m.payload ++ data, last⟩] := by simp [goOn]

theorem exists_of_isOpen (h : isOpen ms = true) : ∃ front m, ms = front ++ [m] ∧
    m.finished = false := by
  induction ms using List.reverseRecOn with
  | nil => cases h
  | append_singleton front m => exact ⟨front, m, rfl, by simpa using h⟩

theorem not_broken_iff {binary last : Bool} {payload : Bytes} :
    ¬ Broken ⟨binary, payload, last⟩ ↔ (binary = false → Utf8.Begins payload ∧
      (last = true → Utf8.WellFormed payload)) := by
  simp only [Broken, not_and, not_or, not_not]

end Message

/-- The messages with what a frame brings. A control frame belongs to none. -/
def Frame.onto (w : Frame) (ms : List Message) : List Message :=
  match w.header.opcode with
  | .text => ms ++ [⟨false, w.payload, w.header.fin⟩]
  | .binary => ms ++ [⟨true, w.payload, w.header.fin⟩]
  | .continuation => Message.goOn w.payload w.header.fin ms
  | .close | .ping | .pong => ms

def Frame.messages (ws : List Frame) : List Message := ws.foldl (fun ms w => w.onto ms) []

/-- The messages with a part of one, of the unfinished one if there is one. -/
def Chunk.onto (c : Chunk) (ms : List Message) : List Message :=
  if Message.isOpen ms then Message.goOn c.data c.completes ms
  else ms ++ [⟨c.binary, c.data, c.completes⟩]

def Chunk.messages (cs : List Chunk) : List Message := cs.foldl (fun ms c => c.onto ms) []

namespace Chunk

variable {size : Nat} {fin binary : Bool} {b : Bytes} {cs : List Chunk} {c : Chunk}

theorem messages_concat (cs : List Chunk) (c : Chunk) :
    messages (cs ++ [c]) = c.onto (messages cs) := by
  simp [messages]

theorem onto_of_not_open {ms : List Message} (h : Message.isOpen ms = false) (c : Chunk) :
    c.onto ms = ms ++ [⟨c.binary, c.data, c.completes⟩] := by
  rw [onto, if_neg (by simp [h])]

theorem onto_concat {m : Message} (hm : m.finished = false) (ms : List Message) (c : Chunk) :
    c.onto (ms ++ [m]) = ms ++ [⟨m.binary, m.payload ++ c.data, c.completes⟩] := by
  rw [onto, if_pos (by simp [hm]), Message.goOn_concat]

/-! Cutting a payload makes no difference to the messages. -/

theorem onto_onto (ms : List Message) (x y : Bytes) :
    onto ⟨y, true, fin, binary⟩ (onto ⟨x, false, fin, binary⟩ ms) =
      onto ⟨x ++ y, true, fin, binary⟩ ms := by
  cases hopen : Message.isOpen ms with
  | false =>
    rw [onto_of_not_open hopen, onto_of_not_open hopen]
    exact onto_concat rfl ms _
  | true =>
    obtain ⟨front, m, rfl, hm⟩ := Message.exists_of_isOpen hopen
    rw [onto_concat hm, onto_concat hm]
    exact (onto_concat rfl front _).trans (by rw [List.append_assoc]; rfl)

theorem onto_cut (size : Nat) (fin binary : Bool) (b : Bytes) (ms : List Message) :
    (cut size fin binary b).foldl (fun ms c => c.onto ms) ms = onto ⟨b, true, fin, binary⟩ ms := by
  induction b using cut.induct size generalizing ms with
  | case1 b h ih => rw [cut, if_pos h, List.foldl_cons, ih, onto_onto, List.take_append_drop]
  | case2 b h => rw [cut, if_neg h, List.foldl_cons, List.foldl_nil]

theorem cut_eq_concat (size : Nat) (fin binary : Bool) (b : Bytes) :
    ∃ front tail, cut size fin binary b = front ++ [⟨tail, true, fin, binary⟩] := by
  induction b using cut.induct size with
  | case1 b h ih =>
    obtain ⟨front, tail, hcut⟩ := ih
    exact ⟨⟨b.take size, false, fin, binary⟩ :: front, tail, by rw [cut, if_pos h, hcut]; rfl⟩
  | case2 b h => exact ⟨[], b, by rw [cut, if_neg h]; rfl⟩

theorem binary_of_mem_cut (h : c ∈ cut size fin binary b) : c.binary = binary := by
  induction b using cut.induct size with
  | case1 b hsize ih =>
    rw [cut, if_pos hsize] at h
    rcases List.mem_cons.mp h with rfl | h
    · rfl
    · exact ih h
  | case2 b hsize =>
    rw [cut, if_neg hsize, List.mem_singleton] at h
    rw [h]

/-- What may follow a part: more of the same message, unless the part completes it. -/
def Leads (c d : Chunk) : Prop := c.completes = false → d.binary = c.binary

theorem isChain_cut (size : Nat) (fin binary : Bool) (b : Bytes) :
    (cut size fin binary b).IsChain Leads := by
  apply List.Pairwise.isChain
  apply List.pairwise_of_forall_mem_list
  intro c hc d hd _
  rw [binary_of_mem_cut hc, binary_of_mem_cut hd]

/-! Text that is sound and messages that are not broken. -/

theorem text_messages (h : cs.IsChain Leads) :
    (Message.isOpen (messages cs) = false ∧ Mark.text (cs.flatMap marks) = []) ∨
      ∃ front m c, messages cs = front ++ [m] ∧ m.finished = false ∧
        Mark.text (cs.flatMap marks) = (if m.binary then [] else m.payload) ∧
        cs.getLast? = some c ∧ c.completes = false ∧ c.binary = m.binary := by
  induction cs using List.reverseRecOn with
  | nil => exact .inl ⟨rfl, rfl⟩
  | append_singleton cs c ih =>
    obtain ⟨hcs, -, hlast⟩ := List.isChain_append.mp h
    rw [messages_concat, List.flatMap_append, List.flatMap_singleton, Mark.text_chunk,
      List.getLast?_concat]
    rcases ih hcs with ⟨hopen, htext⟩ | ⟨front, m, d, hms, hm, htext, hd, hmore, hkind⟩
    · rw [onto_of_not_open hopen, htext, List.nil_append]
      cases hc : c.completes with
      | true => exact .inl ⟨by simp, by simp⟩
      | false => exact .inr ⟨_, _, c, rfl, rfl, rfl, rfl, hc, rfl⟩
    · have hbinary : c.binary = m.binary := (hlast d hd c rfl hmore).trans hkind
      rw [hms, onto_concat hm, htext, hbinary]
      cases hc : c.completes with
      | true => exact .inl ⟨by simp, by simp⟩
      | false =>
        refine .inr ⟨front, _, c, rfl, rfl, ?_, rfl, hc, hbinary⟩
        cases m.binary <;> simp

/-- The text handed out is sound as long as no message is broken. -/
theorem textSound_iff_messages (h : cs.IsChain Leads) :
    Mark.TextSound (cs.flatMap marks) ↔ ∀ m ∈ messages cs, ¬ m.Broken := by
  induction cs using List.reverseRecOn with
  | nil => exact ⟨fun _ => List.forall_mem_nil _, fun _ => .nil⟩
  | append_singleton cs c ih =>
    obtain ⟨hcs, -, hlast⟩ := List.isChain_append.mp h
    rw [messages_concat, List.flatMap_append, List.flatMap_singleton, Mark.textSound_chunk, ih hcs,
      Mark.text_bytes]
    rcases text_messages hcs with ⟨hopen, htext⟩ | ⟨front, m, d, hms, hm, htext, hd, hmore, hkind⟩
    · -- a new message
      rw [onto_of_not_open hopen, htext, List.nil_append, List.forall_mem_append,
        List.forall_mem_singleton, Message.not_broken_iff]
      refine and_congr_right fun _ => ?_
      cases c.binary with
      | false => simp
      | true => simpa using ⟨⟨[], ⟨[], rfl⟩⟩, fun _ => ⟨[], rfl⟩⟩
    · -- more of the unfinished message
      have hbinary : c.binary = m.binary := (hlast d hd c rfl hmore).trans hkind
      obtain ⟨binary, payload, finished⟩ := m
      obtain rfl : finished = false := hm
      rw [hms, onto_concat rfl, htext, hbinary, List.forall_mem_append, List.forall_mem_append,
        List.forall_mem_singleton, List.forall_mem_singleton,
        Message.not_broken_iff, Message.not_broken_iff, and_assoc]
      refine and_congr_right fun _ => ?_
      cases binary with
      | true => simpa using ⟨⟨[], ⟨[], rfl⟩⟩, fun _ => ⟨[], rfl⟩⟩
      | false => simpa using fun hbegins _ => hbegins.front

end Chunk

namespace Frame

variable {size : Nat} {ws : List Frame} {s : Sequencing} {cs : List Chunk}

theorem messages_concat (ws : List Frame) (w : Frame) :
    messages (ws ++ [w]) = w.onto (messages ws) := by
  simp [messages]

theorem onto_control {w : Frame} (h : w.header.opcode.isControl = true) (ms : List Message) :
    w.onto ms = ms := by
  cases hop : w.header.opcode with
  | close | ping | pong => rw [onto, hop]
  | continuation | text | binary =>
    rw [hop] at h
    cases h

theorem isOpen_messages (h : Sequencing.initial.acceptAll (order ws) = .ok s) :
    Message.isOpen (messages ws) = s.isFragmented := by
  induction ws using List.reverseRecOn generalizing s with
  | nil =>
    cases h
    rfl
  | append_singleton ws w ih =>
    rw [order_concat, Sequencing.acceptAll_concat] at h
    obtain ⟨u, kind, hu, hacc⟩ := h
    have hold := ih hu
    rw [messages_concat]
    cases kind with
    | none =>
      obtain ⟨hctl, -, rfl⟩ := Sequencing.accept_eq_none hacc
      rw [onto_control hctl, hold]
    | some kind =>
      obtain ⟨hdata, hun, hwhich⟩ := Sequencing.accept_eq_some hacc
      have hnow : s.isFragmented = !w.header.fin := by
        rw [Sequencing.isFragmented, hun]
        cases w.header.fin <;> rfl
      rw [hnow]
      rcases hwhich with ⟨hnew, -, -⟩ | ⟨hop, hsome⟩
      · cases hop : w.header.opcode with
        | text | binary =>
          rw [onto, hop]
          exact Message.isOpen_concat
        | continuation | close | ping | pong =>
          rw [hop] at hnew
          cases hnew
      · rw [Sequencing.isFragmented, hsome] at hold
        obtain ⟨front, m, hms, -⟩ := Message.exists_of_isOpen hold
        rw [onto, hop, hms]
        exact (congrArg _ (Message.goOn_concat _ _)).trans Message.isOpen_concat

/-- The parts of a row of frames make up its messages. -/
theorem messages_rowChunks (size : Nat) (h : Sequencing.initial.acceptAll (order ws) = .ok s) :
    Chunk.messages (rowChunks size false ws) = messages ws := by
  induction ws using List.reverseRecOn generalizing s with
  | nil => rfl
  | append_singleton ws w ih =>
    rw [order_concat, Sequencing.acceptAll_concat] at h
    obtain ⟨u, kind, hu, hacc⟩ := h
    rw [messages_concat, ← ih hu, rowChunks_append]
    cases kind with
    | none =>
      obtain ⟨hctl, -, -⟩ := Sequencing.accept_eq_none hacc
      rw [rowChunks_control hctl, List.append_nil, onto_control hctl]
    | some kind =>
      obtain ⟨hdata, -, hwhich⟩ := Sequencing.accept_eq_some hacc
      have hopen := isOpen_messages hu
      rw [rowChunks_data hdata, Chunk.messages, List.foldl_append, Chunk.onto_cut, ← Chunk.messages,
        ih hu]
      rw [Sequencing.isFragmented] at hopen
      rcases hwhich with ⟨hnew, hnone, -⟩ | ⟨hop, hsome⟩
      · rw [hnone] at hopen
        rw [Chunk.onto_of_not_open hopen, Chunk.completes, Bool.true_and]
        cases hop : w.header.opcode with
        | text | binary =>
          rw [onto, hop]
          rfl
        | continuation | close | ping | pong =>
          rw [hop] at hnew
          cases hnew
      · rw [hsome, Option.isSome_some] at hopen
        rw [Chunk.onto, if_pos hopen, onto, hop]
        rfl

theorem last_rowChunks (h : Sequencing.initial.acceptAll (order ws) = .ok s) {c : Chunk}
    (hc : c ∈ (rowChunks size false ws).getLast?) :
    c.binary = lastBinary false ws ∧ c.completes = !s.isFragmented := by
  induction ws using List.reverseRecOn generalizing s with
  | nil => cases hc
  | append_singleton ws w ih =>
    rw [order_concat, Sequencing.acceptAll_concat] at h
    obtain ⟨u, kind, hu, hacc⟩ := h
    rw [rowChunks_append] at hc
    rw [lastBinary_concat]
    cases kind with
    | none =>
      obtain ⟨hctl, -, rfl⟩ := Sequencing.accept_eq_none hacc
      rw [rowChunks_control hctl, List.append_nil] at hc
      rw [binaryAfter_control hctl]
      exact ih hu hc
    | some kind =>
      obtain ⟨hdata, hun, -⟩ := Sequencing.accept_eq_some hacc
      obtain ⟨front, tail, hcut⟩ := Chunk.cut_eq_concat size w.header.fin
        (w.header.opcode.binaryAfter (lastBinary false ws)) w.payload
      rw [rowChunks_data hdata, hcut, ← List.append_assoc, List.getLast?_concat,
        Option.mem_some] at hc
      subst hc
      refine ⟨rfl, ?_⟩
      rw [Sequencing.isFragmented, hun, Chunk.completes]
      cases w.header.fin <;> rfl

theorem isChain_rowChunks (size : Nat) (h : Sequencing.initial.acceptAll (order ws) = .ok s) :
    (rowChunks size false ws).IsChain Chunk.Leads := by
  induction ws using List.reverseRecOn generalizing s with
  | nil => exact .nil
  | append_singleton ws w ih =>
    rw [order_concat, Sequencing.acceptAll_concat] at h
    obtain ⟨u, kind, hu, hacc⟩ := h
    rw [rowChunks_append]
    cases kind with
    | none =>
      obtain ⟨hctl, -, -⟩ := Sequencing.accept_eq_none hacc
      rw [rowChunks_control hctl, List.append_nil]
      exact ih hu
    | some kind =>
      obtain ⟨hdata, -, hwhich⟩ := Sequencing.accept_eq_some hacc
      rw [rowChunks_data hdata]
      apply (ih hu).append (Chunk.isChain_cut _ _ _ _)
      intro c hc d hd hmore
      obtain ⟨hbinary, hcompletes⟩ := last_rowChunks hu hc
      rw [Chunk.binary_of_mem_cut (List.mem_of_mem_head? hd), hbinary]
      rcases hwhich with ⟨-, hnone, -⟩ | ⟨hop, -⟩
      · rw [hcompletes, Sequencing.isFragmented, hnone] at hmore
        cases hmore
      · rw [hop]
        rfl

/-- No message of the parts handed out so far is broken as long as their text is sound. -/
theorem textSound_iff_parts (h : Sequencing.initial.acceptAll (order ws) = .ok s)
    (hcs : cs <+: rowChunks size false ws) :
    Mark.TextSound (cs.flatMap Chunk.marks) ↔ ∀ m ∈ Chunk.messages cs, ¬ m.Broken := by
  obtain ⟨tail, htail⟩ := hcs
  have hchain := isChain_rowChunks size h
  rw [← htail] at hchain
  exact Chunk.textSound_iff_messages hchain.left_of_append

theorem textSound_iff_messages (hw : ∀ w ∈ ws, w.Whole)
    (h : Sequencing.initial.acceptAll (order ws) = .ok s) :
    Mark.TextSound (rowMarks false ws) ↔ ∀ m ∈ messages ws, ¬ m.Broken := by
  rw [← marks_rowChunks 1 false hw, textSound_iff_parts h List.prefix_rfl, messages_rowChunks 1 h]

end Frame

end WebSocket
