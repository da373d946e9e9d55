import WebSocket.Message.Tracker
import WebSocket.Proofs.Delivery.Rows

/-! The order of frames as a grammar. Frames are accepted as long as their data frames are messages
written one after the other, of which the last may be unfinished. Refused frames and control frames
leave no trace. -/

namespace WebSocket

inductive IsMessage : List (Opcode × Bool) → Prop where
  | whole (kind : MessageKind) : IsMessage [(kind.opcode, true)]
  | parts (kind : MessageKind) (n : Nat) :
      IsMessage ((kind.opcode, false) :: List.replicate n (.continuation, false) ++
        [(.continuation, true)])

def AreMessages (es : List (Opcode × Bool)) : Prop :=
  ∃ ms : List (List (Opcode × Bool)), (∀ m ∈ ms, IsMessage m) ∧ es = ms.flatten

def MessageKind.begun (kind : MessageKind) (n : Nat) : List (Opcode × Bool) :=
  (kind.opcode, false) :: List.replicate n (.continuation, false)

/-- The frames of messages, and then those of one that is not finished. -/
def EndIn (kind : MessageKind) (es : List (Opcode × Bool)) : Prop :=
  ∃ front n, AreMessages front ∧ es = front ++ kind.begun n

def dataFrames (es : List (Opcode × Bool)) : List (Opcode × Bool) :=
  es.filter fun e => !e.1.isControl

def lastKind (es : List (Opcode × Bool)) : Option MessageKind :=
  (es.filterMap fun e => e.1.kind?).getLast?

namespace AreMessages

variable {es fs : List (Opcode × Bool)}

theorem nil : AreMessages [] := ⟨[], List.forall_mem_nil _, rfl⟩

theorem append (h : AreMessages es) (hf : IsMessage fs) : AreMessages (es ++ fs) := by
  obtain ⟨ms, hms, rfl⟩ := h
  refine ⟨ms ++ [fs], fun m hm => ?_, by rw [List.flatten_append, List.flatten_singleton]⟩
  rcases List.mem_append.mp hm with hm | hm
  · exact hms m hm
  · rwa [List.mem_singleton.mp hm]

end AreMessages

theorem MessageKind.kind?_opcode (kind : MessageKind) : kind.opcode.kind? = some kind := by
  cases kind <;> rfl

theorem MessageKind.begun_concat (kind : MessageKind) (n : Nat) :
    kind.begun n ++ [(.continuation, false)] = kind.begun (n + 1) := by
  rw [begun, begun, List.cons_append, List.replicate_succ']

namespace Sequencing

variable {s t : Sequencing} {es fs : List (Opcode × Bool)} {op : Opcode} {fin : Bool}

/-! A step against the rules that it follows. -/

theorem onFrame_eq (s : Sequencing) (op : Opcode) (fin : Bool) :
    s.onFrame op fin =
      match s.accept op fin with
      | .ok (kind, t) => (.ok kind, t)
      | .error v => (.error v, s) := by
  obtain ⟨unfinished⟩ := s
  cases op with
  | close | ping | pong => cases fin <;> rfl
  | text | binary | continuation => cases unfinished <;> cases fin <;> rfl

theorem onFrame_of_error {v : Violation} (h : (s.onFrame op fin).1 = .error v) :
    (s.onFrame op fin).2 = s := by
  rw [onFrame_eq] at h ⊢
  split at h
  · cases h
  · rfl

/-! What can stand where, from the grammar. -/

/-- Where data frames lead that are messages, the last perhaps unfinished. -/
inductive Standing : List (Opcode × Bool) → Sequencing → Prop where
  | between {front : List (Opcode × Bool)} (h : AreMessages front) : Standing front ⟨none⟩
  | within {front : List (Opcode × Bool)} (h : AreMessages front) (kind : MessageKind) (n : Nat) :
      Standing (front ++ kind.begun n) ⟨some kind⟩

theorem acceptAll_begun (kind : MessageKind) (n : Nat) :
    initial.acceptAll (kind.begun n) = .ok ⟨some kind⟩ := by
  have hmore :
      acceptAll ⟨some kind⟩ (List.replicate n (.continuation, false)) = .ok ⟨some kind⟩ := by
    induction n with
    | zero => rfl
    | succ n ih => exact ih
  cases kind <;> exact hmore

theorem acceptAll_message (h : IsMessage es) : initial.acceptAll es = .ok initial := by
  cases h with
  | whole kind => cases kind <;> rfl
  | parts kind n => exact acceptAll_append (acceptAll_begun kind n) _

theorem acceptAll_messages (h : AreMessages es) : initial.acceptAll es = .ok initial := by
  obtain ⟨ms, hms, rfl⟩ := h
  induction ms with
  | nil => rfl
  | cons m ms ih =>
    rw [List.flatten_cons, acceptAll_append (acceptAll_message (hms m List.mem_cons_self))]
    exact ih fun m hm => hms m (List.mem_cons_of_mem _ hm)

theorem Standing.acceptAll (h : Standing es s) : initial.acceptAll es = .ok s := by
  cases h with
  | between h => exact acceptAll_messages h
  | within h kind n => rw [acceptAll_append (acceptAll_messages h), acceptAll_begun]

theorem Standing.accept (h : Standing es s) {kind : MessageKind}
    (hacc : s.accept op fin = .ok (some kind, t)) : Standing (es ++ [(op, fin)]) t := by
  obtain ⟨-, hun, hwhich⟩ := accept_eq_some hacc
  obtain ⟨unfinished⟩ := t
  obtain rfl : unfinished = if fin then none else some kind := hun
  rcases hwhich with ⟨hdata, hnone, hbin⟩ | ⟨rfl, hsome⟩
  · obtain rfl := MessageKind.opcode_of_isBinary hdata (hbin false)
    cases h with
    | between h =>
      cases fin with
      | true => exact .between (h.append (.whole kind))
      | false => exact .within h kind 0
    | within => cases hnone
  · cases h with
    | between => cases hsome
    | within h _ n =>
      cases hsome
      rw [List.append_assoc]
      cases fin with
      | true => exact .between (h.append (.parts kind n))
      | false =>
        rw [MessageKind.begun_concat]
        exact .within h kind (n + 1)

theorem standing_of_acceptAll (hdata : ∀ e ∈ es, e.1.isControl = false)
    (h : initial.acceptAll es = .ok s) : Standing es s := by
  -- messages grow at the back, so the frames are taken from there
  induction es using List.reverseRecOn generalizing s with
  | nil =>
    cases h
    exact .between .nil
  | append_singleton es e ih =>
    obtain ⟨op, fin⟩ := e
    obtain ⟨u, kind, hu, hacc⟩ := acceptAll_concat.mp h
    have hstands := ih (fun e he => hdata e (List.mem_append_left _ he)) hu
    cases kind with
    | none =>
      have hcontrol : op.isControl = false := hdata (op, fin) (by simp)
      rw [(accept_eq_none hacc).1] at hcontrol
      cases hcontrol
    | some kind => exact hstands.accept hacc

/-- Nothing is refused in the front of some messages, and in nothing else. -/
theorem acceptAll_iff_front (hdata : ∀ e ∈ es, e.1.isControl = false) :
    (∃ s, initial.acceptAll es = .ok s) ↔ ∃ all, AreMessages all ∧ es <+: all := by
  constructor
  · rintro ⟨s, hs⟩
    cases standing_of_acceptAll hdata hs with
    | between h => exact ⟨es, h, List.prefix_rfl⟩
    | @within front h kind n =>
      refine ⟨_, h.append (.parts kind n), ?_⟩
      rw [← MessageKind.begun, ← List.append_assoc]
      exact List.prefix_append _ _
  · rintro ⟨-, hall, more, rfl⟩
    obtain ⟨s, hs, -⟩ := acceptAll_of_append (acceptAll_messages hall)
    exact ⟨s, hs⟩

/-! Control frames and refused frames leave no trace. -/

theorem accept_unfinal (s : Sequencing) (hop : op.isControl = true) :
    s.accept op false = .error .fragmentedControl := by
  cases op <;> cases hop <;> rfl

theorem acceptAll_dataFrames : s.acceptAll es = .ok t ↔
    (∀ e ∈ es, e.1.isControl = true → e.2 = true) ∧ s.acceptAll (dataFrames es) = .ok t := by
  induction es generalizing s with
  | nil => simp [dataFrames]
  | cons e es ih =>
    obtain ⟨op, fin⟩ := e
    rw [List.forall_mem_cons]
    cases hop : op.isControl with
    | true =>
      have hskip : dataFrames ((op, fin) :: es) = dataFrames es :=
        List.filter_cons_of_neg (by simp [hop])
      rw [hskip]
      cases fin with
      | true => simp [acceptAll, accept_control s hop, ih]
      | false => simp [acceptAll, accept_unfinal s hop]
    | false =>
      have hkeep : dataFrames ((op, fin) :: es) = (op, fin) :: dataFrames es :=
        List.filter_cons_of_pos (by simp [hop])
      rw [hkeep, acceptAll, acceptAll]
      cases s.accept op fin with
      | error => simp
      | ok r => simp [ih]

theorem isControl_of_mem_dataFrames {e : Opcode × Bool} (h : e ∈ dataFrames es) :
    e.1.isControl = false := by
  simpa using (List.mem_filter.mp h).2

/-- A frame is accepted by the rules, or refused and then nothing has been written. -/
theorem onFrame_cases (s : Sequencing) (op : Opcode) (fin : Bool) :
    (∃ kind t, s.accept op fin = .ok (kind, t) ∧ s.onFrame op fin = (.ok kind, t)) ∨
      ∃ v, s.accept op fin = .error v ∧ s.onFrame op fin = (.error v, s) := by
  rw [onFrame_eq]
  cases s.accept op fin with
  | ok r => exact .inl ⟨r.1, r.2, rfl, rfl⟩
  | error v => exact .inr ⟨v, rfl, rfl⟩

theorem onFrames_append (s : Sequencing) (es fs : List (Opcode × Bool)) :
    s.onFrames (es ++ fs) =
      ((s.onFrames es).1 ++ ((s.onFrames es).2.onFrames fs).1,
        ((s.onFrames es).2.onFrames fs).2) := by
  induction es generalizing s with
  | nil => rfl
  | cons e es ih => simp only [List.cons_append, onFrames, ih]

theorem accepted_append (s : Sequencing) (es fs : List (Opcode × Bool)) :
    s.accepted (es ++ fs) = s.accepted es ++ (s.onFrames es).2.accepted fs := by
  induction es generalizing s with
  | nil => rfl
  | cons e es ih =>
    obtain ⟨op, fin⟩ := e
    rcases onFrame_cases s op fin with ⟨kind, t, -, hs⟩ | ⟨v, -, hs⟩ <;>
      simp only [List.cons_append, accepted, onFrames, hs, ih]

theorem acceptAll_accepted (s : Sequencing) (es : List (Opcode × Bool)) :
    s.acceptAll (s.accepted es) = .ok (s.onFrames es).2 := by
  induction es generalizing s with
  | nil => rfl
  | cons e es ih =>
    obtain ⟨op, fin⟩ := e
    rcases onFrame_cases s op fin with ⟨kind, t, hacc, hs⟩ | ⟨v, -, hs⟩
    · simp only [accepted, onFrames, hs, acceptAll, hacc, ih]
    · simp only [accepted, onFrames, hs, ih]

/-- The other answers are those that would come without the refused frames. -/
theorem onFrames_accepted (s : Sequencing) (es : List (Opcode × Bool)) :
    s.onFrames (s.accepted es) = ((s.onFrames es).1.filter (·.isOk), (s.onFrames es).2) := by
  induction es generalizing s with
  | nil => rfl
  | cons e es ih =>
    obtain ⟨op, fin⟩ := e
    rcases onFrame_cases s op fin with ⟨kind, t, -, hs⟩ | ⟨v, -, hs⟩ <;>
      simp [accepted, onFrames, hs, ih, Except.isOk, Except.toBool]

theorem all_accepted_iff (s : Sequencing) (es : List (Opcode × Bool)) :
    (∀ r ∈ (s.onFrames es).1, r.isOk = true) ↔ ∃ t, s.acceptAll es = .ok t := by
  induction es generalizing s with
  | nil => simp [onFrames, acceptAll]
  | cons e es ih =>
    obtain ⟨op, fin⟩ := e
    rcases onFrame_cases s op fin with ⟨kind, t, hacc, hs⟩ | ⟨v, hacc, hs⟩
    · simp [onFrames, hs, acceptAll, hacc, ← ih, Except.isOk, Except.toBool]
    · simp [onFrames, hs, acceptAll, hacc, Except.isOk, Except.toBool]

/-! The kind that a frame is given. -/

theorem lastKind_dataFrames (es : List (Opcode × Bool)) :
    lastKind (dataFrames es) = lastKind es := by
  have hnone : ∀ op : Opcode, op.isControl = true → op.kind? = none := by
    intro op
    cases op <;> decide
  rw [lastKind, dataFrames, List.filterMap_filter, lastKind]
  congr 1
  apply List.filterMap_congr
  intro e _
  cases h : e.1.isControl <;> simp [h, hnone]

theorem lastKind_concat (es : List (Opcode × Bool)) (op : Opcode) (fin : Bool) :
    lastKind (es ++ [(op, fin)]) = op.kind?.or (lastKind es) := by
  cases h : op.kind? <;> simp [lastKind, h]

theorem lastKind_begun (front : List (Opcode × Bool)) (kind : MessageKind) (n : Nat) :
    lastKind (front ++ kind.begun n) = some kind := by
  induction n with
  | zero => rw [MessageKind.begun, List.replicate_zero, lastKind_concat, kind.kind?_opcode]; rfl
  | succ n ih => rw [← MessageKind.begun_concat, ← List.append_assoc, lastKind_concat, ih]; rfl

def reached (es : List (Opcode × Bool)) : Sequencing := (initial.onFrames es).2

/-- The accepted data frames, read as messages, lead to where the sequence stands. -/
theorem standing_reached (es : List (Opcode × Bool)) :
    Standing (dataFrames (initial.accepted es)) (reached es) :=
  standing_of_acceptAll (fun _ => isControl_of_mem_dataFrames)
    (acceptAll_dataFrames.mp (acceptAll_accepted initial es)).2

theorem reached_of_standing (h : Standing (dataFrames (initial.accepted es)) s) :
    reached es = s := by
  have := (standing_reached es).acceptAll
  rw [h.acceptAll] at this
  exact (Except.ok.inj this).symm

theorem unfinished_eq_none :
    (reached es).unfinished = none ↔ AreMessages (dataFrames (initial.accepted es)) := by
  constructor
  · intro h
    have hstands := standing_reached es
    generalize dataFrames (initial.accepted es) = ds, reached es = s at hstands h ⊢
    cases hstands with
    | between hall => exact hall
    | within => cases h
  · exact fun h => congrArg unfinished (reached_of_standing (.between h))

theorem unfinished_eq_some {kind : MessageKind} :
    (reached es).unfinished = some kind ↔ EndIn kind (dataFrames (initial.accepted es)) := by
  constructor
  · intro h
    have hstands := standing_reached es
    generalize dataFrames (initial.accepted es) = ds, reached es = s at hstands h ⊢
    cases hstands with
    | between => cases h
    | within hfront _ n =>
      cases h
      exact ⟨_, n, hfront, rfl⟩
  · rintro ⟨front, n, hfront, heq⟩
    exact congrArg unfinished (reached_of_standing (heq ▸ .within hfront kind n))

theorem lastKind_of_unfinished {kind : MessageKind} (h : (reached es).unfinished = some kind) :
    lastKind (initial.accepted es) = some kind := by
  obtain ⟨front, n, -, heq⟩ := unfinished_eq_some.mp h
  rw [← lastKind_dataFrames, heq, lastKind_begun]

/-- What is known of a new sequence after some frames, of which any may have been refused. -/
structure Tracks (es : List (Opcode × Bool)) : Prop where
  next : ∀ op fin, initial.onFrames (es ++ [(op, fin)]) =
    ((initial.onFrames es).1 ++ [((reached es).onFrame op fin).1], ((reached es).onFrame op fin).2)
  control : ∀ op fin, op.isControl = true →
    (((reached es).onFrame op fin).1 = .ok none ↔ fin = true) ∧
      ((∃ kind, ((reached es).onFrame op fin).1 = .ok kind) ↔ fin = true) ∧
      ((reached es).onFrame op fin).2 = reached es
  refused : ∀ op fin v, ((reached es).onFrame op fin).1 = .error v →
    ((reached es).onFrame op fin).2 = reached es
  withoutRefused : initial.onFrames (initial.accepted es) =
    ((initial.onFrames es).1.filter (·.isOk), reached es)
  /-- None is refused exactly when control frames are final and the others are messages, up to some
  point. -/
  grammar : (∀ r ∈ (initial.onFrames es).1, r.isOk = true) ↔
    (∀ e ∈ es, e.1.isControl = true → e.2 = true) ∧
      ∃ all, AreMessages all ∧ dataFrames es <+: all
  kind : ∀ op fin r, op.isControl = false → ((reached es).onFrame op fin).1 = .ok r →
    r.isSome = true ∧ r = lastKind (initial.accepted (es ++ [(op, fin)]))
  finished : (reached es).isFragmented = false ↔ AreMessages (dataFrames (initial.accepted es))
  unfinished : (reached es).isFragmented = true ↔
    ∃ kind, EndIn kind (dataFrames (initial.accepted es))
  opcode : ∀ op, (reached es).opcode = some op ↔
    ∃ kind, EndIn kind (dataFrames (initial.accepted es)) ∧ kind.opcode = op

theorem kind_of_onFrame {r : Option MessageKind} (hop : op.isControl = false)
    (h : ((reached es).onFrame op fin).1 = .ok r) :
    r.isSome = true ∧ r = lastKind (initial.accepted (es ++ [(op, fin)])) := by
  rcases onFrame_cases (reached es) op fin with ⟨kind, t, hacc, hs⟩ | ⟨v, -, hs⟩
  · have haccepted : (reached es).accepted [(op, fin)] = [(op, fin)] := by simp [accepted, hs]
    rw [hs] at h
    cases h
    rw [accepted_append, ← reached, haccepted, lastKind_concat]
    cases r with
    | none =>
      rw [(accept_eq_none hacc).1] at hop
      cases hop
    | some kind =>
      refine ⟨rfl, ?_⟩
      rcases (accept_eq_some hacc).2.2 with ⟨hdata, -, hbin⟩ | ⟨rfl, hsome⟩
      · rw [MessageKind.opcode_of_isBinary hdata (hbin false), kind.kind?_opcode, Option.some_or]
      · rw [lastKind_of_unfinished hsome]
        rfl
  · rw [hs] at h
    cases h

theorem tracks_messages (es : List (Opcode × Bool)) : Tracks es where
  next op fin := onFrames_append initial es [(op, fin)]
  control op fin hop := by
    cases fin with
    | true => simp [onFrame_eq, accept_control (reached es) hop]
    | false => simp [onFrame_eq, accept_unfinal (reached es) hop]
  refused _ _ _ := onFrame_of_error
  withoutRefused := onFrames_accepted initial es
  grammar := by
    rw [all_accepted_iff, exists_congr fun _ => acceptAll_dataFrames, exists_and_left,
      acceptAll_iff_front fun _ => isControl_of_mem_dataFrames]
  kind _ _ _ := kind_of_onFrame
  finished := by
    rw [isFragmented, Option.isSome_eq_false_iff, Option.isNone_iff_eq_none, unfinished_eq_none]
  unfinished := by
    rw [isFragmented, Option.isSome_iff_exists]
    exact exists_congr fun _ => unfinished_eq_some
  opcode op := by
    rw [opcode, Option.map_eq_some_iff]
    exact exists_congr fun _ => and_congr_left fun _ => unfinished_eq_some

/-- A text goes on behind a ping and behind a frame that is refused. -/
example : initial.onFrames [(.text, false), (.ping, true), (.binary, true), (.continuation, true)] =
    ([.ok (some .text), .ok none, .error .dataInsideMessage, .ok (some .text)], initial) := rfl

end Sequencing

end WebSocket
