import WebSocket.Proofs.Answered
import WebSocket.Proofs.Endpoint.Turn

/-! An end as its reader meets it, with the writer out of account. All that has been handed in
counts as written, and all that is still to come in counts as there. When the callbacks make no
calls, the reader does the same whatever the writer has come to, as long as it has not to wait for
it. -/

namespace WebSocket

def Header.unkeyed (h : Header) : Header := { h with mask := h.mask.map fun _ => .zero }

def Job.unkeyed (j : Job) : Job :=
  { j with header := j.header.map Header.unkeyed, mask := j.mask.map fun _ => .zero }

theorem Input.take_more {i : Input} {n : Nat} {piece more : Bytes}
    (h : i.take n = .got piece more) (rest : Bytes) :
    ({ i with bytes := i.bytes ++ rest } : Input).take n = .got piece (more ++ rest) := by
  obtain ⟨hl, hb⟩ := length_of_take h
  have hfront : (i.bytes ++ rest).take n = piece := by
    rw [hb, List.append_assoc, ← hl, List.take_left]
  have hbehind : (i.bytes ++ rest).drop n = more ++ rest := by
    rw [hb, List.append_assoc, ← hl, List.drop_left]
  unfold take
  dsimp only
  rw [hfront, if_pos hl, hbehind]

def Life.untorn (l : Life) : Life := { l with closed := false, hookRuns := 0, timer := none }

namespace Endpoint

/-- The end as its reader meets it, with so many bytes still to come in. -/
def listener (rest : Bytes) (e : Endpoint) : Endpoint where
  config := e.config
  callbacks := e.callbacks
  keys := fun _ => .zero
  held := true
  life := e.life.untorn
  outbox := ⟨.free, .none, e.outbox.nextSerial, 0, []⟩
  writer := ⟨.idle, [], false, false, (e.outgoing.handedIn.map (⟨·.unkeyed, .written⟩)).toArray⟩
  transport := .fresh none none
  reader :=
    { e.reader with input := { e.reader.input with bytes := e.reader.input.bytes ++ rest } }
  turn := .reader

/-- The reader goes on, with the writer out of account. -/
def ReadsOn (a b : Endpoint) : Prop := ∃ d, a.readerStep = some d ∧ b = d.listener []

variable {fits : Nat → Nat → Prop} {e e' d : Endpoint} {rest : Bytes} {kind : JobKind}

/-! Jobs. -/

theorem unkeyed_control {key key' : Option Key} (h : key'.isSome = key.isSome) (serial : Nat)
    (kind : JobKind) (op : Opcode) (payload : Bytes) (last : Bool) :
    (Job.control serial kind op payload key last).unkeyed =
      (Job.control serial kind op payload key' last).unkeyed := by
  have hsame : (key.map fun _ => Key.zero) = key'.map fun _ => .zero := by
    cases key <;> cases key' <;> first | rfl | cases h
  simp [Job.control, Job.unkeyed, Header.unkeyed, Header.plain, hsame]

theorem unkeyed_unkeyed (j : Job) : j.unkeyed.unkeyed = j.unkeyed := by
  have hheader : ∀ h : Header, h.unkeyed.unkeyed = h.unkeyed := fun h => by
    simp [Header.unkeyed, Function.comp_def]
  simp [Job.unkeyed, Function.comp_def, hheader]

theorem lineUp_listener : (e.listener rest).outgoing.lineUp =
    e.outgoing.handedIn.map Job.unkeyed := by
  simp [Outgoing.lineUp, Outgoing.completions, Outgoing.held, Outgoing.inHand, Outgoing.waiting,
    outgoing, listener, Function.comp_def]

theorem numbered_listener (h : e.outgoing.Numbered) : (e.listener rest).outgoing.Numbered := by
  have hserials : (e.outgoing.handedIn.map Job.unkeyed).map (·.serial) =
      e.outgoing.handedIn.map (·.serial) := by
    simp [Job.unkeyed, Function.comp_def]
  rw [Outgoing.Numbered, lineUp_listener, hserials]
  exact ((Outgoing.handedIn_perm e.outgoing).map _).trans h

theorem handedIn_listener (h : e.outgoing.Numbered) : (e.listener rest).outgoing.handedIn =
    e.outgoing.handedIn.map Job.unkeyed := by
  refine Outgoing.eq_of_serials ?_ (numbered_listener h).handedIn_pairwise ?_
  · exact (Outgoing.handedIn_perm _).trans (.of_eq lineUp_listener)
  · exact List.pairwise_map.mpr h.handedIn_pairwise

theorem listener_listener (h : e.outgoing.Numbered) :
    (e.listener rest).listener [] = e.listener rest := by
  have hjobs : (e.listener rest).outgoing.handedIn.map Job.unkeyed =
      e.outgoing.handedIn.map Job.unkeyed := by
    rw [handedIn_listener h, List.map_map]
    exact List.map_congr_left fun j _ => unkeyed_unkeyed j
  have hcompletions : ((e.listener rest).outgoing.handedIn.map
      (⟨·.unkeyed, .written⟩ : Job → Completion)).toArray =
      (e.outgoing.handedIn.map (⟨·.unkeyed, .written⟩ : Job → Completion)).toArray := by
    have := congrArg (fun js => (js.map (⟨·, .written⟩ : Job → Completion)).toArray) hjobs
    simpa only [List.map_map, Function.comp_def] using this
  rw [listener, hcompletions]
  simp [listener, Life.untorn]

/-- A job that is handed in counts as written. -/
theorem listener_enter (h : e.outgoing.Numbered) {j : Job} (hj : j.serial = e.outbox.nextSerial)
    (f : OutgoingFrame) (keys : Nat) (timer : Option Timer) :
    ({ e with life := { e.life with timer }, outbox := e.outbox.enter j f keys } :
        Endpoint).listener rest =
      { e.listener rest with
        outbox := { (e.listener rest).outbox with nextSerial := e.outbox.nextSerial + 1 }
        writer :=
          { (e.listener rest).writer with
            completions := (e.listener rest).writer.completions.push ⟨j.unkeyed, .written⟩ } } := by
  have hline := Outgoing.lineUp_enter e.outgoing j f keys e.life.closing
  have hjobs : Outgoing.handedIn
      { e.outgoing with outbox := e.outbox.enter j f keys, closing := e.life.closing } =
      e.outgoing.handedIn ++ [j] :=
    h.handedIn_join (h.move (.join j hline hj rfl)) hline hj
  rw [listener, show Endpoint.outgoing { e with
      life := { e.life with timer }
      outbox := e.outbox.enter j f keys } =
      { e.outgoing with outbox := e.outbox.enter j f keys, closing := e.life.closing } from rfl,
    hjobs]
  simp [listener, Outbox.enter, Life.untorn]

theorem listener_control (rest : Bytes) (h : e.outgoing.Numbered) {key key' : Option Key}
    (hkey : key'.isSome = key.isSome) (kind : JobKind) (op : Opcode) (payload : Bytes) (last : Bool)
    (f f' : OutgoingFrame) (keys keys' : Nat) (timer timer' : Option Timer) :
    ({ e with
        life := { e.life with timer }
        outbox :=
          e.outbox.enter (.control e.outbox.nextSerial kind op payload key last) f keys } :
      Endpoint).listener rest =
      ({ e.listener rest with
          life := { (e.listener rest).life with timer := timer' }
          outbox :=
            (e.listener rest).outbox.enter
              (.control (e.listener rest).outbox.nextSerial kind op payload key' last) f' keys' } :
        Endpoint).listener [] := by
  have hjob := unkeyed_control hkey e.outbox.nextSerial kind op payload last
  rw [listener_enter h rfl, listener_enter (numbered_listener h) rfl, listener_listener h, hjob]
  rfl

/-! What the reader does. -/

theorem Ready.read (h : e.Ready kind) (r : Reader) : Ready kind { e with reader := r } :=
  ⟨h.opened, h.running, h.room, h.free⟩

theorem ready_listener (kind : JobKind) : (e.listener rest).Ready kind :=
  ⟨rfl, WriterState.noConfusion, Nat.zero_lt_succ _, by cases kind <;> rfl⟩

theorem listener_read (hn : e.outgoing.Numbered) (r : Reader) :
    ({ e with reader := r } : Endpoint).listener rest =
      ({ e.listener rest with
          reader := { r with input := { r.input with bytes := r.input.bytes ++ rest } } } :
        Endpoint).listener [] := by
  have hsame : (e.listener rest).listener [] = e.listener rest := listener_listener hn
  have hthere : ∀ r' : Reader, ({ e.listener rest with reader := r' } : Endpoint).listener [] =
      { (e.listener rest).listener [] with reader := r' } := by
    intro r'
    simp only [listener, List.append_nil]
    rfl
  rw [hthere, hsame]
  rfl

theorem listener_report (e : Endpoint) (err : Error) :
    (e.report err).listener rest = (e.listener rest).report err := by
  unfold report
  rw [show (e.listener rest).life.reported = e.life.reported from rfl]
  split <;> rfl

theorem listener_endRead (e : Endpoint) (r : ReadResult) :
    (e.endRead r).listener rest = (e.listener rest).endRead r := rfl

theorem listener_closeDown (rest : Bytes) (h : e.Ready .close) (hn : e.outgoing.Numbered)
    {code : CloseCode} {reason : String} {payload : Bytes}
    (henc : ClosePayload.encode code reason = .ok payload) :
    (e.closeDown code reason).listener rest =
      ((e.listener rest).closeDown code reason).listener [] := by
  have hthere : (e.listener rest).Ready .close := ready_listener .close
  obtain ⟨key, keys, hkey, heq⟩ := closeDown_eq h henc
  obtain ⟨key', keys', hkey', heq'⟩ := closeDown_eq hthere henc
  rw [heq, heq']
  exact listener_control rest hn (hkey'.trans hkey.symm) .close .close payload true _ _ _ _ _ _

theorem listener_rejectPeer (h : e.Ready .close) (hn : e.outgoing.Numbered)
    (hcl : e.life.closing = false) (v : Violation) :
    (e.rejectPeer v).listener rest = ((e.listener rest).rejectPeer v).listener [] := by
  have ho := outgoing_report e v.toError
  have hready : (e.report v.toError).Ready .close := by
    obtain ⟨h1, h2, h3, h4⟩ := h
    refine ⟨(congrArg Outgoing.closed ho).trans h1, ?_, ?_, ?_⟩
    · rwa [writer_report]
    · rwa [outbox_report]
    · rwa [outbox_report]
  have hcl' : ∀ d : Endpoint, d.life.closing = false →
      ¬ (d.report v.toError).life.closing = true := by
    intro d hd
    rw [show (d.report v.toError).life.closing = d.life.closing from
      congrArg Outgoing.closing (outgoing_report d v.toError), hd]
    exact Bool.false_ne_true
  have hdown := listener_closeDown rest hready (by rwa [ho]) v.encode_eq
  rw [rejectPeer, rejectPeer, if_neg (hcl' e hcl), if_neg (hcl' (e.listener rest) hcl),
    listener_endRead, listener_endRead, hdown, listener_report]

theorem listener_readHeaderPiece (h : e.Ready .close) (hn : e.outgoing.Numbered)
    (hcl : e.life.closing = false) (p : HeaderProgress) (piece : Bytes) :
    (e.readHeaderPiece p piece).listener rest =
      ((e.listener rest).readHeaderPiece p piece).listener [] := by
  have hreject : ∀ v, (e.rejectPeer v).listener rest =
      ((e.listener rest).rejectPeer v).listener [] := listener_rejectPeer h hn hcl
  unfold readHeaderPiece
  rw [show (e.listener rest).config = e.config from rfl]
  split
  · exact hreject _
  · exact listener_read hn _
  · unfold openFrame
    rw [show (e.listener rest).config = e.config from rfl,
      show (e.listener rest).reader.sequencing = e.reader.sequencing from rfl]
    split
    · exact hreject _
    · exact listener_read hn _
    · split
      · exact listener_read hn _
      · exact hreject _

theorem listener_deliverText (h : e.Ready .close) (hn : e.outgoing.Numbered)
    (hcl : e.life.closing = false) (c : Chunk) :
    (e.deliverText c).listener rest = ((e.listener rest).deliverText c).listener [] := by
  have hreject : ∀ text v,
      ({ e with reader := { e.reader with text } }.rejectPeer v).listener rest =
        ({ e.listener rest with reader := { (e.listener rest).reader with text } }.rejectPeer
          v).listener [] := fun text v =>
    listener_rejectPeer (e := { e with reader := { e.reader with text } }) (h.read _) hn hcl v
  unfold deliverText
  rw [show (e.listener rest).reader.text = e.reader.text from rfl]
  dsimp only
  split
  · exact hreject _ _
  · split
    · exact hreject _ _
    · exact listener_read hn _

theorem listener_readData (h : e.Ready .close) (hn : e.outgoing.Numbered)
    (hcl : e.life.closing = false) (f : IncomingFrame) (piece : Bytes) :
    (e.readData f piece).listener rest = ((e.listener rest).readData f piece).listener [] := by
  have htext : ∀ stage c, ((e.setStage stage).deliverText c).listener rest =
      (((e.listener rest).setStage stage).deliverText c).listener [] := fun stage c =>
    listener_deliverText (e := e.setStage stage) (h.read _) hn hcl c
  unfold readData
  dsimp only
  by_cases hb : f.kind.isBinary = true
  · rw [if_pos hb, if_pos hb]
    exact listener_read hn _
  · rw [if_neg hb, if_neg hb]
    exact htext _ _

theorem listener_readControl (h : e.Ready .close) (hn : e.outgoing.Numbered)
    (hcl : e.life.closing = false) (hsilent : e.callbacks.calls = []) (hd : Header)
    (piece : Bytes) : (e.readControl hd piece).listener rest =
      ((e.listener rest).readControl hd piece).listener [] := by
  have hreal := notify_silent hsilent
  have hthere := notify_silent (e := e.listener rest) hsilent
  unfold readControl
  split
  · exact listener_rejectPeer h hn hcl _
  · exact listener_read hn _
  · next c _ =>
    cases c with
    | close p =>
      have hcl' : (e.listener rest).life.closing = false := hcl
      rw [handleControl, handleControl, if_neg (by simp [hcl]), if_neg (by simp [hcl']), hreal,
        hthere, listener_endRead, listener_endRead]
      refine congrArg (endRead · .ended) ?_
      exact listener_closeDown rest (e := { e with reader :=
        { e.reader with controls := e.reader.controls.push ⟨.close p, []⟩ } }) (h.read _) hn rfl
    | ping payload =>
      rw [handleControl, handleControl, hreal, hthere]
      exact listener_read hn _
    | pong payload =>
      rw [handleControl, handleControl, hreal, hthere]
      exact listener_read hn _

theorem listener_answerPing (h : e.Ready .pong) (hn : e.outgoing.Numbered)
    (hcl : e.life.closing = false) (payload : Bytes) :
    (e.answerPing payload).listener rest =
      ((e.listener rest).answerPing payload).listener [] := by
  have hthere : (e.listener rest).Ready .pong := ready_listener .pong
  obtain ⟨key, keys, hkey, heq⟩ := queuePong_eq h hcl payload
  obtain ⟨key', keys', hkey', heq'⟩ := queuePong_eq hthere hcl payload
  have hjob := listener_control rest hn (hkey'.trans hkey.symm) .pong .pong payload false
    e.outbox.frame (e.listener rest).outbox.frame keys keys' e.life.timer
    (e.listener rest).life.timer
  rw [answerPing, answerPing, heq, heq']
  exact congrArg (fun d : Endpoint => { d with reader :=
    { d.reader with lastPong := some e.outbox.nextSerial, stage := .header .start } }) hjob

/-- On a stream that is in order, what the reader can do is what it does. -/
theorem readerStep_of_move (hm : ReaderMove e e') (hreading : e.reader.reading.isSome = true)
    (hfault : e.reader.input.fault = none) (hended : e.reader.input.ended = false) :
    e.readerStep = some e' := by
  have hclean := Input.take_clean hfault hended
  obtain ⟨m, hm'⟩ := Option.isSome_iff_exists.mp hreading
  have hgo : ∀ {d : Endpoint}, d.Listens → ¬ (d.reader.finished || d.life.closed) = true := by
    rintro d ⟨h1, h2⟩
    simp [h1, h2]
  unfold readerStep
  rw [hm']
  dsimp only
  cases hm with
  | leave hover => rw [if_pos hover]
  | fail f n _ ht =>
    rcases ht with ht | ht
    · exact absurd ht ((hclean n).1 f)
    · exact absurd ht (hclean n).2
  | finish _ _ ht => exact absurd ht (hclean _).2
  | header p piece rest hopen hs ht | data p piece rest hopen hs ht
  | control p piece rest hopen hs ht =>
    rw [if_neg (hgo hopen), hs]
    dsimp only
    rw [ht]
  | answer payload hopen hs hp =>
    rw [if_neg (hgo hopen), hs]
    dsimp only
    rw [if_neg (by simp [hp])]

/-- The reader goes on in the same way with the writer out of account. -/
theorem listener_readerStep (hopen : e.Listens) (hclose : e.Ready .close)
    (hpong : e.pongOutstanding = false → e.Ready .pong) (hn : e.outgoing.Numbered)
    (hcl : e.life.closing = false) (hsilent : e.callbacks.calls = [])
    (hfault : e.reader.input.fault = none) (hended : e.reader.input.ended = false)
    (hstep : e.readerStep = some e') : ReadsOn (e.listener rest) (e'.listener rest) := by
  have hclean := Input.take_clean hfault hended
  obtain ⟨hreading, hm⟩ := readerStep_cases hstep
  have hopen' : (e.listener rest).Listens := ⟨hopen.1, rfl⟩
  have hthere : ∀ {d : Endpoint}, ReaderMove (e.listener rest) d →
      (e.listener rest).readerStep = some d := fun hd =>
    readerStep_of_move hd hreading hfault hended
  cases hm with
  | leave hover =>
    rw [hopen.1, hopen.2] at hover
    cases hover
  | fail f n _ ht =>
    rcases ht with ht | ht
    · exact absurd ht ((hclean n).1 f)
    · exact absurd ht (hclean n).2
  | finish _ _ ht => exact absurd ht (hclean _).2
  | header p piece more _ hs ht =>
    exact ⟨_, hthere (.header p piece (more ++ rest) hopen' hs (Input.take_more ht rest)),
      listener_readHeaderPiece (e := e.setInput more) (hclose.read _) hn hcl p piece⟩
  | data f piece more _ hs ht =>
    exact ⟨_, hthere (.data f piece (more ++ rest) hopen' hs (Input.take_more ht rest)),
      listener_readData (e := e.setInput more) (hclose.read _) hn hcl f piece⟩
  | control c piece more _ hs ht =>
    exact ⟨_, hthere (.control c piece (more ++ rest) hopen' hs (Input.take_more ht rest)),
      listener_readControl (e := e.setInput more) (hclose.read _) hn hcl hsilent c piece⟩
  | answer payload _ hs hp =>
    exact ⟨_, hthere (.answer payload hopen' hs (pongOutstanding_of_held rfl)),
      listener_answerPing (hpong hp) hn hcl payload⟩

/-! What the others do leaves the end as it was to its reader. -/

theorem untorn_teardown (e : Endpoint) : e.teardown.life.untorn = e.life.untorn := by
  unfold teardown
  split <;> rfl

theorem untorn_stop (e : Endpoint) : e.stop.life.untorn = e.life.untorn :=
  untorn_teardown e.abortWaiting

theorem untorn_writerStep (h : e.Undisturbed) (hstep : e.writerStep = some e') :
    e'.life.untorn = e.life.untorn := by
  cases writerStep_cases hstep with
  | cut job => exact untorn_stop (e.finish job .aborted)
  | fail job unsent f _ _ hf =>
    rcases hf with hf | ⟨hne, hf⟩
    · exact absurd (h.flushFault.symm.trans hf) (by simp)
    · exact absurd hf (h.taking.write hne f)
  | complete job =>
    unfold complete
    dsimp only
    split
    · rw [untorn_stop, untorn_teardown]
      rfl
    · split <;> rfl
  | put => rfl
  | takeHeld job | takeNew job =>
    rw [life_takeUp]
    rfl
  | stop => exact untorn_stop e

theorem listener_writerStep (h : e.Undisturbed) (hsend : e.Sending fits)
    (hstep : e.writerStep = some e') : e'.listener rest = e.listener rest := by
  have hm : Outgoing.Move e.masks fits e.outgoing e'.outgoing := writerStep_move hstep
  obtain ⟨hconfig, hcallbacks, -, -⟩ := writerStep_settings hstep
  obtain ⟨-, hserial, -⟩ := writerStep_calls hstep
  have hjobs : e'.outgoing.handedIn = e.outgoing.handedIn :=
    (Outgoing.LineMove.of_move hsend.phased hm).handedIn_eq hsend.numbered hserial
  unfold listener
  rw [hconfig, hcallbacks, hserial, hjobs, untorn_writerStep h hstep,
    (sendingWork_writerStep hstep).1]

theorem listener_feed (e : Endpoint) (b : Bytes) :
    ((e.accept (.feed b)).1.giveTurn .reader).listener rest = e.listener (b ++ rest) := by
  unfold listener
  rw [← List.append_assoc]
  rfl

end Endpoint

end WebSocket
