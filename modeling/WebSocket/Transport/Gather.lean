import WebSocket.Transport

/-!
Writing a header and a payload that lie apart. What is left of the two is offered together, the
stream takes as much of it as it likes, and a count says how much has been written. In the end the
stream is flushed.
-/

namespace WebSocket

/-- What is left of a header and a payload once some bytes of the two have been written, in slices
of which none is empty. -/
def remainingSlices (header payload : Bytes) (written : Nat) : List Bytes :=
  (if written < header.length then [header.drop written] else []) ++
    if written - header.length < payload.length then [payload.drop (written - header.length)]
    else []

inductive WriteAnswer where
  | took (n : Nat)
  | failed (f : Fault)
  | waits
  deriving DecidableEq, Repr

/-- A stream that is written to, from state to state. -/
structure Sink (σ : Type) where
  write : σ → List Bytes → WriteAnswer × σ
  flush : σ → Option Fault × σ

inductive SinkCall where
  | write (offered : List Bytes) (answer : WriteAnswer)
  | flush (fault : Option Fault)
  deriving DecidableEq, Repr

/-- How writing has ended, or that it goes on once the stream takes more. -/
inductive WriteEnd where
  | done
  | failed (f : Fault)
  | waits
  deriving DecidableEq, Repr

structure Gathered (σ : Type) where
  calls : List SinkCall
  ended : WriteEnd
  written : Nat
  stream : σ
  deriving Repr

def Gathered.after {σ : Type} (call : SinkCall) (r : Gathered σ) : Gathered σ :=
  { r with calls := call :: r.calls }

namespace Sink

variable {σ : Type}

def writeRest (k : Sink σ) (header payload : Bytes) (written : Nat) (s : σ) : Gathered σ :=
  if written < header.length + payload.length then
    let offered := remainingSlices header payload written
    match k.write s offered with
    | (.waits, s) => ⟨[.write offered .waits], .waits, written, s⟩
    | (.failed f, s) => ⟨[.write offered (.failed f)], .failed f, written, s⟩
    | (.took 0, s) => ⟨[.write offered (.took 0)], .failed .writeZero, written, s⟩
    | (.took (n + 1), s) =>
      (k.writeRest header payload (written + (n + 1)) s).after (.write offered (.took (n + 1)))
  else
    match k.flush s with
    | (none, s) => ⟨[.flush none], .done, written, s⟩
    | (some f, s) => ⟨[.flush (some f)], .failed f, written, s⟩
termination_by header.length + payload.length - written

def writeAll (k : Sink σ) (header payload : Bytes) (s : σ) : Gathered σ :=
  k.writeRest header payload 0 s

end Sink

end WebSocket
