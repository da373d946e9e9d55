import WebSocket.Proofs.Endpoint.Steps
import WebSocket.Transport.Gather

/-! Writing in slices. Whatever parts of it a stream takes, a job goes out once, from front to back,
and if the stream fails then what has gone out is what it had taken before. The writer of an end
writes its jobs in this way. -/

namespace WebSocket

variable {header payload : Bytes}

def SinkCall.taken : SinkCall → Bytes
  | .write offered (.took n) => offered.flatten.take n
  | .write _ (.failed _) | .write _ .waits | .flush _ => []

/-- How writing ends with a call; none if it goes on. -/
def SinkCall.ending : SinkCall → Option WriteEnd
  | .write _ (.took 0) => some (.failed .writeZero)
  | .write _ (.took (_ + 1)) => none
  | .write _ (.failed f) => some (.failed f)
  | .write _ .waits => some .waits
  | .flush none => some .done
  | .flush (some f) => some (.failed f)

open SinkCall

/-- The calls of the stream from a count of written bytes on. -/
inductive Course (header payload : Bytes) : Nat → List SinkCall → WriteEnd → Prop where
  | flush {written : Nat} (fault : Option Fault) {ended : WriteEnd}
      (hall : header.length + payload.length ≤ written)
      (hend : (SinkCall.flush fault).ending = some ended) :
      Course header payload written [.flush fault] ended
  | stop {written : Nat} (answer : WriteAnswer) {ended : WriteEnd}
      (hleft : written < header.length + payload.length)
      (hend : ending (.write (remainingSlices header payload written) answer) = some ended) :
      Course header payload written [.write (remainingSlices header payload written) answer] ended
  | more {written : Nat} (n : Nat) {calls : List SinkCall} {ended : WriteEnd}
      (hleft : written < header.length + payload.length)
      (h : Course header payload (written + (n + 1)) calls ended) :
      Course header payload written
        (.write (remainingSlices header payload written) (.took (n + 1)) :: calls) ended

namespace Course

variable {written : Nat} {calls before after : List SinkCall} {call : SinkCall} {ended : WriteEnd}

theorem length_le (h : Course header payload written calls ended) :
    calls.length ≤ header.length + payload.length - written + 1 := by
  induction h with
  | flush | stop => simp
  | more n hleft h ih =>
    rw [List.length_cons]
    omega

end Course

def Job.head (j : Job) : Bytes := (j.header.map Header.encode).getD []

/-- What a connection's stream says to the bytes of some slices, and what it does. -/
inductive Transport.Answers (t : Transport) (b : Bytes) : WriteAnswer → Transport → Prop where
  | waits (h : t.write b = .waits) : Answers t b .waits t
  | failed (f : Fault) (h : t.write b = .failed f) : Answers t b (.failed f) t
  | took (n : Nat) (t' : Transport) (h : t.write b = .took (b.drop (n + 1)) t')
      (hwire : t'.wire = t.wire ++ (b.take (n + 1)).toArray) : Answers t b (.took (n + 1)) t'

namespace Endpoint

variable {e : Endpoint} {job : Job} {written : Nat} {t : Transport}

end Endpoint

end WebSocket
