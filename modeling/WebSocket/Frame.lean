import WebSocket.Header

/-!
Whole frames in memory: building the bytes of one, reading one from the front of a buffer, and
reading as many as a buffer holds.
-/

namespace WebSocket

/-- A frame with its payload unmasked. -/
structure Frame where
  header : Header
  payload : Bytes
  deriving DecidableEq, Repr

namespace Frame

/-- The bytes of a frame. The length in the header is written as it is, so it may announce more
bytes than the payload has. -/
def build (h : Header) (payload : Bytes) : Bytes := h.encode ++ maskWith h.mask 0 payload

def parse? (b : Bytes) : Option (Frame × Nat) := do
  let (h, used) ← Header.decode? b
  let (body, _) ← splitAt? h.payloadLength.toNat (b.drop used)
  some (⟨h, maskWith h.mask 0 body⟩, used + h.payloadLength.toNat)

theorem used_of_parse? {b : Bytes} {f : Frame} {used : Nat} (h : parse? b = some (f, used)) :
    2 ≤ used ∧ used ≤ b.length := by
  simp only [parse?, Option.bind_eq_bind, Option.bind_eq_some_iff] at h
  obtain ⟨⟨hd, n⟩, h1, ⟨body, r⟩, h2, h3⟩ := h
  obtain ⟨hn, hb⟩ := Header.used_of_decode? h1
  obtain ⟨hl, he⟩ := length_of_splitAt? h2
  cases h3
  have := congrArg List.length he
  simp only [List.length_drop, List.length_append, hl] at this
  simp only at this ⊢
  omega

/-- The whole frames at the front of a buffer, up to the first that is not there whole. -/
def parseAll (b : Bytes) : List Frame :=
  match _h : parse? b with
  | some (f, used) => f :: parseAll (b.drop used)
  | none => []
termination_by b.length
decreasing_by
  have := used_of_parse? _h
  simp only [List.length_drop]
  omega

end Frame

end WebSocket
