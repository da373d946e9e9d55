import WebSocket.Utf8

/-!
Checking text that comes in pieces. The bytes of a character cut by the end of a piece are kept, and
the next piece is first used to complete them.
-/

namespace WebSocket.Utf8

/-- The bytes of the unfinished character at the end of the text so far. -/
structure Validator where
  pending : Bytes
  deriving DecidableEq, Repr

def characterLength (b : UInt8) : Nat :=
  if 0xc0 ≤ b ∧ b ≤ 0xdf then 2 else if 0xe0 ≤ b ∧ b ≤ 0xef then 3 else 4

namespace Validator

def new : Validator := ⟨[]⟩

/-- Whether the text so far ends between two characters. -/
def isComplete (v : Validator) : Bool := v.pending.isEmpty

def feedFresh (piece : Bytes) : Bool × Validator :=
  match read piece with
  | .whole => (true, new)
  | .cut tail => (true, ⟨tail⟩)
  | .malformed => (false, new)

/-- Checks the next piece: whether the text is still sound, and the state after it. -/
def feed (v : Validator) (piece : Bytes) : Bool × Validator :=
  match v.pending with
  | [] => feedFresh piece
  | first :: _ =>
    let missing := characterLength first - v.pending.length
    let begun := v.pending ++ piece.take missing
    match read begun with
    | .whole => feedFresh (piece.drop missing)
    | .cut _ => (true, ⟨begun⟩)
    | .malformed => (false, ⟨begun⟩)

end Validator

end WebSocket.Utf8
