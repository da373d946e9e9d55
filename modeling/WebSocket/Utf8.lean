import WebSocket.Bytes

/-!
Well-formed UTF-8 read byte by byte. Between two bytes it is known which ranges the bytes of the
unfinished character must still lie in, so text can be checked piece by piece.
-/

namespace WebSocket.Utf8

structure ByteRange where
  low : UInt8
  high : UInt8
  deriving DecidableEq, Repr

def ByteRange.has (r : ByteRange) (b : UInt8) : Bool := r.low ≤ b && b ≤ r.high

def tailRange : ByteRange := ⟨0x80, 0xbf⟩

/-- The ranges of the bytes that must follow the first byte of a character. No character starts with
a byte that has none: overlong forms, surrogates and numbers beyond the last character are left
out. -/
def following (b : UInt8) : Option (List ByteRange) :=
  if b ≤ 0x7f then some []
  else if b ≤ 0xc1 then none
  else if b ≤ 0xdf then some [tailRange]
  else if b = 0xe0 then some [⟨0xa0, 0xbf⟩, tailRange]
  else if b = 0xed then some [⟨0x80, 0x9f⟩, tailRange]
  else if b ≤ 0xef then some [tailRange, tailRange]
  else if b = 0xf0 then some [⟨0x90, 0xbf⟩, tailRange, tailRange]
  else if b ≤ 0xf3 then some [tailRange, tailRange, tailRange]
  else if b = 0xf4 then some [⟨0x80, 0x8f⟩, tailRange, tailRange]
  else none

/-- Where a text stands: the bytes of its unfinished character and the ranges still to come. -/
structure Cursor where
  seen : Bytes
  expected : List ByteRange
  deriving DecidableEq, Repr

namespace Cursor

def rest : Cursor := ⟨[], []⟩

def step (c : Cursor) (b : UInt8) : Option Cursor :=
  match c.expected with
  | [] =>
    match following b with
    | none => none
    | some [] => some rest
    | some ranges => some ⟨[b], ranges⟩
  | r :: ranges =>
    if r.has b then
      match ranges with
      | [] => some rest
      | _ => some ⟨c.seen ++ [b], ranges⟩
    else none

def run (c : Cursor) : Bytes → Option Cursor
  | [] => some c
  | b :: bs =>
    match c.step b with
    | none => none
    | some d => d.run bs

theorem run_append (c : Cursor) (a b : Bytes) : c.run (a ++ b) = (c.run a).bind (·.run b) := by
  induction a generalizing c with
  | nil => rfl
  | cons x xs ih =>
    simp only [List.cons_append, run]
    cases c.step x with
    | none => rfl
    | some d => exact ih d

end Cursor

inductive Reading where
  | whole
  | cut (tail : Bytes)
  | malformed
  deriving DecidableEq, Repr

/-- Reads a piece of text from its start: `cut` says that it is sound but ends inside a character,
of which it gives the bytes. -/
def read (b : Bytes) : Reading :=
  match Cursor.rest.run b with
  | none => .malformed
  | some c => if c.seen = [] then .whole else .cut c.seen

end WebSocket.Utf8
