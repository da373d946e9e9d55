import WebSocket.Error

/-!
JSON numbers, as far as a reader of natural numbers tells them apart: naturals that fit in 64 bits,
numbers that do not, and numbers too large for a double-precision number to hold.
-/

namespace WebSocket.Json

inductive Numeral where
  | natural (n : UInt64)
  | unsuited
  | outOfRange
  deriving DecidableEq, Repr

/-- The nearest number with at most 53 binary digits, the even one of two. -/
def round53 (n : Nat) : Nat :=
  let drop := n.log2 + 1 - 53
  let unit := 1 <<< drop
  let q := n / unit
  let twice := 2 * (n % unit)
  if twice > unit ∨ (twice = unit ∧ q % 2 = 1) then (q + 1) * unit else q * unit

/-- The significand that the digits make, as long as it stays below 2 to the 64, and the digits left
over. -/
def significand (n : Nat) : List Nat → Nat × List Nat
  | [] => (n, [])
  | d :: ds => if n * 10 + d < UInt64.size then significand (n * 10 + d) ds else (n, d :: ds)

def exceedsDouble (s : Nat) (exponent : Int) : Bool :=
  if s = 0 ∨ exponent < 0 then false
  else if exponent > 308 then true
  else 1 <<< 1024 ≤ round53 (round53 s * round53 (Nat.pow 10 exponent.toNat))

def decimal (digits : List Nat) : Nat := digits.foldl (fun n d => n * 10 + d) 0

structure Written where
  negative : Bool
  whole : List Nat
  fraction : Option (List Nat)
  exponent : Option (Bool × List Nat)

namespace Written

/-- Whether the number overflows. Digits beyond the 64-bit significand count only by their place,
and an exponent beyond 31 bits overflows unless the significand is zero. -/
def overflows (w : Written) : Bool :=
  let (s, excess) := significand 0 w.whole
  let (s, dropped) := significand s (w.fraction.getD [])
  let scale : Int := excess.length - ((w.fraction.getD []).length - dropped.length : Nat)
  match w.exponent with
  | none => exceedsDouble s scale
  | some (down, digits) =>
    let e := decimal digits
    if e ≥ 1 <<< 31 then !down && s != 0
    else exceedsDouble s (if down then scale - e else scale + e)

def value (w : Written) : Numeral :=
  if w.fraction.isNone ∧ w.exponent.isNone ∧ w.negative = false ∧ decimal w.whole < UInt64.size then
    .natural (decimal w.whole).toUInt64
  else if w.fraction.isNone ∧ w.exponent.isNone ∧ decimal w.whole < UInt64.size then .unsuited
  else if w.overflows then .outOfRange
  else .unsuited

end Written

end WebSocket.Json
