import WebSocket.Bytes
import WebSocket.Json.Numeral

/-!
JSON text as a list of tokens. A text that is not JSON ends in a token that says what is wrong, so
that a reader meets the fault where it stands and not before. Some faults depend on whether the
reader takes the value or skips it.
-/

namespace WebSocket.Json

/-- A fault, for a reader that takes the value and for one that skips it. -/
structure Broken where
  taken : JsonFault
  skipped : JsonFault
  deriving DecidableEq, Repr

inductive Token where
  | openBrace
  | closeBrace
  | openBracket
  | closeBracket
  | comma
  | colon
  | null
  | bool (b : Bool)
  | number (n : Numeral)
  /-- A string; none if an escaped surrogate stands alone in it, which only a skipping reader
  allows. -/
  | string (s : Option Bytes)
  | brokenString (b : Broken)
  | broken (b : Broken)
  deriving DecidableEq, Repr

def byte (c : Char) : UInt8 := c.toUInt8

def isBlank (b : UInt8) : Bool :=
  b = byte ' ' || b = byte '\n' || b = byte '\t' || b = byte '\r'

def isDigit (b : UInt8) : Bool := byte '0' ≤ b && b ≤ byte '9'

def hexValue (b : UInt8) : Option Nat :=
  if isDigit b then some (b.toNat - (byte '0').toNat)
  else if byte 'a' ≤ b ∧ b ≤ byte 'f' then some (b.toNat - (byte 'a').toNat + 10)
  else if byte 'A' ≤ b ∧ b ≤ byte 'F' then some (b.toNat - (byte 'A').toNat + 10)
  else none

def hexNumber (a b c d : UInt8) : Option Nat := do
  let a ← hexValue a
  let b ← hexValue b
  let c ← hexValue c
  let d ← hexValue d
  some (((a * 16 + b) * 16 + c) * 16 + d)

def simpleEscape (b : UInt8) : Option UInt8 :=
  if b = byte '"' ∨ b = byte '\\' ∨ b = byte '/' then some b
  else if b = byte 'b' then some 8
  else if b = byte 'f' then some 12
  else if b = byte 'n' then some 10
  else if b = byte 'r' then some 13
  else if b = byte 't' then some 9
  else none

/-- What has been read of a string: its bytes, last first; a leading surrogate that waits for its
other half; whether a surrogate stood alone. -/
structure StringState where
  reversed : Bytes
  leading : Option Nat
  unpaired : Bool

namespace StringState

def empty : StringState := ⟨[], none, false⟩

/-- A waiting surrogate that is not followed by its other half stands alone. -/
def settle (s : StringState) : StringState :=
  { s with leading := none, unpaired := s.unpaired || s.leading.isSome }

def pushByte (s : StringState) (b : UInt8) : StringState :=
  let s := s.settle
  { s with reversed := b :: s.reversed }

def pushChar (s : StringState) (n : Nat) : StringState :=
  { s with reversed := (String.utf8EncodeChar (Char.ofNat n)).reverse ++ s.reversed }

def pushUnit (s : StringState) (n : Nat) : StringState :=
  if 0xdc00 ≤ n ∧ n ≤ 0xdfff then
    match s.leading with
    | some high =>
      { s with leading := none }.pushChar ((high - 0xd800) * 0x400 + (n - 0xdc00) + 0x10000)
    | none => { s with unpaired := true }
  else
    let s := s.settle
    if 0xd800 ≤ n ∧ n ≤ 0xdbff then { s with leading := some n } else s.pushChar n

def value (s : StringState) : Option Bytes :=
  let s := s.settle
  if s.unpaired then none else some s.reversed.reverse

/-- A fault inside the string. A lone surrogate before it is met first by a reader that takes the
string. -/
def broken (s : StringState) (f : JsonFault) : Token :=
  .brokenString ⟨if s.unpaired then .notJson else f, f⟩

end StringState

def stringToken (s : StringState) : Bytes → Token × Bytes
  | [] => (s.broken .endsEarly, [])
  | b :: rest =>
    if b = byte '"' then (.string s.value, rest)
    else if b = byte '\\' then
      match rest with
      | [] => (s.broken .endsEarly, [])
      | c :: rest =>
        if c = byte 'u' then
          match rest with
          | h₁ :: h₂ :: h₃ :: h₄ :: rest =>
            match hexNumber h₁ h₂ h₃ h₄ with
            | some n => stringToken (s.pushUnit n) rest
            | none => (s.broken .notJson, [])
          | _ => (s.broken .endsEarly, [])
        else
          match simpleEscape c with
          | some x => stringToken (s.pushByte x) rest
          | none => (s.broken .notJson, [])
    else if b < 0x20 then (s.broken .notJson, [])
    else stringToken (s.pushByte b) rest

def notJson : Token := .broken ⟨.notJson, .notJson⟩

/-- A number that the end of the text cuts off. A reader that skips it calls it no number. -/
def cutNumber : Token := .broken ⟨.endsEarly, .notJson⟩

def digits (b : Bytes) : List Nat := (b.takeWhile isDigit).map fun d => d.toNat - (byte '0').toNat

def noDigit (rest : Bytes) : Token × Bytes := (if rest.isEmpty then cutNumber else notJson, [])

def exponentSign : Bytes → Bool × Bytes
  | [] => (false, [])
  | c :: rest =>
    if c = byte '-' then (true, rest)
    else if c = byte '+' then (false, rest)
    else (false, c :: rest)

def exponentToken (w : Written) (b : Bytes) : Token × Bytes :=
  match b with
  | e :: rest =>
    if e = byte 'e' ∨ e = byte 'E' then
      let (down, rest) := exponentSign rest
      let ds := digits rest
      if ds.isEmpty then noDigit rest
      else (.number { w with exponent := some (down, ds) }.value, rest.dropWhile isDigit)
    else (.number w.value, b)
  | [] => (.number w.value, b)

def numberToken (negative : Bool) (b : Bytes) : Token × Bytes :=
  let whole := digits b
  let rest := b.dropWhile isDigit
  if whole.isEmpty then noDigit b
  else if whole.head? = some 0 ∧ 1 < whole.length then (notJson, [])
  else
    match rest with
    | p :: more =>
      if p = byte '.' then
        let fraction := digits more
        if fraction.isEmpty then noDigit more
        else exponentToken ⟨negative, whole, some fraction, none⟩ (more.dropWhile isDigit)
      else exponentToken ⟨negative, whole, none, none⟩ rest
    | [] => exponentToken ⟨negative, whole, none, none⟩ rest

def wordToken (t : Token) : List Char → Bytes → Token × Bytes
  | [], rest => (t, rest)
  | _ :: _, [] => (.broken ⟨.endsEarly, .endsEarly⟩, [])
  | c :: cs, b :: rest => if b = byte c then wordToken t cs rest else (notJson, [])

def mark? (b : UInt8) : Option Token :=
  if b = byte ',' then some .comma
  else if b = byte ':' then some .colon
  else if b = 0x7b then some .openBrace
  else if b = 0x7d then some .closeBrace
  else if b = byte '[' then some .openBracket
  else if b = byte ']' then some .closeBracket
  else none

def word? (b : UInt8) : Option (Token × List Char) :=
  if b = byte 'n' then some (.null, ['u', 'l', 'l'])
  else if b = byte 't' then some (.bool true, ['r', 'u', 'e'])
  else if b = byte 'f' then some (.bool false, ['a', 'l', 's', 'e'])
  else none

def tokenAt (b : UInt8) (rest : Bytes) : Token × Bytes :=
  match mark? b, word? b with
  | some t, _ => (t, rest)
  | none, some (t, cs) => wordToken t cs rest
  | none, none =>
    if b = byte '"' then stringToken .empty rest
    else if b = byte '-' then numberToken true rest
    else if isDigit b then numberToken false (b :: rest)
    else (notJson, [])

theorem length_stringToken (s : StringState) (b : Bytes) :
    (stringToken s b).2.length ≤ b.length := by
  fun_induction stringToken s b <;> simp_all <;> omega

theorem length_dropWhile (p : UInt8 → Bool) (b : Bytes) : (b.dropWhile p).length ≤ b.length :=
  (List.dropWhile_suffix p).length_le

theorem length_exponentSign (b : Bytes) : (exponentSign b).2.length ≤ b.length := by
  unfold exponentSign
  split
  · simp
  · split
    · simp
    · split <;> simp

theorem length_exponentToken (w : Written) (b : Bytes) :
    (exponentToken w b).2.length ≤ b.length := by
  unfold exponentToken
  split
  · next e rest =>
    split
    · simp only
      split
      · simp [noDigit]
      · have h₁ := length_dropWhile isDigit (exponentSign rest).2
        have h₂ := length_exponentSign rest
        simp only [List.length_cons]
        omega
    · simp
  · simp

theorem length_numberToken (negative : Bool) (b : Bytes) :
    (numberToken negative b).2.length ≤ (b.dropWhile isDigit).length := by
  unfold numberToken
  simp only
  split
  · simp [noDigit]
  · split
    · simp
    · split
      · next p more h =>
        rw [h]
        split
        · split
          · simp [noDigit]
          · refine Nat.le_trans (length_exponentToken _ _) ?_
            refine Nat.le_trans (length_dropWhile _ _) ?_
            simp
        · exact length_exponentToken _ _
      · next h =>
        rw [h]
        exact length_exponentToken _ _

theorem length_wordToken (t : Token) (cs : List Char) (b : Bytes) :
    (wordToken t cs b).2.length ≤ b.length := by
  induction cs generalizing b with
  | nil => simp [wordToken]
  | cons c cs ih =>
    cases b with
    | nil => simp [wordToken]
    | cons x b =>
      rw [wordToken]
      split
      · exact Nat.le_trans (ih b) (by simp)
      · simp

theorem length_tokenAt (b : UInt8) (rest : Bytes) : (tokenAt b rest).2.length ≤ rest.length := by
  unfold tokenAt
  split
  · exact Nat.le_refl _
  · exact length_wordToken _ _ _
  · split
    · exact length_stringToken _ _
    · split
      · exact Nat.le_trans (length_numberToken true rest) (length_dropWhile _ _)
      · split
        · next hd =>
          have := length_numberToken false (b :: rest)
          rw [List.dropWhile_cons_of_pos hd] at this
          exact Nat.le_trans this (length_dropWhile _ _)
        · simp

def tokens : Bytes → List Token
  | [] => []
  | b :: rest =>
    if isBlank b then tokens rest
    else
      match _h : tokenAt b rest with
      | (t, more) => t :: tokens more
termination_by b => b.length
decreasing_by
  · simp
  · have := length_tokenAt b rest
    simp only [_h] at this
    simp only [List.length_cons]
    omega

end WebSocket.Json
