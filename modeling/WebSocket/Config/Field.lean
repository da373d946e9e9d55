import WebSocket.Config
import WebSocket.Json.Skip

/-!
The fields of a configuration and how each is taken from JSON tokens. Taking a field uses up at
least one token.
-/

namespace WebSocket.Config

open Json

inductive Field where
  | role
  | closeTimeout
  | maxFrameSize
  | readChunkSize
  | acceptText
  | acceptBinary
  deriving DecidableEq, Repr

namespace Field

def all : List Field :=
  [role, closeTimeout, maxFrameSize, readChunkSize, acceptText, acceptBinary]

def name : Field → String
  | role => "role"
  | closeTimeout => "close_timeout_ms"
  | maxFrameSize => "max_frame_size"
  | readChunkSize => "read_chunk_size"
  | acceptText => "accept_text"
  | acceptBinary => "accept_binary"

def ofName? (s : Bytes) : Option Field := all.find? (·.name.toUTF8.toList = s)

end Field

def wrongType : Token → JsonFault
  | .null | .bool _ | .openBrace | .openBracket => .wrongShape
  | .number .outOfRange => .notJson
  | .number _ => .wrongShape
  | .string (some _) => .wrongShape
  | .string none => .notJson
  | .brokenString b | .broken b => b.taken
  | .closeBrace | .closeBracket | .comma | .colon => .notJson

def takeNatural : List Token → Except JsonFault (UInt64 × List Token)
  | .number (.natural n) :: ts => .ok (n, ts)
  | t :: _ => .error (wrongType t)
  | [] => .error .endsEarly

def takeBool : List Token → Except JsonFault (Bool × List Token)
  | .bool b :: ts => .ok (b, ts)
  | t :: _ => .error (wrongType t)
  | [] => .error .endsEarly

def takeMark (mark : Token) : List Token → Except JsonFault (List Token)
  | [] => .error .endsEarly
  | t :: ts => if t = mark then .ok ts else .error .notJson

/-- Takes the name of a role. Where a name is due, a token that starts no string is not JSON, even
if it is cut off. -/
def takeRoleName : List Token → Except JsonFault (Role × List Token)
  | .string (some s) :: ts =>
    if s = Role.server.name.toUTF8.toList then .ok (.server, ts)
    else if s = Role.client.name.toUTF8.toList then .ok (.client, ts)
    else .error .wrongShape
  | .brokenString b :: _ => .error b.taken
  | _ :: _ => .error .notJson
  | [] => .error .endsEarly

def takeNull : List Token → Except JsonFault (List Token)
  | .null :: ts => .ok ts
  | t :: _ => .error (wrongType t)
  | [] => .error .endsEarly

/-- A role is its name, or an object with the name as its one key and null as the value. -/
def takeRole : List Token → Except JsonFault (Role × List Token)
  | .openBrace :: ts => do
    let (r, ts) ← takeRoleName ts
    let ts ← takeMark .colon ts
    let ts ← takeNull ts
    let ts ← takeMark .closeBrace ts
    .ok (r, ts)
  | ts => takeRoleName ts

def stored (store : α → Config) (taken : Except JsonFault (α × List Token)) :
    Except JsonFault (Config × List Token) :=
  taken.map fun (a, ts) => (store a, ts)

def takeField (c : Config) (f : Field) (ts : List Token) :
    Except JsonFault (Config × List Token) :=
  match f with
  | .role => stored (fun r => { c with role := r }) (takeRole ts)
  | .closeTimeout => stored (fun n => { c with closeTimeout := n }) (takeNatural ts)
  | .maxFrameSize => stored (fun n => { c with maxFrameSize := n }) (takeNatural ts)
  | .readChunkSize => stored (fun n => { c with readChunkSize := n }) (takeNatural ts)
  | .acceptText => stored (fun b => { c with acceptText := b }) (takeBool ts)
  | .acceptBinary => stored (fun b => { c with acceptBinary := b }) (takeBool ts)

theorem length_takeNatural {ts rest : List Token} {n : UInt64}
    (h : takeNatural ts = .ok (n, rest)) : rest.length < ts.length := by
  unfold takeNatural at h
  split at h <;> cases h
  simp

theorem length_takeBool {ts rest : List Token} {b : Bool} (h : takeBool ts = .ok (b, rest)) :
    rest.length < ts.length := by
  unfold takeBool at h
  split at h <;> cases h
  simp

theorem length_takeMark {mark : Token} {ts rest : List Token} (h : takeMark mark ts = .ok rest) :
    rest.length < ts.length := by
  unfold takeMark at h
  split at h
  · simp at h
  · split at h <;> cases h
    simp

theorem length_takeRoleName {ts rest : List Token} {r : Role}
    (h : takeRoleName ts = .ok (r, rest)) : rest.length < ts.length := by
  unfold takeRoleName at h
  split at h
  · split at h
    · cases h
      simp
    · split at h <;> cases h
      simp
  · simp at h
  · simp at h
  · simp at h

theorem length_takeNull {ts rest : List Token} (h : takeNull ts = .ok rest) :
    rest.length < ts.length := by
  unfold takeNull at h
  split at h <;> cases h
  simp

theorem ok_of_bind {x : Except JsonFault α} {f : α → Except JsonFault β} {b : β}
    (h : (x >>= f) = .ok b) : ∃ a, x = .ok a ∧ f a = .ok b := by
  cases x with
  | error e => cases h
  | ok a => exact ⟨a, rfl, h⟩

theorem length_takeRole {ts rest : List Token} {r : Role} (h : takeRole ts = .ok (r, rest)) :
    rest.length < ts.length := by
  unfold takeRole at h
  split at h
  · obtain ⟨⟨r₁, ts₁⟩, h₁, h⟩ := ok_of_bind h
    obtain ⟨ts₂, h₂, h⟩ := ok_of_bind h
    obtain ⟨ts₃, h₃, h⟩ := ok_of_bind h
    obtain ⟨ts₄, h₄, h⟩ := ok_of_bind h
    cases h
    have := length_takeRoleName h₁
    have := length_takeMark h₂
    have := length_takeNull h₃
    have := length_takeMark h₄
    simp only [List.length_cons]
    omega
  · exact length_takeRoleName h

theorem ok_of_stored {store : α → Config} {taken : Except JsonFault (α × List Token)} {c : Config}
    {rest : List Token} (h : stored store taken = .ok (c, rest)) : ∃ a, taken = .ok (a, rest) := by
  cases taken with
  | error e => cases h
  | ok p =>
    obtain ⟨a, ts⟩ := p
    cases h
    exact ⟨a, rfl⟩

theorem length_takeField {c c' : Config} {f : Field} {ts rest : List Token}
    (h : takeField c f ts = .ok (c', rest)) : rest.length < ts.length := by
  cases f <;> rw [takeField] at h <;> obtain ⟨a, h⟩ := ok_of_stored h
  · exact length_takeRole h
  · exact length_takeNatural h
  · exact length_takeNatural h
  · exact length_takeNatural h
  · exact length_takeBool h
  · exact length_takeBool h

end WebSocket.Config
