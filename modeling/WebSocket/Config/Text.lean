import WebSocket.Config.Field

/-!
Configurations as JSON text. A configuration is an object, in which missing fields take their
defaults and unknown fields are skipped, or an array of the fields in order.
-/

namespace WebSocket.Config

open Json

/-- Takes the elements of an array, from its opening bracket or the last element on. -/
def takeElements (c : Config) (first : Bool) : List Field → List Token →
    Except JsonFault (Config × List Token)
  | _, [] => .error .endsEarly
  | _, .closeBracket :: ts => .ok (c, ts)
  | [], _ :: _ => .error .notJson
  | f :: fs, t :: ts =>
    if first then do
      let (c, ts) ← takeField c f (t :: ts)
      takeElements c false fs ts
    else if t = .comma then
      match ts with
      | .closeBracket :: _ => .error .notJson
      | ts => do
        let (c, ts) ← takeField c f ts
        takeElements c false fs ts
    else .error .notJson

/-- Takes one member of an object, from its key on. A field may not occur twice. -/
def takeMember (c : Config) (seen : List Field) :
    List Token → Except JsonFault (Config × List Field × List Token)
  | .string (some key) :: ts =>
    match Field.ofName? key with
    | some f =>
      if f ∈ seen then .error .wrongShape
      else do
        let ts ← takeMark .colon ts
        let (c, ts) ← takeField c f ts
        .ok (c, f :: seen, ts)
    | none => do
      let ts ← takeMark .colon ts
      let ts ← skipValue ts
      .ok (c, seen, ts)
  | .brokenString b :: _ => .error b.taken
  | _ :: _ => .error .notJson
  | [] => .error .endsEarly

theorem length_takeMember {c c' : Config} {seen seen' : List Field} {ts rest : List Token}
    (h : takeMember c seen ts = .ok (c', seen', rest)) : rest.length < ts.length := by
  unfold takeMember at h
  split at h
  · split at h
    · split at h
      · simp at h
      · obtain ⟨ts₁, h₁, h⟩ := ok_of_bind h
        obtain ⟨⟨c₂, ts₂⟩, h₂, h⟩ := ok_of_bind h
        cases h
        have := length_takeMark h₁
        have := length_takeField h₂
        simp only [List.length_cons]
        omega
    · obtain ⟨ts₁, h₁, h⟩ := ok_of_bind h
      obtain ⟨ts₂, h₂, h⟩ := ok_of_bind h
      cases h
      have := length_takeMark h₁
      have := length_skipValue h₂
      simp only [List.length_cons]
      omega
  · simp at h
  · simp at h
  · simp at h

def takeMembers (c : Config) (seen : List Field) (first : Bool) (ts : List Token) :
    Except JsonFault (Config × List Token) :=
  match ts with
  | [] => .error .endsEarly
  | .closeBrace :: rest => .ok (c, rest)
  | t :: rest =>
    if first || t = .comma then
      match _h : takeMember c seen (if first then t :: rest else rest) with
      | .error f => .error f
      | .ok (c, seen, more) => takeMembers c seen false more
    else .error .notJson
termination_by ts.length
decreasing_by
  have := length_takeMember _h
  split at this
  · exact this
  · exact Nat.lt_succ_of_lt this

def ofTokens : List Token → Except JsonFault Config
  | .openBrace :: ts => takeMembers server [] true ts >>= atEnd
  | .openBracket :: ts => takeElements server true Field.all ts >>= atEnd
  | t :: _ => .error (wrongType t)
  | [] => .error .endsEarly
where
  atEnd : Config × List Token → Except JsonFault Config
    | (c, []) => .ok c
    | (_, _ :: _) => .error .notJson

def parse (text : String) : Except JsonFault Config := ofTokens (tokens text.toUTF8.toList)

def boolText (b : Bool) : String := if b then "true" else "false"

def fieldText (c : Config) : Field → String
  | .role => "\"" ++ c.role.name ++ "\""
  | .closeTimeout => toString c.closeTimeout.toNat
  | .maxFrameSize => toString c.maxFrameSize.toNat
  | .readChunkSize => toString c.readChunkSize.toNat
  | .acceptText => boolText c.acceptText
  | .acceptBinary => boolText c.acceptBinary

/-- Writes a configuration as an object without blanks, the fields in order. -/
def render (c : Config) : String :=
  "\x7b" ++ ",".intercalate (Field.all.map fun f => "\"" ++ f.name ++ "\":" ++ fieldText c f) ++
    "\x7d"

end WebSocket.Config
