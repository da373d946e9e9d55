import WebSocket.Json.Token

/-!
Skipping a JSON value: the tokens are checked against the grammar and nothing is kept. The arrays
and objects that are open form a stack, so no depth is too great.
-/

namespace WebSocket.Json

inductive Enclosure where
  | array
  | object
  deriving DecidableEq, Repr

/-- What may come next: a value; the first thing after an opening bracket or brace; a key; a colon;
or a comma or closing mark. -/
inductive Due where
  | value
  | first
  | key
  | colon
  | next
  deriving DecidableEq, Repr

/-- The effect of one token: a fault, or the open enclosures and what is due. -/
def skipToken (stack : List Enclosure) (due : Due) (t : Token) :
    Except JsonFault (List Enclosure × Due) :=
  let isValue := due = .value ∨ (due = .first ∧ stack.head? = some .array)
  let isKey := due = .key ∨ (due = .first ∧ stack.head? = some .object)
  let isClose := due = .first ∨ due = .next
  match t with
  | .null | .bool _ | .number _ => if isValue then .ok (stack, .next) else .error .notJson
  | .string _ =>
    if isValue then .ok (stack, .next)
    else if isKey then .ok (stack, .colon)
    else .error .notJson
  | .openBracket => if isValue then .ok (.array :: stack, .first) else .error .notJson
  | .openBrace => if isValue then .ok (.object :: stack, .first) else .error .notJson
  | .closeBracket =>
    if isClose ∧ stack.head? = some .array then .ok (stack.tail, .next) else .error .notJson
  | .closeBrace =>
    if isClose ∧ stack.head? = some .object then .ok (stack.tail, .next) else .error .notJson
  | .comma =>
    if due = .next then .ok (stack, if stack.head? = some .array then .value else .key)
    else .error .notJson
  | .colon => if due = .colon then .ok (stack, .value) else .error .notJson
  | .brokenString b => .error (if isValue ∨ isKey then b.skipped else .notJson)
  | .broken b => .error (if isValue then b.skipped else .notJson)

def skip (stack : List Enclosure) (due : Due) : List Token → Except JsonFault (List Token)
  | [] => .error .endsEarly
  | t :: ts =>
    match skipToken stack due t with
    | .error f => .error f
    | .ok ([], .next) => .ok ts
    | .ok (stack, due) => skip stack due ts

def skipValue (ts : List Token) : Except JsonFault (List Token) := skip [] .value ts

theorem length_skip {stack : List Enclosure} {due : Due} {ts rest : List Token}
    (h : skip stack due ts = .ok rest) : rest.length ≤ ts.length := by
  induction ts generalizing stack due with
  | nil => cases h
  | cons t ts ih =>
    rw [skip] at h
    split at h
    · cases h
    · cases h
      simp
    · have := ih h
      simp only [List.length_cons]
      omega

theorem length_skipValue {ts rest : List Token} (h : skipValue ts = .ok rest) :
    rest.length ≤ ts.length :=
  length_skip h

end WebSocket.Json
