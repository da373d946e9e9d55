import WebSocket.Slots

/-!
Guards: a taken slot is given back through the guard that was handed out for it, once, either by
hand or when the guard is dropped. Several handles may share one slot table.
-/

namespace WebSocket

structure Guard where
  table : Nat
  kind : JobKind
  released : Bool
  deriving DecidableEq, Repr

def Guard.describe (g : Guard) : String :=
  "SlotGuard \x7b kind: " ++ g.kind.title ++ ", released: " ++
    (if g.released then "true" else "false") ++ " \x7d"

/-- Slot tables, the table behind each handle, and the guards kept under names. -/
structure GuardStore where
  tables : Nat → Slots
  tableOf : Nat → Nat
  guards : List (String × Guard)

namespace GuardStore

def empty (tableOf : Nat → Nat) : GuardStore := ⟨fun _ => .free, tableOf, []⟩

def slots (s : GuardStore) (handle : Nat) : Slots := s.tables (s.tableOf handle)

def find? (s : GuardStore) (name : String) : Option Guard := s.guards.lookup name

def setTable (s : GuardStore) (table : Nat) (slots : Slots) : GuardStore :=
  { s with tables := fun t => if t = table then slots else s.tables t }

def giveBack (s : GuardStore) (g : Guard) : GuardStore × Guard :=
  if g.released then (s, g)
  else (s.setTable g.table ((s.tables g.table).release g.kind), { g with released := true })

def forget (s : GuardStore) (name : String) : GuardStore :=
  { s with guards := s.guards.filter (·.1 != name) }

def drop (s : GuardStore) (name : String) : Option GuardStore :=
  (s.find? name).map fun g => (s.giveBack g).1.forget name

/-- Releases the guard kept under a name by hand, which uses it up. -/
def release (s : GuardStore) (name : String) : Option GuardStore :=
  (s.find? name).map fun g =>
    let (s, g) := s.giveBack g
    (s.giveBack g).1.forget name

/-- Tries to take a slot. The new guard is kept under the name; one kept there before is dropped
after the slot has been taken. -/
def acquire (s : GuardStore) (name : String) (handle : Nat) (kind : JobKind) :
    Except Refusal (Guard × GuardStore) :=
  match (s.slots handle).acquire? kind with
  | .error r => .error r
  | .ok slots =>
    let g : Guard := ⟨s.tableOf handle, kind, false⟩
    let s := s.setTable g.table slots
    let s := (s.drop name).getD s
    .ok (g, { s with guards := (name, g) :: s.guards })

end GuardStore

end WebSocket
