import Mathlib.Data.List.Basic
import Mathlib.Data.List.Nodup
import WebSocket.Slots.Guard

/-! A register of who holds which slot can be kept from the history alone: a guard holds its slot
from when it is handed out until it is first released or dropped. A slot table is a row of flags
that knows of no guard, and a guard a flag of its own that knows of no other; still the tables
always say what the register says. -/

namespace WebSocket

/-- What can be done with slot tables and guards. Each guard is kept in a place, under a name. -/
inductive GuardOp where
  /-- A guard that was in the place is dropped, once the slot has been taken. -/
  | acquire (name : String) (handle : Nat) (kind : JobKind)
  /-- The first half of a release, after which the guard is still to be dropped. -/
  | giveBack (name : String)
  | release (name : String)
  | drop (name : String)
  | move (name other : String)
  | share (handle other : Nat)

def GuardOp.places : GuardOp → List String
  | .acquire name _ _ | .giveBack name | .release name | .drop name => [name]
  | .move name other => [name, other]
  | .share _ _ => []

/-- Who holds which slot, and the table behind each handle. -/
structure Register where
  tableOf : Nat → Nat
  held : List (String × Nat × JobKind)

namespace Register

def start (tableOf : Nat → Nat) : Register := ⟨tableOf, []⟩

def holders (r : Register) (table : Nat) (kind : JobKind) : List String :=
  (r.held.filter (·.2 = (table, kind))).map (·.1)

def without (r : Register) (name : String) : Register :=
  { r with held := r.held.filter (·.1 != name) }

def enter (r : Register) (name : String) (slot : Nat × JobKind) : Register :=
  { r with held := (name, slot) :: r.held }

def apply (r : Register) : GuardOp → Register
  | .acquire name handle kind =>
    if r.holders (r.tableOf handle) kind = [] then
      (r.without name).enter name (r.tableOf handle, kind)
    else r
  | .giveBack name | .release name | .drop name => r.without name
  | .move name other =>
    let gone := (r.without name).without other
    match r.held.lookup name with
    | some slot => gone.enter other slot
    | none => gone
  | .share handle other =>
    { r with tableOf := fun h => if h = other then r.tableOf handle else r.tableOf h }

def applyAll (r : Register) (ops : List GuardOp) : Register := ops.foldl apply r

/-- The slots that an operation is about: the one that is asked for, and those of the guards that
are used. -/
inductive Concerns (r : Register) : GuardOp → Nat → JobKind → Prop where
  | asked (name : String) (handle : Nat) (kind : JobKind) :
      Concerns r (.acquire name handle kind) (r.tableOf handle) kind
  | used (op : GuardOp) (name : String) (table : Nat) (kind : JobKind) (hop : name ∈ op.places)
      (h : name ∈ r.holders table kind) : Concerns r op table kind

variable {r : Register} {name : String} {table : Nat} {kind : JobKind}

theorem mem_holders : name ∈ r.holders table kind ↔ (name, table, kind) ∈ r.held := by
  simp [holders]

theorem holders_without (hname : name ∉ r.holders table kind) :
    (r.without name).holders table kind = r.holders table kind := by
  unfold holders without
  rw [List.filter_filter]
  congr 1
  refine List.filter_congr fun p hp => ?_
  by_cases hslot : p.2 = (table, kind)
  · have hne : p.1 ≠ name := by
      rintro rfl
      exact hname (mem_holders.mpr (hslot ▸ hp))
    simp [hslot, hne]
  · simp [hslot]

theorem holders_enter (slot : Nat × JobKind) : (r.enter name slot).holders table kind =
    if slot = (table, kind) then name :: r.holders table kind else r.holders table kind := by
  unfold holders enter
  rw [List.filter_cons]
  by_cases hslot : slot = (table, kind)
  · simp [hslot]
  · simp [hslot]

/-- A slot that an operation is not about has the holders that it had. -/
theorem holders_apply {op : GuardOp} (h : ¬ r.Concerns op table kind) :
    (r.apply op).holders table kind = r.holders table kind := by
  have hused : ∀ n ∈ op.places, n ∉ r.holders table kind :=
    fun n hn hmem => h (.used op n table kind hn hmem)
  cases op with
  | acquire name handle kind' =>
    have hslot : (r.tableOf handle, kind') ≠ (table, kind) := by
      intro heq
      obtain ⟨rfl, rfl⟩ := Prod.mk.inj heq
      exact h (.asked name handle _)
    rw [apply]
    split
    · rw [holders_enter, if_neg hslot, holders_without (hused name (by simp [GuardOp.places]))]
    · rfl
  | giveBack name | release name | drop name =>
    exact holders_without (hused name (by simp [GuardOp.places]))
  | move name other =>
    have hname := hused name (by simp [GuardOp.places])
    have hgone : ((r.without name).without other).holders table kind = r.holders table kind := by
      rw [holders_without, holders_without hname]
      rw [holders_without hname]
      exact hused other (by simp [GuardOp.places])
    rw [apply]
    split
    next slot hslot =>
      rw [holders_enter, if_neg, hgone]
      rintro rfl
      obtain ⟨before, after, hheld, -⟩ := List.lookup_eq_some_iff.mp hslot
      exact hname (mem_holders.mpr (by simp [hheld]))
    next => exact hgone
  | share handle other => rfl

end Register

def Guard.slot? (g : Guard) : Option (Nat × JobKind) :=
  if g.released then none else some (g.table, g.kind)

namespace Guard

@[simp] theorem slot?_mk (t : Nat) (k : JobKind) : (⟨t, k, false⟩ : Guard).slot? = some (t, k) := rfl

@[simp] theorem slot?_released (t : Nat) (k : JobKind) : (⟨t, k, true⟩ : Guard).slot? = none := rfl

theorem slot?_eq_some {g : Guard} {t : Nat} {k : JobKind} :
    g.slot? = some (t, k) ↔ g = ⟨t, k, false⟩ := by
  obtain ⟨table, kind, released⟩ := g
  cases released <;> simp

end Guard

namespace GuardStore

def keep (s : GuardStore) (name : String) (g : Guard) : GuardStore :=
  { s with guards := (name, g) :: s.guards }

def dropped (s : GuardStore) (name : String) : GuardStore := (s.drop name).getD s

def giveBackKept (s : GuardStore) (name : String) : GuardStore :=
  match s.find? name with
  | some g =>
    let (s, g) := (s.forget name).giveBack g
    s.keep name g
  | none => s

def move (s : GuardStore) (name other : String) : GuardStore :=
  let gone := (s.forget name).dropped other
  match s.find? name with
  | some g => gone.keep other g
  | none => gone

def share (s : GuardStore) (handle other : Nat) : GuardStore :=
  { s with tableOf := fun h => if h = other then s.tableOf handle else s.tableOf h }

def apply (s : GuardStore) : GuardOp → GuardStore
  | .acquire name handle kind =>
    match s.acquire name handle kind with
    | .ok (_, s') => s'
    | .error _ => s
  | .giveBack name => s.giveBackKept name
  | .release name => (s.release name).getD s
  | .drop name => s.dropped name
  | .move name other => s.move name other
  | .share handle other => s.share handle other

def applyAll (s : GuardStore) (ops : List GuardOp) : GuardStore := ops.foldl apply s

/-- The register as the guards would have it. -/
def holding (s : GuardStore) : Register :=
  ⟨s.tableOf, s.guards.filterMap fun p => p.2.slot?.map (p.1, ·)⟩

/-- Each place has one guard. The tables count the guards that are kept and those in hand, which
are not in a place. -/
structure Sound (s : GuardStore) (hand : List Guard) : Prop where
  names : (s.guards.map (·.1)).Nodup
  count : ∀ t k, (hand ++ s.guards.map (·.2)).countP (·.slot? = some (t, k)) =
    ((s.tables t).isBusy k).toNat

/-- The tables and guards are as the register has them. -/
structure Agrees (s : GuardStore) (r : Register) : Prop where
  handles : ∀ handle, s.slots handle = s.tables (r.tableOf handle)
  live : ∀ name t k, name ∈ r.holders t k ↔ (name, ⟨t, k, false⟩) ∈ s.guards
  one : ∀ t k, (r.holders t k).length ≤ 1
  busy : ∀ t k, (s.tables t).isBusy k = true ↔ ∃ name, r.holders t k = [name]
  granted : ∀ name handle kind, r.holders (r.tableOf handle) kind = [] →
    s.acquire name handle kind =
      .ok (⟨r.tableOf handle, kind, false⟩, s.apply (.acquire name handle kind))
  refused : ∀ name handle kind, r.holders (r.tableOf handle) kind ≠ [] →
    s.acquire name handle kind = .error .writePending ∧
      s.apply (.acquire name handle kind) = s
  apart : ∀ op t k, ¬ r.Concerns op t k →
    (r.apply op).holders t k = r.holders t k ∧
      ((s.apply op).tables t).isBusy k = (s.tables t).isBusy k

variable {s : GuardStore} {hand : List Guard} {g : Guard} {name : String}

theorem not_mem_of_find? (h : s.find? name = none) : ∀ p ∈ s.guards, p.1 ≠ name :=
  fun p hp => (bne_iff_ne.mp (List.lookup_eq_none_iff.mp h p hp)).symm

theorem find?_forget (s : GuardStore) (name : String) : (s.forget name).find? name = none := by
  refine List.lookup_eq_none_iff.mpr fun p hp => ?_
  exact bne_iff_ne.mpr (bne_iff_ne.mp (List.mem_filter.mp hp).2).symm

theorem forget_eq_self (h : s.find? name = none) : s.forget name = s := by
  unfold forget
  rw [List.filter_eq_self.mpr fun p hp => bne_iff_ne.mpr (not_mem_of_find? h p hp)]

theorem perm_forget (hnames : (s.guards.map (·.1)).Nodup) (h : s.find? name = some g) :
    s.guards.Perm ((name, g) :: (s.forget name).guards) := by
  obtain ⟨before, after, hguards, hbefore⟩ := List.lookup_eq_some_iff.mp h
  have hafter : ∀ p ∈ after, p.1 ≠ name := by
    rw [hguards, List.map_append, List.map_cons] at hnames
    rintro p hp rfl
    exact (List.nodup_cons.mp (List.nodup_append.mp hnames).2.1).1 (List.mem_map.mpr ⟨p, hp, rfl⟩)
  have hforget : (s.forget name).guards = before ++ after := by
    rw [forget, hguards, List.filter_append, List.filter_cons_of_neg (by simp),
      List.filter_eq_self.mpr fun p hp => bne_iff_ne.mpr (bne_iff_ne.mp (hbefore p hp)).symm,
      List.filter_eq_self.mpr fun p hp => bne_iff_ne.mpr (hafter p hp)]
  rw [hforget, hguards]
  exact List.perm_middle

theorem giveBack_forget (s : GuardStore) (g : Guard) (name : String) :
    (s.giveBack g).1.forget name = ((s.forget name).giveBack g).1 := by
  unfold giveBack
  split <;> rfl

theorem giveBack_giveBack (s : GuardStore) (g : Guard) :
    (s.giveBack g).1.giveBack (s.giveBack g).2 = s.giveBack g := by
  cases hr : g.released <;> simp [giveBack, hr]

/-- A release gives the slot back, and the drop that goes with it finds nothing to do. -/
theorem release_eq_drop (s : GuardStore) (name : String) : s.release name = s.drop name := by
  unfold release drop
  simp only [giveBack_giveBack]

@[simp] theorem guards_setTable (s : GuardStore) (table : Nat) (slots : Slots) :
    (s.setTable table slots).guards = s.guards := rfl

@[simp] theorem guards_giveBack (s : GuardStore) (g : Guard) :
    (s.giveBack g).1.guards = s.guards := by
  unfold giveBack
  split <;> rfl

theorem slot?_giveBack (s : GuardStore) (g : Guard) : (s.giveBack g).2.slot? = none := by
  cases hr : g.released <;> simp [giveBack, Guard.slot?, hr]

theorem dropped_of_none (h : s.find? name = none) : s.dropped name = s.forget name := by
  rw [dropped, drop, h, forget_eq_self h]
  rfl

theorem dropped_of_some (h : s.find? name = some g) :
    s.dropped name = ((s.forget name).giveBack g).1 := by
  rw [dropped, drop, h, ← giveBack_forget]
  rfl

theorem dropped_eq (s : GuardStore) (name : String) :
    ∃ tables, s.dropped name = { s.forget name with tables := tables } := by
  cases h : s.find? name with
  | none => exact ⟨_, dropped_of_none h⟩
  | some g =>
    rw [dropped_of_some h, giveBack]
    split
    · exact ⟨_, rfl⟩
    · exact ⟨_, rfl⟩

theorem acquire_of_free {handle : Nat} {kind : JobKind}
    (h : (s.slots handle).isBusy kind = false) :
    s.acquire name handle kind = .ok (⟨s.tableOf handle, kind, false⟩,
      ((s.setTable (s.tableOf handle) ((s.slots handle).set kind true)).dropped name).keep name
        ⟨s.tableOf handle, kind, false⟩) := by
  simp [acquire, Slots.acquire?, h, dropped, keep]

theorem acquire_of_busy {handle : Nat} {kind : JobKind}
    (h : (s.slots handle).isBusy kind = true) :
    s.acquire name handle kind = .error .writePending := by
  simp [acquire, Slots.acquire?, h]

theorem isBusy_setTable_set (s : GuardStore) (table : Nat) (kind : JobKind) (b : Bool) (t : Nat)
    (k : JobKind) : ((s.setTable table ((s.tables table).set kind b)).tables t).isBusy k =
      if (table, kind) = (t, k) then b else (s.tables t).isBusy k := by
  by_cases ht : t = table
  · subst ht
    simp [setTable, eq_comm]
  · simp [setTable, ht, Ne.symm ht]

/-! What is done with a guard that is in hand. -/

namespace Sound

theorem pickUp (h : s.Sound hand) (hf : s.find? name = some g) :
    (s.forget name).Sound (g :: hand) where
  names := (List.filter_sublist.map _).nodup h.names
  count t k := by
    have hguards := ((perm_forget h.names hf).map (·.2)).append_left hand
    exact ((hguards.trans List.perm_middle).symm.countP_eq _).trans (h.count t k)

theorem keep (h : s.Sound (g :: hand)) (hf : s.find? name = none) : (s.keep name g).Sound hand where
  names := by
    refine List.nodup_cons.mpr ⟨fun hmem => ?_, h.names⟩
    obtain ⟨p, hp, hname⟩ := List.mem_map.mp hmem
    exact not_mem_of_find? hf p hp hname
  count t k := (List.perm_middle.countP_eq _).trans (h.count t k)

theorem letGo (h : s.Sound (g :: hand)) (hg : g.slot? = none) : s.Sound hand where
  names := h.names
  count t k := by
    rw [← h.count t k, List.cons_append, List.countP_cons, hg]
    rfl

theorem take {table : Nat} {kind : JobKind} (h : s.Sound hand)
    (hfree : (s.tables table).isBusy kind = false) :
    (s.setTable table ((s.tables table).set kind true)).Sound (⟨table, kind, false⟩ :: hand) where
  names := h.names
  count t k := by
    have hcount := h.count t k
    rw [isBusy_setTable_set, guards_setTable, List.cons_append, List.countP_cons, hcount,
      Guard.slot?_mk]
    by_cases hslot : (table, kind) = (t, k)
    · obtain ⟨rfl, rfl⟩ := Prod.mk.inj hslot
      simp [hfree]
    · simp [hslot]

/-- A guard in hand that holds its slot is the only one, so that the flag may be cleared. -/
theorem giveBack (h : s.Sound (g :: hand)) :
    (s.giveBack g).1.Sound ((s.giveBack g).2 :: hand) := by
  cases hr : g.released with
  | true => simpa [GuardStore.giveBack, hr] using h
  | false =>
    have hback : s.giveBack g =
        (s.setTable g.table ((s.tables g.table).set g.kind false), { g with released := true }) := by
      simp [GuardStore.giveBack, hr, Slots.release]
    have hslot : g.slot? = some (g.table, g.kind) := by simp [Guard.slot?, hr]
    rw [hback]
    refine ⟨h.names, fun t k => ?_⟩
    have hcount := h.count t k
    rw [List.cons_append, List.countP_cons, hslot] at hcount
    rw [isBusy_setTable_set, guards_setTable, List.cons_append, List.countP_cons,
      Guard.slot?_released]
    by_cases hthis : (g.table, g.kind) = (t, k)
    · have hone := Bool.toNat_le ((s.tables t).isBusy k)
      simp only [hthis, decide_true, if_true] at hcount ⊢
      simp only [Bool.toNat_false, reduceCtorEq, decide_false, Bool.false_eq_true, if_false]
      omega
    · simpa [hthis] using hcount

theorem dropped (h : s.Sound hand) (name : String) : (s.dropped name).Sound hand := by
  cases hf : s.find? name with
  | none =>
    rw [dropped_of_none hf, forget_eq_self hf]
    exact h
  | some g =>
    rw [dropped_of_some hf]
    exact (h.pickUp hf).giveBack.letGo (slot?_giveBack _ g)

end Sound

theorem find?_dropped (s : GuardStore) (name : String) : (s.dropped name).find? name = none := by
  obtain ⟨tables, h⟩ := dropped_eq s name
  rw [h]
  exact find?_forget s name

theorem sound_empty (tableOf : Nat → Nat) : (empty tableOf).Sound [] where
  names := List.nodup_nil
  count _ k := by cases k <;> rfl

theorem Sound.apply (h : s.Sound []) (op : GuardOp) : (s.apply op).Sound [] := by
  cases op with
  | acquire name handle kind =>
    rw [GuardStore.apply]
    cases hb : (s.slots handle).isBusy kind with
    | true => rwa [acquire_of_busy hb]
    | false =>
      rw [acquire_of_free hb]
      exact ((h.take hb).dropped name).keep (find?_dropped _ name)
  | giveBack name =>
    rw [GuardStore.apply, giveBackKept]
    split
    next g hf =>
      exact (h.pickUp hf).giveBack.keep (by rw [find?, guards_giveBack]; exact find?_forget s name)
    next => exact h
  | release name =>
    rw [GuardStore.apply, release_eq_drop]
    exact h.dropped name
  | drop name => exact h.dropped name
  | move name other =>
    rw [GuardStore.apply, move]
    split
    next g hf => exact ((h.pickUp hf).dropped other).keep (find?_dropped _ other)
    next hf =>
      rw [forget_eq_self hf]
      exact h.dropped other
  | share handle other => exact ⟨h.names, h.count⟩

/-! The register, as the guards would have it, follows the history. -/

theorem holding_forget (s : GuardStore) (name : String) :
    (s.forget name).holding = s.holding.without name := by
  rw [holding, Register.without, forget, List.filterMap_filter, holding, List.filter_filterMap]
  congr 1
  refine List.filterMap_congr fun p _ => ?_
  cases hslot : p.2.slot? with
  | none => simp
  | some slot => by_cases hp : p.1 = name <;> simp [Option.filter, hp]

theorem holding_dropped (s : GuardStore) (name : String) :
    (s.dropped name).holding = s.holding.without name := by
  obtain ⟨tables, h⟩ := dropped_eq s name
  rw [h, ← holding_forget]
  rfl

theorem holding_keep_of_none (hg : g.slot? = none) : (s.keep name g).holding = s.holding := by
  simp [holding, keep, hg]

theorem holding_keep_of_some {slot : Nat × JobKind} (hg : g.slot? = some slot) :
    (s.keep name g).holding = s.holding.enter name slot := by
  simp [holding, keep, Register.enter, hg]

theorem holding_giveBack (s : GuardStore) (g : Guard) : (s.giveBack g).1.holding = s.holding := by
  unfold giveBack
  split <;> rfl

theorem lookup_holding (hnames : (s.guards.map (·.1)).Nodup) (name : String) :
    s.holding.held.lookup name = (s.find? name).bind Guard.slot? := by
  unfold holding find?
  dsimp only
  generalize s.guards = guards at hnames ⊢
  induction guards with
  | nil => rfl
  | cons p guards ih =>
    obtain ⟨n, g⟩ := p
    obtain ⟨hfresh, hnames⟩ := List.nodup_cons.mp hnames
    have hrest := ih hnames
    rw [List.filterMap_cons, List.lookup_cons]
    by_cases hn : name = n
    · subst hn
      have hnone : guards.lookup name = none := by
        refine List.lookup_eq_none_iff.mpr fun p hp => bne_iff_ne.mpr ?_
        rintro rfl
        exact hfresh (List.mem_map.mpr ⟨p, hp, rfl⟩)
      rw [hnone] at hrest
      cases hslot : g.slot? with
      | none => simp [hslot, hrest]
      | some slot => simp [hslot]
    · have hne : (name == n) = false := beq_false_of_ne hn
      cases hslot : g.slot? with
      | none => simp [hne, hrest]
      | some slot => simp [List.lookup_cons, hne, hrest]

theorem length_holders (h : s.Sound []) (t : Nat) (k : JobKind) :
    (s.holding.holders t k).length = ((s.tables t).isBusy k).toNat := by
  rw [← h.count t k, Register.holders, List.length_map, ← List.countP_eq_length_filter, holding,
    List.countP_filterMap, List.nil_append, List.countP_map]
  refine List.countP_congr fun p _ => ?_
  cases hslot : p.2.slot? with
  | none => simp [hslot]
  | some slot => simp [hslot]

theorem holders_eq_nil (h : s.Sound []) {t : Nat} {k : JobKind} :
    s.holding.holders t k = [] ↔ (s.tables t).isBusy k = false := by
  rw [← List.length_eq_zero_iff, length_holders h, Bool.toNat_eq_zero]

theorem holding_apply (h : s.Sound []) (op : GuardOp) :
    (s.apply op).holding = s.holding.apply op := by
  cases op with
  | acquire name handle kind =>
    have hnil : s.holding.holders (s.holding.tableOf handle) kind = [] ↔
        (s.slots handle).isBusy kind = false := holders_eq_nil h
    rw [GuardStore.apply, Register.apply]
    cases hb : (s.slots handle).isBusy kind with
    | true => rw [acquire_of_busy hb, if_neg (by simp [hnil, hb])]
    | false =>
      rw [acquire_of_free hb, if_pos (hnil.mpr hb)]
      dsimp only
      rw [holding_keep_of_some (Guard.slot?_mk _ _), holding_dropped]
      rfl
  | giveBack name =>
    rw [GuardStore.apply, giveBackKept, Register.apply, ← holding_forget]
    split
    next g hf => rw [holding_keep_of_none (slot?_giveBack _ g), holding_giveBack]
    next hf => rw [forget_eq_self hf]
  | release name =>
    rw [GuardStore.apply, release_eq_drop]
    exact holding_dropped s name
  | drop name => exact holding_dropped s name
  | move name other =>
    have hgone : ((s.forget name).dropped other).holding =
        (s.holding.without name).without other := by rw [holding_dropped, holding_forget]
    rw [GuardStore.apply, move, Register.apply, lookup_holding h.names]
    cases hf : s.find? name with
    | none => exact hgone
    | some g =>
      dsimp only
      rw [Option.bind_some]
      cases hg : g.slot? with
      | none => rw [holding_keep_of_none hg, hgone]
      | some slot => rw [holding_keep_of_some hg, hgone]
  | share handle other => rfl

theorem agrees_of_sound (h : s.Sound []) : s.Agrees s.holding where
  handles _ := rfl
  live name t k := by
    rw [Register.mem_holders, holding, List.mem_filterMap]
    constructor
    · rintro ⟨p, hp, hslot⟩
      obtain ⟨slot, hslot, heq⟩ := Option.map_eq_some_iff.mp hslot
      obtain ⟨rfl, rfl⟩ := Prod.mk.inj heq
      rwa [← Guard.slot?_eq_some.mp hslot]
    · exact fun hmem => ⟨_, hmem, rfl⟩
  one t k := by
    rw [length_holders h]
    exact Bool.toNat_le _
  busy t k := by
    rw [← List.length_eq_one_iff, length_holders h, Bool.toNat_eq_one]
  granted name handle kind hnil := by
    have hfree : (s.slots handle).isBusy kind = false := (holders_eq_nil h).mp hnil
    rw [GuardStore.apply, acquire_of_free hfree]
    rfl
  refused name handle kind hne := by
    have hb : (s.slots handle).isBusy kind = true := by
      rw [← Bool.not_eq_false]
      exact (holders_eq_nil h).not.mp hne
    have hrefused : s.acquire name handle kind = .error .writePending := acquire_of_busy hb
    exact ⟨hrefused, by rw [GuardStore.apply, hrefused]⟩
  apart op t k hop := by
    have hsame := Register.holders_apply hop
    refine ⟨hsame, Bool.eq_iff_iff.mpr ?_⟩
    rw [← Bool.toNat_eq_one, ← Bool.toNat_eq_one, ← length_holders (h.apply op),
      ← length_holders h, holding_apply h, hsame]

theorem sound_applyAll (h : s.Sound []) (ops : List GuardOp) :
    (s.applyAll ops).Sound [] ∧ (s.applyAll ops).holding = s.holding.applyAll ops := by
  induction ops generalizing s with
  | nil => exact ⟨h, rfl⟩
  | cons op ops ih =>
    obtain ⟨hsound, hholding⟩ := ih (h.apply op)
    exact ⟨hsound, by rw [applyAll, List.foldl_cons, ← applyAll, hholding, holding_apply h]; rfl⟩

/-- Whatever is done with any number of tables, their clones and the guards, the tables and guards
are as the register has them. -/
theorem agrees_of_history (tableOf : Nat → Nat) (ops : List GuardOp) :
    ((empty tableOf).applyAll ops).Agrees ((Register.start tableOf).applyAll ops) := by
  obtain ⟨hsound, hholding⟩ := sound_applyAll (sound_empty tableOf) ops
  rw [← show _ = (Register.start tableOf).applyAll ops from hholding]
  exact agrees_of_sound hsound

-- The slot has been taken again when the guard that gave it back is dropped.
example : ((empty id).applyAll [.acquire "a" 0 .ping, .giveBack "a", .acquire "b" 0 .ping,
    .drop "a"]).tables 0 = Slots.free.set .ping true := by decide

end GuardStore

end WebSocket
