import LuaUnparse.Run.Basic

/-!
# `LuaUnparse.Run.Source` — pulling several items

A source is a way to pull items from a run. Because every pull that gives an item leaves less work, a
source can be pulled until it is empty.

## Contents
- **Sources.** `Source`, with the two there are: `Source.events` and `Source.fragments`.
- **Batches.** `Source.take` pulls a number of items and `Source.drain` all of them.
-/

namespace LuaUnparse

/-! ## Sources -/

/-- A way to pull items from a run. -/
structure Source (Item : Type) where
  pull : Run → Pull Item
  /-- An item costs work. -/
  weight_lt : ∀ run, (pull run).item.isSome = true → (pull run).rest.weight < run.weight

namespace Source

variable {Item Other : Type}

/-- Every event of a run. -/
def events : Source Event :=
  ⟨Run.next, fun _ => Run.weight_next_lt⟩

/-- The texts of a run, and the fault that ends it. -/
def fragments : Source (Except Fault String) :=
  ⟨Run.nextFragment, fun _ => Run.weight_nextFragment_lt⟩

/-- The same source, with a function applied to its items. -/
def map (f : Item → Other) (source : Source Item) : Source Other where
  pull run :=
    let pull := source.pull run
    ⟨pull.item.map f, pull.records, pull.rest⟩
  weight_lt run h := source.weight_lt run (by simpa using h)

end Source

/-! ## Batches -/

/-- What several pulls give. -/
structure Batch (Item : Type) where
  items : List Item
  records : List Record
  rest : Run

namespace Source

variable {Item : Type}

/-- Pulls up to `count` items, and stops once there is none. -/
def take (source : Source Item) : (count : Nat) → Run → Batch Item
  | 0, run => ⟨[], [], run⟩
  | count + 1, run =>
    let pull := source.pull run
    match pull.item with
    | none => ⟨[], pull.records, pull.rest⟩
    | some item =>
      let later := source.take count pull.rest
      ⟨item :: later.items, pull.records ++ later.records, later.rest⟩

/-- Pulls all items that are left. -/
def drain (source : Source Item) (run : Run) : Batch Item :=
  let pull := source.pull run
  match h : pull.item with
  | none => ⟨[], pull.records, pull.rest⟩
  | some item =>
    have := source.weight_lt run (h ▸ rfl)
    let later := source.drain pull.rest
    ⟨item :: later.items, pull.records ++ later.records, later.rest⟩
termination_by run.weight

theorem drain_of_none {source : Source Item} {run : Run} (h : (source.pull run).item = none) :
    source.drain run = ⟨[], (source.pull run).records, (source.pull run).rest⟩ := by
  rw [drain]
  split <;> simp_all

theorem drain_of_some {source : Source Item} {run : Run} {item : Item}
    (h : (source.pull run).item = some item) :
    source.drain run =
      let later := source.drain (source.pull run).rest
      ⟨item :: later.items, (source.pull run).records ++ later.records, later.rest⟩ := by
  rw [drain]
  split <;> simp_all

/-- Taking as many items as there is work takes them all. -/
theorem take_eq_drain (source : Source Item) {count : Nat} {run : Run} (h : run.weight < count) :
    source.take count run = source.drain run := by
  induction count generalizing run with
  | zero => omega
  | succ count ih =>
    cases hp : (source.pull run).item with
    | none => rw [take, drain_of_none hp, hp]
    | some item =>
      have lt := source.weight_lt run (hp ▸ rfl)
      rw [take, drain_of_some hp, hp, ih (by omega)]

end Source

end LuaUnparse
