import LuaUnparse.Run.Cursor
import LuaUnparse.Run.Record

/-!
# `LuaUnparse.Run.Basic` — a run, pulled item by item

A run gives a start, then texts, then an end or a fault, and then nothing for ever. It does no work
between two pulls.

## Contents
- **Runs.** `Run`, `Event` and `Pull`.
- **Events.** `Run.next`, the next event; every pull that gives one leaves less work
  (`weight_next_lt`).
- **Fragments.** `Run.nextFragment`, the next text or the fault, without the start and the end
  (`weight_nextFragment_lt`).
-/

namespace LuaUnparse

/-- What a run gives. -/
inductive Event where
  | start
  | data (text : String)
  | finish
  | failed (fault : Fault)
  deriving DecidableEq

/-- How far a run has come. -/
inductive Progress where
  | waiting
  /-- Under way, after that many texts. -/
  | writing (cursor : Cursor) (written : Nat)
  | closed

/-- A run through the tree under a root. -/
structure Run where
  root : Node
  style : Style
  progress : Progress := .waiting

/-- What one pull gives: an item unless the run is over, the records logged meanwhile, and the run after
it. -/
structure Pull (Item : Type) where
  item : Option Item
  records : List Record
  rest : Run

namespace Run

/-- The work that is left: an upper bound of the number of events to come. -/
def weight (run : Run) : Nat :=
  match run.progress with
  | .waiting => (Cursor.atRoot run.root).weight + 2
  | .writing cursor _ => cursor.weight + 1
  | .closed => 0

/-! ## Events -/

/-- The next event of a run. -/
def next (run : Run) : Pull Event :=
  let kind := run.root.kind
  match run.progress with
  | .waiting =>
    ⟨some .start, [.started kind], { run with progress := .writing (.atRoot run.root) 0 }⟩
  | .writing cursor written =>
    match cursor.seek with
    | .wrote item after =>
      ⟨some (.data (run.style.write item)), [],
        { run with progress := .writing after (written + 1) }⟩
    | .failed fault depth =>
      ⟨some (.failed fault), [.aborted kind fault.kind depth], { run with progress := .closed }⟩
    | .ended => ⟨some .finish, [.finished kind written], { run with progress := .closed }⟩
  | .closed => ⟨none, [], run⟩

theorem weight_next_lt {run : Run} (h : run.next.item.isSome = true) :
    run.next.rest.weight < run.weight := by
  obtain ⟨root, style, progress⟩ := run
  cases progress with
  | waiting => simp [next, weight]
  | writing cursor written =>
    cases hs : cursor.seek with
    | wrote item after =>
      have := Cursor.weight_lt_of_seek hs
      simp [next, weight, hs]
      omega
    | failed => simp [next, weight, hs]
    | ended => simp [next, weight, hs]
  | closed => simp [next] at h

/-! ## Fragments -/

/-- The next text of a run, or the fault that ends it. The start is passed over. -/
def nextFragment (run : Run) : Pull (Except Fault String) :=
  let pull := run.next
  match h : pull.item with
  | some .start =>
    have : pull.rest.weight < run.weight := weight_next_lt (h ▸ rfl)
    let later := pull.rest.nextFragment
    ⟨later.item, pull.records ++ later.records, later.rest⟩
  | some (.data text) => ⟨some (.ok text), pull.records, pull.rest⟩
  | some (.failed fault) => ⟨some (.error fault), pull.records, pull.rest⟩
  | some .finish => ⟨none, pull.records, pull.rest⟩
  | none => ⟨none, pull.records, pull.rest⟩
termination_by run.weight

theorem weight_nextFragment_lt {run : Run} (h : run.nextFragment.item.isSome = true) :
    run.nextFragment.rest.weight < run.weight := by
  fun_induction nextFragment run with
  | case1 run pull hp lt later ih => exact Nat.lt_trans (ih h) lt
  | case2 run pull text hp => exact weight_next_lt (hp ▸ rfl)
  | case3 run pull fault hp => exact weight_next_lt (hp ▸ rfl)
  | case4 => simp at h
  | case5 => simp at h

end Run

end LuaUnparse
