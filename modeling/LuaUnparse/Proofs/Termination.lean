import LuaUnparse.Proofs.Advance
import LuaUnparse.Proofs.Lifecycle

/-!
# `LuaUnparse.Proofs.Termination` — every run ends

A node that is reached gives way to pieces, and often to more of them than a reader would expect, so the list
of pending pieces grows and shrinks. What shrinks with every move is its weight, in which a node counts for
all its parts. So no pull can go on for ever, and the pulls that give an event are no more than the weight
with which the run begins.

## Contents
- **Moves.** `weight_advance_lt`: every move of a run that is not over leaves less weight.
- **Pulls.** `length_drain_le`: a source gives no more items than there is weight.
- **Runs.** **`run_ends_within_weight`**.
-/

namespace LuaUnparse

/-! ## Moves -/

/-- **Every move leaves less weight**, whether it shows something or not, and also if it ends the run. -/
theorem weight_advance_lt {run : Run} (h : run.progress ≠ .closed) :
    run.advance.2.weight < run.weight := by
  obtain ⟨root, style, progress⟩ := run
  cases progress with
  | waiting => exact Nat.lt_succ_self _
  | closed => exact absurd rfl h
  | writing cursor written =>
    cases hmove : cursor.move with
    | silent next =>
      rw [advance_of_silent root style written hmove]
      exact Nat.succ_lt_succ (Cursor.weight_lt_of_move_silent hmove)
    | write item next =>
      rw [advance_of_write root style written hmove]
      exact Nat.succ_lt_succ (Cursor.weight_lt_of_move_write hmove)
    | fail fault =>
      rw [advance_of_fail root style written hmove]
      exact Nat.succ_pos _
    | done =>
      rw [advance_of_done root style written hmove]
      exact Nat.succ_pos _

/-! ## Pulls -/

/-- A run has an event to give exactly as long as it is not over. -/
theorem next_eq_none_iff (run : Run) : run.next.item = none ↔ run.progress = .closed := by
  constructor
  · exact progress_of_next_none
  · intro h
    rw [next_of_closed h]

/-- A source gives no more items than there is weight. -/
theorem length_drain_le {Item : Type} (source : Source Item) (run : Run) :
    (source.drain run).items.length ≤ run.weight := by
  induction hweight : run.weight using Nat.strongRecOn generalizing run with
  | _ weight ih =>
    subst hweight
    cases hitem : (source.pull run).item with
    | none =>
      rw [Source.drain_of_none hitem]
      exact Nat.zero_le _
    | some item =>
      have hless : (source.pull run).rest.weight < run.weight := source.weight_lt run (hitem ▸ rfl)
      have hlater := ih _ hless (source.pull run).rest rfl
      rw [Source.drain_of_some hitem, List.length_cons]
      omega

/-- The outcome is the last event, right after the texts. -/
theorem answer_outcome (root : Node) (style : Style) :
    Source.events.answer (root.rootLayout.items.length + 1) (Unparser.start ⟨root, style⟩) =
      some (.ending root.rootLayout.fault) := by
  have hlength : (.start :: (root.rootLayout.texts style).map Event.data).length =
      root.rootLayout.items.length + 1 := by
    rw [List.length_cons, List.length_map, Layout.texts, List.length_map]
  rw [answer_events, ← hlength]
  exact List.getElem?_concat_length

/-! ## Runs -/

/-- **Every run ends, by its weight.** The weight of a run is that of its pending pieces, a node counting for
all its parts, and one or two more for the outcome and the start. Every move takes some of it away, whatever
the move is and whether it shows or not. So every pull comes to its end: after some moves that show nothing
the run is at one that gives the event, or is over. And the outcome comes within as many pulls as there is
weight at the root, and two more; the weight at the root is at most that of the root itself. -/
theorem run_ends_within_weight :
    (∀ run : Run, run.progress ≠ .closed → run.advance.2.weight < run.weight) ∧
    (∀ run : Run, (run.next.item = none ↔ run.progress = .closed) ∧
      ∃ pausing, run.Reaches [] pausing ∧ pausing.advance = (run.next.item, run.next.rest)) ∧
    ∀ (root : Node) (style : Style),
      (Cursor.atRoot root).weight ≤ (Piece.node root).weight ∧
      ∃ index outcome, index < (Cursor.atRoot root).weight + 2 ∧
        Source.events.answer index (Unparser.start ⟨root, style⟩) = some (.ending outcome) := by
  refine ⟨fun run h => weight_advance_lt h, fun run => ⟨next_eq_none_iff run, next_eq_advance run⟩, ?_⟩
  intro root style
  have hlength : (Source.events.drain (Unparser.start ⟨root, style⟩)).items.length ≤
      (Cursor.atRoot root).weight + 2 := length_drain_le Source.events (Unparser.start ⟨root, style⟩)
  have hevents : (Source.events.drain (Unparser.start ⟨root, style⟩)).items.length =
      root.rootLayout.items.length + 2 := by
    rw [drain_events_start, drain_events_writing, Layout.events, List.length_cons, List.length_append,
      List.length_map]
    rfl
  rw [hevents] at hlength
  exact ⟨weight_opening_le root, _, _, hlength, answer_outcome root style⟩

/-- A run at a number without digits, which ends it and takes all the pending weight away. -/
theorem run_ends_within_weight_fault :
    let run : Run := ⟨.exp (.paren (.number ⟨"", 0⟩)), {},
      .writing ⟨0, [.node (.exp (.number ⟨"", 0⟩)), .text ")"]⟩ 1⟩
    run.progress ≠ .closed ∧ run.advance.2.weight < run.weight := by
  intro run
  have hopen : run.progress ≠ .closed := nofun
  exact ⟨hopen, run_ends_within_weight.1 run hopen⟩

end LuaUnparse
