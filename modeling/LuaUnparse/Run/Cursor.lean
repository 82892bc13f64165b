import LuaUnparse.Rule.Weight
import LuaUnparse.Style

/-!
# `LuaUnparse.Run.Cursor` — walking through a tree

A cursor holds the pieces that are still to be written, the next one in front, and the depth at which
lines stand. A node is laid out only when the cursor reaches it, so the cursor holds no more than the
pending siblings along the path to that node.

## Contents
- **One move.** `Cursor.move` deals with the piece in front; a move that does not end the walk leaves less
  work (`weight_lt_of_move_silent`, `weight_lt_of_move_write`).
- **Moves that show.** `Cursor.seek` goes on until something is written or the walk ends.
-/

namespace LuaUnparse

/-- Where a walk stands. -/
structure Cursor where
  /-- How many blocks enclose the next line. -/
  depth : Nat
  /-- What is still to be written, the next piece in front. -/
  pending : List Piece

/-- What dealing with one piece comes to. -/
inductive Move where
  /-- Nothing is written. -/
  | silent (next : Cursor)
  | write (item : Item) (next : Cursor)
  /-- The node in front is at fault. -/
  | fail (fault : Fault)
  /-- Nothing is left. -/
  | done

namespace Cursor

/-- Where the walk through a tree begins. -/
def atRoot (root : Node) : Cursor :=
  ⟨0, root.opening⟩

/-- The work that is left. -/
def weight (cursor : Cursor) : Nat :=
  LuaUnparse.weight cursor.pending

/-! ## One move -/

/-- Deals with the piece in front. Empty text is passed over; a line break always shows, even in a style
in which it is empty. -/
def move : Cursor → Move
  | ⟨_, []⟩ => .done
  | ⟨depth, .text text :: rest⟩ =>
    if text.isEmpty then .silent ⟨depth, rest⟩ else .write (.text text) ⟨depth, rest⟩
  | ⟨depth, .lineBreak :: rest⟩ => .write (.lineBreak depth) ⟨depth, rest⟩
  | ⟨depth, .indent :: rest⟩ => .silent ⟨depth + 1, rest⟩
  | ⟨depth, .dedent :: rest⟩ => .silent ⟨depth - 1, rest⟩
  | ⟨depth, .node n :: rest⟩ =>
    match n.pieces with
    | .ok pieces => .silent ⟨depth, pieces ++ rest⟩
    | .error fault => .fail fault

theorem weight_lt_of_move_silent {cursor next : Cursor} (h : cursor.move = .silent next) :
    next.weight < cursor.weight := by
  unfold move at h
  split at h
  · simp at h
  · split at h
    · simp [weight, Piece.weight, ← Move.silent.inj h]
    · simp at h
  · simp at h
  · simp [weight, Piece.weight, ← Move.silent.inj h]
  · simp [weight, Piece.weight, ← Move.silent.inj h]
  · split at h
    · next hp => simpa [weight, Piece.weight, ← Move.silent.inj h] using weight_pieces_lt hp
    · simp at h

theorem weight_lt_of_move_write {cursor next : Cursor} {item : Item}
    (h : cursor.move = .write item next) : next.weight < cursor.weight := by
  unfold move at h
  split at h
  · simp at h
  · split at h
    · simp at h
    · simp [weight, Piece.weight, ← (Move.write.inj h).2]
  · simp [weight, Piece.weight, ← (Move.write.inj h).2]
  · simp at h
  · simp at h
  · split at h <;> simp at h

/-! ## Moves that show -/

end Cursor

/-- What a walk comes to next. -/
inductive Stop where
  | wrote (item : Item) (next : Cursor)
  /-- A node at fault was reached, at this depth. -/
  | failed (fault : Fault) (depth : Nat)
  /-- Nothing was left. -/
  | ended

namespace Cursor

/-- Goes on until something is written or the walk ends. -/
def seek (cursor : Cursor) : Stop :=
  match h : cursor.move with
  | .silent next =>
    have := weight_lt_of_move_silent h
    next.seek
  | .write item next => .wrote item next
  | .fail fault => .failed fault cursor.depth
  | .done => .ended
termination_by cursor.weight

theorem seek_of_silent {cursor next : Cursor} (h : cursor.move = .silent next) :
    cursor.seek = next.seek := by
  rw [seek]
  split <;> simp_all

theorem seek_of_write {cursor next : Cursor} {item : Item} (h : cursor.move = .write item next) :
    cursor.seek = .wrote item next := by
  rw [seek]
  split <;> simp_all

theorem seek_of_fail {cursor : Cursor} {fault : Fault} (h : cursor.move = .fail fault) :
    cursor.seek = .failed fault cursor.depth := by
  rw [seek]
  split <;> simp_all

theorem seek_of_done {cursor : Cursor} (h : cursor.move = .done) : cursor.seek = .ended := by
  rw [seek]
  split <;> simp_all

/-- Writing leaves less work, however many moves were silent before. -/
theorem weight_lt_of_seek {cursor next : Cursor} {item : Item}
    (h : cursor.seek = .wrote item next) : next.weight < cursor.weight := by
  fun_induction seek cursor with
  | case1 cursor mid hm lt ih => exact Nat.lt_trans (ih h) lt
  | case2 cursor item' next' hm =>
    obtain ⟨rfl, rfl⟩ := Stop.wrote.inj h
    exact weight_lt_of_move_write hm
  | case3 => simp at h
  | case4 => simp at h

end Cursor

end LuaUnparse
