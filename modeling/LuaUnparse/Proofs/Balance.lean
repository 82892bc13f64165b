import LuaUnparse.Proofs.Advance
import LuaUnparse.Proofs.Lifecycle

/-!
# `LuaUnparse.Proofs.Balance` — the depth of a walk is what it still has to close

A cursor takes a level off its depth for every level that is closed, but never goes below zero. Were a level
closed that had not been opened, nobody would notice at once: the depth would stay at zero, and every line
after it would stand too deep. Here this is shown not to happen. At every moment of a run the levels that the
pending pieces close are those that they open and those of the depth, in this order: no piece closes a level
that is not open when the walk comes to it, and at the end no level is left.

## Contents
- **Levels.** `Piece.opensLevel` and `Piece.closesLevel`, and `depthAfter_add_closings`: the depth after
  pieces, counted.
- **Cursors.** `Cursor.Balanced`, which holds at the root (`balanced_atRoot`) and is kept by every move
  (`Balanced.of_move`).
- **Runs.** `Run.Balanced` at every place of a run (`Balanced.of_reaches`), and
  **`depth_counts_open_levels`**.
-/

namespace LuaUnparse

/-! ## Levels -/

/-- Whether the piece itself opens a level. -/
def Piece.opensLevel : Piece → Bool
  | .indent => true
  | .text _ | .lineBreak | .dedent | .node _ => false

/-- Whether the piece itself closes a level. -/
def Piece.closesLevel : Piece → Bool
  | .dedent => true
  | .text _ | .lineBreak | .indent | .node _ => false

/-- If no level is closed that was not opened, the depth after pieces is what was opened less what was
closed. -/
theorem depthAfter_add_closings (depth : Nat) {ps : List Piece} (h : Grounded depth ps) :
    depthAfter depth ps + ps.countP Piece.closesLevel = depth + ps.countP Piece.opensLevel := by
  induction ps generalizing depth with
  | nil => rfl
  | cons p ps ih =>
    cases p with
    | indent =>
      have hrest := ih (depth + 1) h
      simp only [depthAfter, List.countP_cons, Piece.closesLevel, Piece.opensLevel]
      simp only [Bool.false_eq_true, if_true, if_false]
      omega
    | dedent =>
      obtain ⟨hpos, hgrounded⟩ := h
      have hrest := ih (depth - 1) hgrounded
      simp only [depthAfter, List.countP_cons, Piece.closesLevel, Piece.opensLevel]
      simp only [Bool.false_eq_true, if_true, if_false]
      omega
    | text t => exact ih depth h
    | lineBreak => exact ih depth h
    | node n => exact ih depth h

/-- A run begins with pieces of one level. -/
theorem isLevel_opening (root : Node) : root.opening.all Piece.isLevel = true := by
  cases root with
  | chunk body => simp [Node.opening, Chunk.lines]
  | _ => rfl

/-! ## Cursors -/

/-- Where a walk stands after a move, unless the move ends it. -/
def Move.next? : Move → Option Cursor
  | .silent next | .write _ next => some next
  | .fail _ | .done => none

namespace Cursor

/-- The pending pieces close no level that is not open, and lead to the outermost one. -/
structure Balanced (cursor : Cursor) : Prop where
  grounded : Grounded cursor.depth cursor.pending
  outermost : depthAfter cursor.depth cursor.pending = 0

theorem balanced_atRoot (root : Node) : (atRoot root).Balanced :=
  ⟨grounded_of_isLevel (isLevel_opening root) 0, depthAfter_of_isLevel (isLevel_opening root) 0⟩

variable {cursor next : Cursor}

/-- A node gives way to its shape, which closes what it opens and nothing else. -/
theorem Balanced.expand {depth : Nat} {n : Node} {rest pieces : List Piece}
    (h : Balanced ⟨depth, .node n :: rest⟩) (hn : n.pieces = .ok pieces) :
    Balanced ⟨depth, pieces ++ rest⟩ := by
  obtain ⟨-, rfl⟩ := Node.eq_shape_of_pieces hn
  constructor
  · rw [grounded_append, depthAfter_shape]
    exact ⟨grounded_shape n depth, h.grounded⟩
  · rw [depthAfter_append, depthAfter_shape]
    exact h.outermost

/-- **A move keeps the balance.** -/
theorem Balanced.of_move (h : cursor.Balanced) (hmove : cursor.move.next? = some next) : next.Balanced := by
  obtain ⟨depth, pending⟩ := cursor
  cases pending with
  | nil => simp [move, Move.next?] at hmove
  | cons p rest =>
    cases p with
    | text t =>
      -- whether the text shows or is passed over
      rw [move] at hmove
      split at hmove
      · obtain rfl := Option.some.inj hmove
        exact ⟨h.grounded, h.outermost⟩
      · obtain rfl := Option.some.inj hmove
        exact ⟨h.grounded, h.outermost⟩
    | lineBreak =>
      obtain rfl := Option.some.inj hmove
      exact ⟨h.grounded, h.outermost⟩
    | indent =>
      obtain rfl := Option.some.inj hmove
      exact ⟨h.grounded, h.outermost⟩
    | dedent =>
      obtain rfl := Option.some.inj hmove
      exact ⟨h.grounded.2, h.outermost⟩
    | node n =>
      rw [move] at hmove
      split at hmove
      · next hn =>
        obtain rfl := Option.some.inj hmove
        exact h.expand hn
      · simp [Move.next?] at hmove

/-- The depth is what the pending pieces close less what they open. -/
theorem Balanced.depth_eq (h : cursor.Balanced) :
    (cursor.depth : Int) =
      cursor.pending.countP Piece.closesLevel - cursor.pending.countP Piece.opensLevel := by
  have hcount := depthAfter_add_closings cursor.depth h.grounded
  rw [h.outermost] at hcount
  omega

/-- Where a level is closed one is open, and there is one less of them afterwards. -/
theorem Balanced.dedent {rest : List Piece} (h : cursor.Balanced)
    (hpending : cursor.pending = .dedent :: rest) :
    ∃ depth, cursor.depth = depth + 1 ∧ cursor.move = .silent ⟨depth, rest⟩ := by
  obtain ⟨depth, pending⟩ := cursor
  obtain rfl := hpending
  have hpos : 0 < depth := h.grounded.1
  exact ⟨depth - 1, (Nat.sub_add_cancel hpos).symm, rfl⟩

/-- Only where nothing is pending is nothing left to do. -/
theorem pending_of_done (hmove : cursor.move = .done) : cursor.pending = [] := by
  obtain ⟨depth, pending⟩ := cursor
  cases pending with
  | nil => rfl
  | cons p rest =>
    cases p with
    | text t =>
      rw [move] at hmove
      split at hmove <;> simp at hmove
    | node n =>
      rw [move] at hmove
      split at hmove <;> simp at hmove
    | lineBreak | indent | dedent => simp [move] at hmove

/-- Where nothing is pending no level is open. -/
theorem Balanced.depth_of_nil (h : cursor.Balanced) (hpending : cursor.pending = []) :
    cursor.depth = 0 := by
  have houtermost := h.outermost
  rw [hpending] at houtermost
  exact houtermost

end Cursor

/-! ## Runs -/

/-- Where a run stands in its tree, unless it is over. -/
def Run.cursor? (run : Run) : Option Cursor :=
  match run.progress with
  | .waiting => some (.atRoot run.root)
  | .writing cursor _ => some cursor
  | .closed => none

/-- If the run is not over, its cursor is balanced. -/
def Run.Balanced (run : Run) : Prop :=
  ∀ cursor, run.cursor? = some cursor → cursor.Balanced

theorem Run.balanced_start (root : Node) (style : Style) :
    (Unparser.start ⟨root, style⟩).Balanced := by
  intro cursor h
  obtain rfl := Option.some.inj h
  exact Cursor.balanced_atRoot root

/-- **A move keeps a run balanced.** -/
theorem Run.Balanced.advance {run : Run} (h : run.Balanced) : run.advance.2.Balanced := by
  obtain ⟨root, style, progress⟩ := run
  cases progress with
  | waiting => exact balanced_start root style
  | closed => exact h
  | writing cursor written =>
    have hcursor : cursor.Balanced := h cursor rfl
    intro after hafter
    cases hmove : cursor.move with
    | silent next =>
      rw [advance_of_silent root style written hmove] at hafter
      obtain rfl := Option.some.inj hafter
      exact hcursor.of_move (congrArg Move.next? hmove)
    | write item next =>
      rw [advance_of_write root style written hmove] at hafter
      obtain rfl := Option.some.inj hafter
      exact hcursor.of_move (congrArg Move.next? hmove)
    | fail fault =>
      rw [advance_of_fail root style written hmove] at hafter
      exact absurd hafter nofun
    | done =>
      rw [advance_of_done root style written hmove] at hafter
      exact absurd hafter nofun

/-- So a run that begins balanced is so at every place that it comes to. -/
theorem Run.Balanced.of_reaches {run last : Run} {events : List Event} (h : run.Balanced)
    (hreach : run.Reaches events last) : last.Balanced := by
  induction hreach with
  | stay => exact h
  | move _ ih => exact ih h.advance

/-- A run gives its end where nothing is pending. -/
theorem pending_of_advance_finish {run : Run} (h : run.advance.1 = some .finish) :
    ∃ cursor, run.cursor? = some cursor ∧ cursor.pending = [] := by
  obtain ⟨root, style, progress⟩ := run
  cases progress with
  | waiting => exact absurd h nofun
  | closed => exact absurd h nofun
  | writing cursor written =>
    refine ⟨cursor, rfl, ?_⟩
    cases hmove : cursor.move with
    | silent next =>
      rw [advance_of_silent root style written hmove] at h
      exact absurd h nofun
    | write item next =>
      rw [advance_of_write root style written hmove] at h
      exact absurd h nofun
    | fail fault =>
      rw [advance_of_fail root style written hmove] at h
      exact absurd h nofun
    | done => exact Cursor.pending_of_done hmove

/-- Pulls lead from one place of a run to another, if each of them does. -/
theorem reaches_after {Item : Type} {source : Source Item}
    (hpull : ∀ run : Run, ∃ events, run.Reaches events (source.pull run).rest) (count : Nat) (run : Run) :
    ∃ events, run.Reaches events (source.after count run) := by
  induction count generalizing run with
  | zero => exact ⟨[], .stay⟩
  | succ count ih =>
    obtain ⟨events, hfirst⟩ := hpull run
    obtain ⟨events', hlater⟩ := ih (source.pull run).rest
    exact ⟨events ++ events', hfirst.trans hlater⟩

/-- **The depth counts the open levels, exactly.** Take any place that a run comes to, between two pulls or
between two moves of one pull. Unless the run is over, the depth is the number of pending pieces that close a
level less the number of those that open one. Where the piece in front closes a level, the depth is not zero,
and it is one less after the move: nothing is clipped. And where the run gives its end nothing is pending and
the depth is zero. -/
theorem depth_counts_open_levels (root : Node) (style : Style) :
    (∀ count, ∃ events, (Unparser.start ⟨root, style⟩).Reaches events
      (Source.events.after count (Unparser.start ⟨root, style⟩))) ∧
    (∀ count, ∃ events, (Unparser.start ⟨root, style⟩).Reaches events
      (Source.fragments.after count (Unparser.start ⟨root, style⟩))) ∧
    ∀ events run, (Unparser.start ⟨root, style⟩).Reaches events run →
      (∀ cursor, run.cursor? = some cursor →
        (cursor.depth : Int) =
            cursor.pending.countP Piece.closesLevel - cursor.pending.countP Piece.opensLevel ∧
          ∀ rest, cursor.pending = .dedent :: rest →
            ∃ depth, cursor.depth = depth + 1 ∧ cursor.move = .silent ⟨depth, rest⟩) ∧
      (run.advance.1 = some .finish →
        ∃ cursor, run.cursor? = some cursor ∧ cursor.pending = [] ∧ cursor.depth = 0) := by
  refine ⟨?_, ?_, ?_⟩
  · intro count
    exact reaches_after (fun run => ⟨_, reaches_next run⟩) count _
  · intro count
    exact reaches_after reaches_nextFragment count _
  · intro events run hreach
    have hbalanced : run.Balanced := (Run.balanced_start root style).of_reaches hreach
    constructor
    · intro cursor hcursor
      have hcursor := hbalanced cursor hcursor
      exact ⟨hcursor.depth_eq, fun rest hpending => hcursor.dedent hpending⟩
    · intro hfinish
      obtain ⟨cursor, hcursor, hpending⟩ := pending_of_advance_finish hfinish
      exact ⟨cursor, hcursor, hpending, (hbalanced cursor hcursor).depth_of_nil hpending⟩

/-- A block inside a block, where the inner one is closed and where the run ends. -/
theorem depth_counts_open_levels_blocks :
    let root : Node := .stat (.block [.block [.breakLoop]])
    let closing : Cursor := ⟨2, [.dedent, .lineBreak, .text "end", .dedent, .lineBreak, .text "end"]⟩
    let inside : Run := ⟨root, {}, .writing closing 5⟩
    let behind : Run := ⟨root, {}, .writing ⟨0, []⟩ 9⟩
    (∃ events, (Unparser.start ⟨root, {}⟩).Reaches events inside) ∧
      (∃ events, (Unparser.start ⟨root, {}⟩).Reaches events behind) ∧
      (closing.depth : Int) =
        closing.pending.countP Piece.closesLevel - closing.pending.countP Piece.opensLevel ∧
      (∃ depth, closing.depth = depth + 1 ∧ closing.move =
        .silent ⟨depth, [.lineBreak, .text "end", .dedent, .lineBreak, .text "end"]⟩) ∧
      behind.advance.1 = some .finish ∧
      ∃ cursor, behind.cursor? = some cursor ∧ cursor.pending = [] ∧ cursor.depth = 0 := by
  intro root closing inside behind
  have hlater : inside.Reaches _ behind := .move <| .move <| .move <| .move <| .move <| .move .stay
  have hinside : (Unparser.start ⟨root, {}⟩).Reaches _ inside :=
    .move <| .move <| .move <| .move <| .move <| .move <| .move <| .move <| .move <| .move <| .move <|
      .move <| .move .stay
  have hbehind : (Unparser.start ⟨root, {}⟩).Reaches _ behind := hinside.trans hlater
  have hplaces := (depth_counts_open_levels root {}).2.2
  obtain ⟨hdepth, hdedent⟩ := (hplaces _ inside hinside).1 closing rfl
  exact ⟨⟨_, hinside⟩, ⟨_, hbehind⟩, hdepth, hdedent _ rfl, rfl, (hplaces _ behind hbehind).2 rfl⟩

end LuaUnparse
