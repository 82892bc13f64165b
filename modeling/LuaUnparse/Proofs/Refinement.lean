import LuaUnparse.Proofs.Depth
import LuaUnparse.Unparser

/-!
# `LuaUnparse.Proofs.Refinement` — a run writes the layout of its root

A run walks through a tree with a depth and a list of pending pieces of many levels. What it writes is
nevertheless what the recursion on the tree gives: at every moment the layout of the pending pieces, at
the depth of the cursor, is what is still to come. A move that writes takes the first item off that
layout and any other move leaves it as it is, so the pulls of a run give the layout of its root item by
item.

## Contents
- **Cursors.** `Cursor.layout`, what a walk still has to write, and `Cursor.layout_eq_seek`: the next stop
  is its first item, or its end.
- **Events.** `events_eq_layout`: the events of a run are those of the layout of its root.
- **Roots.** That layout is the one that the root has inside a tree (`rootLayout_eq_layout`), but for a chunk,
  which has its statements one after the other (`rootLayout_chunk`).
- **Fragments.** `fragments_eq_layout` and `unparse_eq_layout`: the same for the texts alone and for the
  whole text.
-/

namespace LuaUnparse

/-! ## Cursors -/

/-- What a walk still has to write. -/
def Cursor.layout (cursor : Cursor) : Layout :=
  layoutPieces cursor.depth cursor.pending

/-- What a move writes, and what is to be written after it. -/
def Move.layout : Move → Layout
  | .silent next => next.layout
  | .write item next => .cons item next.layout
  | .fail fault => ⟨[], some fault⟩
  | .done => .empty

/-- What is still to be written at a stop, the stop itself included. -/
def Stop.layout : Stop → Layout
  | .wrote item next => .cons item next.layout
  | .failed fault _ => ⟨[], some fault⟩
  | .ended => .empty

namespace Cursor

/-- A move takes off the layout what it writes, and nothing else. -/
theorem layout_eq_move (cursor : Cursor) : cursor.layout = cursor.move.layout := by
  obtain ⟨depth, pending⟩ := cursor
  cases pending with
  | nil =>
    rw [layout, layoutPieces]
    rfl
  | cons p rest =>
    cases p with
    | text t =>
      rw [layout, layoutPieces, move]
      split <;> rfl
    | lineBreak =>
      rw [layout, layoutPieces]
      rfl
    | indent =>
      rw [layout, layoutPieces]
      rfl
    | dedent =>
      rw [layout, layoutPieces]
      rfl
    | node n =>
      rw [layout, move]
      cases hn : n.pieces with
      | ok pieces => exact (layoutPieces_shape_append hn rest).symm
      | error fault => exact layoutPieces_of_error hn rest

/-- **The next stop of a walk is the first item of its layout**, or the end of it. -/
theorem layout_eq_seek (cursor : Cursor) : cursor.layout = cursor.seek.layout := by
  fun_induction seek cursor with
  | case1 cursor next h _ ih => rw [layout_eq_move, h, Move.layout, ih]
  | case2 cursor item next h =>
    rw [layout_eq_move, h]
    rfl
  | case3 cursor fault h =>
    rw [layout_eq_move, h]
    rfl
  | case4 cursor h =>
    rw [layout_eq_move, h]
    rfl

end Cursor

/-! ## Events -/

/-- The event that ends a run with this outcome. -/
def Event.ending : Option Fault → Event
  | none => .finish
  | some fault => .failed fault

/-- The events that a layout comes to in a style. -/
def Layout.events (style : Style) (layout : Layout) : List Event :=
  layout.items.map (fun item => .data (style.write item)) ++ [.ending layout.fault]

theorem drain_items_of_some {Item : Type} {source : Source Item} {run rest : Run} {item : Item}
    {records : List Record} (h : source.pull run = ⟨some item, records, rest⟩) :
    (source.drain run).items = item :: (source.drain rest).items := by
  rw [Source.drain_of_some (congrArg Pull.item h), h]

theorem drain_items_of_none {Item : Type} {source : Source Item} {run rest : Run}
    {records : List Record} (h : source.pull run = ⟨none, records, rest⟩) :
    (source.drain run).items = [] := by
  rw [Source.drain_of_none (congrArg Pull.item h)]

section

variable (root : Node) (style : Style) {cursor : Cursor} (written : Nat)

theorem next_of_wrote {item : Item} {next : Cursor} (h : cursor.seek = .wrote item next) :
    Run.next ⟨root, style, .writing cursor written⟩ =
      ⟨some (.data (style.write item)), [], ⟨root, style, .writing next (written + 1)⟩⟩ := by
  simp [Run.next, h]

theorem next_of_failed {fault : Fault} {depth : Nat} (h : cursor.seek = .failed fault depth) :
    Run.next ⟨root, style, .writing cursor written⟩ =
      ⟨some (.failed fault), [.aborted root.kind fault.kind depth], ⟨root, style, .closed⟩⟩ := by
  simp [Run.next, h]

theorem next_of_ended (h : cursor.seek = .ended) :
    Run.next ⟨root, style, .writing cursor written⟩ =
      ⟨some .finish, [.finished root.kind written], ⟨root, style, .closed⟩⟩ := by
  simp [Run.next, h]

end

/-- From any point of a walk, the events to come are those of the layout to come. -/
theorem drain_events_writing (root : Node) (style : Style) (cursor : Cursor) (written : Nat) :
    (Source.events.drain ⟨root, style, .writing cursor written⟩).items =
      cursor.layout.events style := by
  induction h : cursor.weight using Nat.strongRecOn generalizing cursor written with
  | _ w ih =>
    subst h
    rw [cursor.layout_eq_seek]
    cases hs : cursor.seek with
    | wrote item next =>
      have hp : Source.events.pull ⟨root, style, .writing cursor written⟩ = _ :=
        next_of_wrote root style written hs
      rw [drain_items_of_some hp, ih _ (Cursor.weight_lt_of_seek hs) next (written + 1) rfl]
      rfl
    | failed fault depth =>
      have hp : Source.events.pull ⟨root, style, .writing cursor written⟩ = _ :=
        next_of_failed root style written hs
      have hclosed : Source.events.pull ⟨root, style, .closed⟩ = ⟨none, [], _⟩ := rfl
      rw [drain_items_of_some hp, drain_items_of_none hclosed]
      rfl
    | ended =>
      have hp : Source.events.pull ⟨root, style, .writing cursor written⟩ = _ :=
        next_of_ended root style written hs
      have hclosed : Source.events.pull ⟨root, style, .closed⟩ = ⟨none, [], _⟩ := rfl
      rw [drain_items_of_some hp, drain_items_of_none hclosed]
      rfl

/-- A run that has not begun gives the start, and then the events to come from its root. -/
theorem drain_events_start (root : Node) (style : Style) :
    (Source.events.drain (Unparser.start ⟨root, style⟩)).items =
      .start :: (Source.events.drain ⟨root, style, .writing (.atRoot root) 0⟩).items := by
  have hstart : Source.events.pull (Unparser.start ⟨root, style⟩) = ⟨some .start, _, _⟩ := rfl
  rw [drain_items_of_some hstart]
  rfl

/-- So a run gives the start and the layout of its root. -/
theorem drain_events_root (root : Node) (style : Style) :
    (Source.events.drain (Unparser.start ⟨root, style⟩)).items =
      .start :: root.rootLayout.events style := by
  rw [drain_events_start, drain_events_writing]
  rfl

/-- **The events of a run are the start, then the layout of its root, item by item, then its outcome.**
The layout is found by recursion on the tree, with no cursor: every text in its place, every line break at
the depth of the blocks and tables around it, up to the first node at fault. -/
theorem events_eq_layout (unparser : Unparser) :
    unparser.events = .start :: unparser.root.rootLayout.events unparser.style := by
  have hstart : Source.events.pull unparser.start = ⟨some .start, _, _⟩ := rfl
  unfold Unparser.events
  rw [drain_items_of_some hstart, drain_events_writing]
  rfl

/-! ## Roots -/

/-- A root that is no chunk is laid out as it is inside a tree, outside all blocks. -/
theorem rootLayout_eq_layout {root : Node} (h : root.isBlock = false) : root.rootLayout = root.layout 0 := by
  cases root with
  | chunk body => exact absurd h.symm Bool.false_ne_true
  | _ => rfl

theorem rootLayout_chunk_nil : (Node.chunk []).rootLayout = .empty := by
  show layoutPieces 0 [] = _
  rw [layoutPieces]

/-- A chunk begins with a line break outside all blocks, and its first statement. -/
theorem rootLayout_chunk_cons (s : Stat) (body : Chunk) :
    (Node.chunk (s :: body)).rootLayout =
      .cons (.lineBreak 0) ((Node.stat s).layout 0 ++ (Node.chunk body).rootLayout) := by
  have hlines : Chunk.lines (s :: body) = .lineBreak :: .node (.stat s) :: Chunk.lines body :=
    List.flatMap_cons
  rw [Node.rootLayout, Node.opening, hlines, layoutPieces, layoutPieces_node]
  rfl

/-- **A chunk at the root has its statements one after the other**, each after a line break and as it is
laid out inside a tree, outside all blocks. A statement that fails ends the layout. -/
theorem rootLayout_chunk (body : Chunk) :
    (Node.chunk body).rootLayout =
      body.foldr (fun s rest => .cons (.lineBreak 0) ((Node.stat s).layout 0 ++ rest)) .empty := by
  induction body with
  | nil => exact rootLayout_chunk_nil
  | cons s body ih => rw [rootLayout_chunk_cons, ih, List.foldr_cons]

/-! ## Fragments -/

/-- The texts that a layout comes to in a style. -/
def Layout.texts (style : Style) (layout : Layout) : List String :=
  layout.items.map style.write

/-- The fragments that a layout comes to in a style: its texts, and the fault if there is one. -/
def Layout.fragments (style : Style) (layout : Layout) : List (Except Fault String) :=
  (layout.texts style).map .ok ++ layout.fault.toList.map .error

theorem nextFragment_of_start {run : Run} (h : run.next.item = some .start) :
    run.nextFragment = ⟨run.next.rest.nextFragment.item,
      run.next.records ++ run.next.rest.nextFragment.records, run.next.rest.nextFragment.rest⟩ := by
  rw [Run.nextFragment]
  split <;> simp_all

theorem nextFragment_of_data {run : Run} {text : String} (h : run.next.item = some (.data text)) :
    run.nextFragment = ⟨some (.ok text), run.next.records, run.next.rest⟩ := by
  rw [Run.nextFragment]
  split <;> simp_all

theorem nextFragment_of_failed {run : Run} {fault : Fault}
    (h : run.next.item = some (.failed fault)) :
    run.nextFragment = ⟨some (.error fault), run.next.records, run.next.rest⟩ := by
  rw [Run.nextFragment]
  split <;> simp_all

theorem nextFragment_of_finish {run : Run} (h : run.next.item = some .finish) :
    run.nextFragment = ⟨none, run.next.records, run.next.rest⟩ := by
  rw [Run.nextFragment]
  split <;> simp_all

theorem nextFragment_of_none {run : Run} (h : run.next.item = none) :
    run.nextFragment = ⟨none, run.next.records, run.next.rest⟩ := by
  rw [Run.nextFragment]
  split <;> simp_all

/-- From any point of a walk, the fragments to come are those of the layout to come. -/
theorem drain_fragments_writing (root : Node) (style : Style) (cursor : Cursor) (written : Nat) :
    (Source.fragments.drain ⟨root, style, .writing cursor written⟩).items =
      cursor.layout.fragments style := by
  induction h : cursor.weight using Nat.strongRecOn generalizing cursor written with
  | _ w ih =>
    subst h
    rw [cursor.layout_eq_seek]
    cases hs : cursor.seek with
    | wrote item next =>
      have hn := next_of_wrote root style written hs
      have hp : Source.fragments.pull _ = _ := nextFragment_of_data (congrArg Pull.item hn)
      rw [drain_items_of_some hp, hn, ih _ (Cursor.weight_lt_of_seek hs) next (written + 1) rfl]
      rfl
    | failed fault depth =>
      have hn := next_of_failed root style written hs
      have hp : Source.fragments.pull _ = _ := nextFragment_of_failed (congrArg Pull.item hn)
      have hclosed : Source.fragments.pull ⟨root, style, .closed⟩ = _ := nextFragment_of_none rfl
      rw [drain_items_of_some hp, hn, drain_items_of_none hclosed]
      rfl
    | ended =>
      have hn := next_of_ended root style written hs
      have hp : Source.fragments.pull _ = _ := nextFragment_of_finish (congrArg Pull.item hn)
      rw [drain_items_of_none hp]
      rfl

/-- **The fragments of a run are the texts of the layout of its root**, and the fault if there is one. -/
theorem fragments_eq_layout (unparser : Unparser) :
    unparser.fragments = unparser.root.rootLayout.fragments unparser.style := by
  have hstart : Source.fragments.pull unparser.start = _ := nextFragment_of_start rfl
  have hdrain : (Source.fragments.drain unparser.start).items =
      (Source.fragments.drain unparser.start.next.rest).items := by
    cases hp : Source.fragments.pull unparser.start.next.rest with
    | mk item records rest =>
      rw [show unparser.start.next.rest.nextFragment = _ from hp] at hstart
      cases item with
      | none => rw [drain_items_of_none hp, drain_items_of_none hstart]
      | some item => rw [drain_items_of_some hp, drain_items_of_some hstart]
  unfold Unparser.fragments
  rw [hdrain]
  exact drain_fragments_writing unparser.root unparser.style (.atRoot unparser.root) 0

/-! ## Whole texts -/

/-- The whole text that a layout comes to in a style, or the fault that there is instead. -/
def Layout.text (style : Style) (layout : Layout) : Except Fault String :=
  match layout.fault with
  | none => .ok (String.join (layout.texts style))
  | some fault => .error fault

theorem joinFragments_fragments (style : Style) (layout : Layout) :
    joinFragments (layout.fragments style) = layout.text style := by
  unfold joinFragments Layout.fragments Layout.text
  rw [List.mapM_append]
  have hok : ((layout.texts style).map (Except.ok (ε := Fault))).mapM id =
      .ok (layout.texts style) := by
    induction layout.texts style with
    | nil => rfl
    | cons t ts ih =>
      rw [List.map_cons, List.mapM_cons, ih]
      rfl
  rw [hok]
  cases layout.fault with
  | none =>
    show Except.ok (String.join (layout.texts style ++ [])) = .ok (String.join (layout.texts style))
    rw [List.append_nil]
  | some fault => rfl

/-- **The whole text of a tree is that of the layout of its root.** -/
theorem unparse_eq_layout (root : Node) (style : Style) :
    unparse root style = root.rootLayout.text style := by
  unfold unparse Unparser.text
  rw [fragments_eq_layout, joinFragments_fragments]

end LuaUnparse
