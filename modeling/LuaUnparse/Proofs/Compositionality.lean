import LuaUnparse.Proofs.Advance

/-!
# `LuaUnparse.Proofs.Compositionality` — a node is written alike wherever it stands

What a node is written as does not depend on the tree around it, but for the indentation: its lines stand
as much deeper as the node itself does. A block is no exception, only that its statements stand one level
deeper than those of the same block at the root of a tree. Pieces close no level that was not opened, so
the depth at which they begin comes as a summand into every line, and is what it was when they are done.

## Contents
- **Deeper layouts.** `Layout.deepen`, and `layoutPieces_deepen`: pieces that stand deeper are laid out
  the same, with deeper lines.
- **Nodes inside.** `Node.levelsInside`, and `layout_eq_deepen`: the layout of a node is the one it has as a
  root, so much deeper.
- **Deeper texts.** `Style.writeDeeper`, an item with more indentation after its line breaks.
- **Runs.** **`node_inside_run`**, for any node that a run comes to.
-/

namespace LuaUnparse

/-! ## Deeper layouts -/

/-- The same item, some levels deeper. -/
def Item.deepen (levels : Nat) : Item → Item
  | .text t => .text t
  | .lineBreak depth => .lineBreak (depth + levels)

/-- The same layout, some levels deeper. -/
def Layout.deepen (levels : Nat) (layout : Layout) : Layout :=
  ⟨layout.items.map (Item.deepen levels), layout.fault⟩

theorem Layout.deepen_append (levels : Nat) (first second : Layout) :
    (first ++ second).deepen levels = first.deepen levels ++ second.deepen levels := by
  obtain ⟨items, _ | fault⟩ := first
  · simp [deepen]
  · rfl

/-- **Pieces that stand deeper are laid out the same**, with all lines so much deeper, unless they close
levels that were opened before them. -/
theorem layoutPieces_deepen {depth : Nat} {ps : List Piece} (h : Grounded depth ps) (levels : Nat) :
    layoutPieces (depth + levels) ps = (layoutPieces depth ps).deepen levels := by
  fun_induction layoutPieces depth ps with
  | case1 depth =>
    rw [layoutPieces]
    rfl
  | case2 depth t rest hempty ih =>
    rw [layoutPieces, if_pos hempty]
    exact ih h
  | case3 depth t rest hempty ih =>
    rw [layoutPieces, if_neg hempty, ih h]
    rfl
  | case4 depth rest ih =>
    rw [layoutPieces, ih h]
    rfl
  | case5 depth rest ih =>
    rw [layoutPieces, Nat.add_right_comm]
    exact ih h
  | case6 depth rest ih =>
    -- the level that is closed is not one of those around
    obtain ⟨hpos, hrest⟩ := h
    rw [layoutPieces, Nat.sub_add_comm hpos]
    exact ih hrest
  | case7 depth n rest pieces hn hlt ih ihRest =>
    have hpieces : Grounded depth pieces := by
      rw [(Node.eq_shape_of_pieces hn).2]
      exact grounded_shape n depth
    rw [layoutPieces_of_ok hn, ih hpieces, ihRest h, Layout.deepen_append]
  | case8 depth n rest fault hn =>
    rw [layoutPieces_of_error hn]
    rfl

/-! ## Nodes inside -/

/-- How much deeper the lines of a node stand, at this depth inside a tree, than those of the node as a
root. -/
def Node.levelsInside (depth : Nat) : Node → Nat
  | .chunk _ => depth + 1
  | _ => depth

/-- A block inside a tree opens a level that it does not open as a root. -/
theorem layout_chunk_eq_deepen (depth : Nat) (body : Chunk) :
    (Node.chunk body).layout depth = (Node.chunk body).rootLayout.deepen (depth + 1) := by
  have hlines : Grounded 0 (Chunk.lines body) := grounded_of_isLevel (by simp [Chunk.lines]) 0
  have hclose : layoutPieces (depthAfter (depth + 1) (Chunk.lines body)) [.dedent] = .empty := by
    rw [layoutPieces, layoutPieces]
  have hpieces : (Node.chunk body).pieces = .ok (Chunk.shape body) := rfl
  calc (Node.chunk body).layout depth
      = layoutPieces depth (Chunk.shape body) := by
        rw [Node.layout, ← layoutPieces_shape_append hpieces, List.append_nil]
    _ = layoutPieces (depth + 1) (Chunk.lines body ++ [.dedent]) := by
        rw [Chunk.shape, List.cons_append, layoutPieces]
    _ = layoutPieces (0 + (depth + 1)) (Chunk.lines body) := by
        rw [layoutPieces_append, hclose, Layout.append_empty, Nat.zero_add]
    _ = (Node.chunk body).rootLayout.deepen (depth + 1) := layoutPieces_deepen hlines (depth + 1)

/-- **A node inside a tree is laid out as it is as a root**, so much deeper. -/
theorem layout_eq_deepen (depth : Nat) (n : Node) :
    n.layout depth = n.rootLayout.deepen (n.levelsInside depth) := by
  have hground : Grounded 0 [.node n] := trivial
  have hdeeper : layoutPieces depth [.node n] = (layoutPieces 0 [.node n]).deepen depth := by
    rw [← layoutPieces_deepen hground, Nat.zero_add]
  cases n with
  | chunk body => exact layout_chunk_eq_deepen depth body
  | _ => exact hdeeper

/-! ## Deeper texts -/

/-- The text of an item, with the indentation of some more levels after a line break. -/
def Style.writeDeeper (style : Style) (levels : Nat) : Item → String
  | .text text => text
  | .lineBreak depth => style.write (.lineBreak depth) ++ String.join (List.replicate levels style.indent)

theorem Style.indentation_add (style : Style) (depth levels : Nat) :
    style.indentation (depth + levels) = style.indentation depth ++ style.indentation levels := by
  unfold indentation
  rw [← List.replicate_append_replicate, ← String.toList_inj, String.toList_append, String.toList_join,
    String.toList_join, String.toList_join, List.flatMap_append]

/-- An item that stands deeper has more indentation after a line break, and is the same otherwise. -/
theorem write_deepen (style : Style) (levels : Nat) (item : Item) :
    style.write (item.deepen levels) = style.writeDeeper levels item := by
  cases item with
  | text text => rfl
  | lineBreak depth =>
    show style.lineBreak (depth + levels) = style.lineBreak depth ++ style.indentation levels
    rw [style.lineBreak_eq, style.lineBreak_eq, style.indentation_add, String.append_assoc]

/-! ## Runs -/

/-- **A node is written alike wherever a run comes to it.** Let a run be at a depth, with the node in front of
other pieces. Its moves, and so its pulls, give the data of a run of which the node is the root, with the
indentation of the depth after each line break, one level more if the node is a block. Then either the run
is at the same depth with the other pieces as they were, and has counted what was written; or, if the node
as a root fails, the run has failed with the same fault. -/
theorem node_inside_run (style : Style) (n : Node) (depth : Nat) (rest : List Piece) :
    Unparser.events ⟨n, style⟩ =
        .start :: n.rootLayout.items.map (fun item => .data (style.write item)) ++
          [.ending n.rootLayout.fault] ∧
      ∀ root written,
        let reached : Run := ⟨root, style, .writing ⟨depth, .node n :: rest⟩ written⟩
        let given : List Event :=
          n.rootLayout.items.map fun item => .data (style.writeDeeper (n.levelsInside depth) item)
        match n.rootLayout.fault with
        | none =>
          let passed : Run := ⟨root, style, .writing ⟨depth, rest⟩ (written + given.length)⟩
          reached.Reaches given passed ∧
            (Source.events.drain reached).items = given ++ (Source.events.drain passed).items
        | some fault =>
          reached.Reaches (given ++ [.failed fault]) ⟨root, style, .closed⟩ ∧
            (Source.events.drain reached).items = given ++ [.failed fault] := by
  constructor
  · rw [Unparser.events, drain_events_start, drain_events_writing]
    rfl
  · intro root written reached given
    have hwrites : Run.Writes root style ⟨depth, .node n :: rest⟩ (n.layout depth) ⟨depth, rest⟩ :=
      writes_pieces root style depth [.node n] rest
    rw [layout_eq_deepen] at hwrites
    have hgiven : (n.rootLayout.deepen (n.levelsInside depth)).data style = given := by
      rw [Layout.data, Layout.deepen, List.map_map]
      exact List.map_congr_left fun item _ => congrArg Event.data (write_deepen style _ item)
    have hlength : given.length = (n.rootLayout.deepen (n.levelsInside depth)).items.length := by
      rw [← hgiven, Layout.data, List.length_map]
    have hmoves := hwrites written
    rw [hgiven, ← hlength, Layout.deepen] at hmoves
    cases hfault : n.rootLayout.fault with
    | none =>
      simp only [hfault] at hmoves
      exact ⟨hmoves, drain_items_of_reaches hmoves⟩
    | some fault =>
      simp only [hfault] at hmoves
      refine ⟨hmoves, ?_⟩
      rw [drain_items_of_reaches hmoves, drain_events_closed, List.append_nil]

end LuaUnparse
