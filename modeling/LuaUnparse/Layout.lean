import LuaUnparse.Rule.Weight
import LuaUnparse.Style

/-!
# `LuaUnparse.Layout` — a whole tree laid out at once

The layout of a tree is what a run over it writes, before any style enters: texts and line breaks, each
with its depth, up to the end of the tree or to the first node at fault. It is defined by recursion on
the tree, without a cursor: the parts of a node are laid out one after the other, those inside a block
one level deeper.

## Contents
- **Layouts.** `Layout`, and what it is to follow one by another (`Layout.append`).
- **Recursion.** `layoutPieces` for a list of pieces, `Node.layout` for a node at a depth, and
  `Node.rootLayout` for the root of a tree.
-/

namespace LuaUnparse

/-! ## Layouts -/

/-- What part of a tree comes to: the items written, and the fault that cuts them short. -/
structure Layout where
  items : List Item
  fault : Option Fault
  deriving DecidableEq

namespace Layout

/-- Nothing is written. -/
def empty : Layout := ⟨[], none⟩

/-- One item, and a layout after it. -/
def cons (item : Item) (layout : Layout) : Layout :=
  ⟨item :: layout.items, layout.fault⟩

/-- One layout after another, unless the first one ends in a fault. -/
def append (first second : Layout) : Layout :=
  match first.fault with
  | some _ => first
  | none => ⟨first.items ++ second.items, second.fault⟩

instance : Append Layout := ⟨append⟩

/-- Nothing follows a fault. -/
@[simp] theorem mk_some_append (items : List Item) (fault : Fault) (second : Layout) :
    (⟨items, some fault⟩ : Layout) ++ second = ⟨items, some fault⟩ := rfl

@[simp] theorem mk_none_append (items : List Item) (second : Layout) :
    (⟨items, none⟩ : Layout) ++ second = ⟨items ++ second.items, second.fault⟩ := rfl

@[simp] theorem empty_append (layout : Layout) : empty ++ layout = layout := rfl

@[simp] theorem append_empty (layout : Layout) : layout ++ empty = layout := by
  rcases layout with ⟨items, _ | fault⟩ <;> simp [empty]

@[simp] theorem cons_append (item : Item) (first second : Layout) :
    cons item first ++ second = cons item (first ++ second) := by
  rcases first with ⟨items, _ | fault⟩ <;> rfl

theorem append_assoc (first second third : Layout) :
    first ++ second ++ third = first ++ (second ++ third) := by
  rcases first with ⟨items, _ | fault⟩ <;> rcases second with ⟨items', _ | fault'⟩ <;> simp

end Layout

/-! ## Recursion -/

/-- The layout of pieces one after the other, the first at this depth. -/
def layoutPieces (depth : Nat) : List Piece → Layout
  | [] => .empty
  | .text text :: rest =>
    if text.isEmpty then layoutPieces depth rest
    else .cons (.text text) (layoutPieces depth rest)
  | .lineBreak :: rest => .cons (.lineBreak depth) (layoutPieces depth rest)
  | .indent :: rest => layoutPieces (depth + 1) rest
  | .dedent :: rest => layoutPieces (depth - 1) rest
  | .node n :: rest =>
    match h : n.pieces with
    | .ok pieces =>
      have := weight_pieces_lt h
      layoutPieces depth pieces ++ layoutPieces depth rest
    | .error fault => ⟨[], some fault⟩
termination_by pieces => weight pieces
decreasing_by
  all_goals
    simp only [weight_cons, Piece.weight]
    omega

/-- The layout of a node that passes its check is that of its shape. -/
theorem layoutPieces_of_ok {depth : Nat} {n : Node} {pieces : List Piece} (h : n.pieces = .ok pieces)
    (rest : List Piece) :
    layoutPieces depth (.node n :: rest) =
      layoutPieces depth pieces ++ layoutPieces depth rest := by
  rw [layoutPieces]
  split <;> simp_all

/-- A node at fault ends the layout, whatever follows. -/
theorem layoutPieces_of_error {depth : Nat} {n : Node} {fault : Fault}
    (h : n.pieces = .error fault) (rest : List Piece) :
    layoutPieces depth (.node n :: rest) = ⟨[], some fault⟩ := by
  rw [layoutPieces]
  split <;> simp_all

namespace Node

/-- The layout of a node inside a tree, at a depth. -/
def layout (depth : Nat) (n : Node) : Layout :=
  layoutPieces depth [.node n]

/-- The layout of a node that is the root of its tree. -/
def rootLayout (root : Node) : Layout :=
  layoutPieces 0 root.opening

end Node

end LuaUnparse
