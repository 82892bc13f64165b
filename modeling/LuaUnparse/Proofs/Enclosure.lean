import LuaUnparse.Proofs.Failure
import Mathlib.Data.List.Basic

/-!
# `LuaUnparse.Proofs.Enclosure` — how deep a node stands

A walk keeps the depth at which it stands as a number that goes up and down. In the tree the same number
can be read off the nodes that enclose the node reached: it counts the blocks among them, a block that is
the whole tree apart, and the tables with entries. Here both are carried along one traversal of the tree,
and the walk is shown to stop, if it fails, at the first node at fault and at the depth counted for it.

## Contents
- **Traversals.** `Node.traverse`, the nodes of a tree with something carried down to them, and
  `traverse_map`, from one such thing to another.
- **Enclosing nodes.** `Node.lineages`, every node with those around it, and `enclosures`, their count.
- **Depths.** `Node.standings`, every node with the depth at which it stands, and `standingsIn_shape`: the
  parts of a node stand where its shape has them.
- **Walks.** `Cursor.abort?`, where a walk will fail, and `Cursor.abort?_eq_seek`; from the root of a tree
  this is `Node.abort?` (`abort?_atRoot`).
-/

namespace LuaUnparse

/-! ## Traversals -/

section

variable {Above Other : Type}

/-- The nodes of a tree in pre-order, each with what comes down to it: `down` says what a node hands to its
parts. -/
def Node.traverse (down : Above → Node → Above) (above : Above) (n : Node) : List (Above × Node) :=
  (above, n) :: n.children.attach.flatMap fun ⟨m, hm⟩ =>
    have := size_lt_of_mem_children hm
    m.traverse down (down above n)
termination_by n.size

theorem Node.traverse_eq (down : Above → Node → Above) (above : Above) (n : Node) :
    n.traverse down above = (above, n) :: n.children.flatMap (traverse down (down above n)) := by
  rw [traverse, List.flatMap_subtype (g := traverse down (down above n)) (fun _ _ => rfl),
    List.unattach_attach]

/-- Without what comes down to them, the nodes are those of the pre-order. -/
theorem map_snd_traverse (down : Above → Node → Above) (above : Above) (n : Node) :
    (n.traverse down above).map Prod.snd = n.preorder := by
  induction n using Node.inductionOn generalizing above with
  | h n ih =>
    rw [Node.traverse_eq, Node.preorder_eq, List.map_cons, List.map_flatMap]
    exact congrArg (n :: ·) (List.flatMap_congr fun m hm => ih m hm (down above n))

/-- Of what comes down one may look at a part only, if that part comes down by itself. -/
theorem traverse_map {down : Above → Node → Above} {down' : Other → Node → Other} {f : Above → Other}
    {P : Above → Prop} (hknown : ∀ above n, P (down above n))
    (hdown : ∀ above n, P above → f (down above n) = down' (f above) n) {above : Above}
    (h : P above) (n : Node) :
    (n.traverse down above).map (Prod.map f id) = n.traverse down' (f above) := by
  induction n using Node.inductionOn generalizing above with
  | h n ih =>
    rw [Node.traverse_eq, Node.traverse_eq, List.map_cons, List.map_flatMap, ← hdown above n h]
    exact congrArg (_ :: ·) (List.flatMap_congr fun m hm => ih m hm (hknown above n))

end

/-! ## Enclosing nodes -/

/-- Every node of a tree in pre-order, with the nodes that enclose it, the innermost first. -/
def Node.lineages (root : Node) : List (List Node × Node) :=
  root.traverse (fun above n => n :: above) []

/-- How many of the enclosing nodes are blocks below the root, which is the last of them, or tables with
entries. -/
def enclosures (above : List Node) : Nat :=
  above.dropLast.countP Node.isBlock + above.countP Node.isFilledTable

/-- The depth at which the parts of a node at this depth stand. -/
def Node.depthInside (depth : Nat) (n : Node) : Nat :=
  if n.opensLevel then depth + 1 else depth

/-- No node is both a block and a table. -/
theorem count_opensLevel (n : Node) :
    n.opensLevel.toNat = n.isBlock.toNat + n.isFilledTable.toNat := by
  unfold Node.opensLevel
  cases n with
  | chunk body => rfl
  | _ => simp [Node.isBlock]

/-- Below the root, one node more around adds a level if it opens one. -/
theorem enclosures_cons {above : List Node} (h : above ≠ []) (n : Node) :
    enclosures (n :: above) = n.depthInside (enclosures above) := by
  have hcount := count_opensLevel n
  unfold enclosures Node.depthInside
  rw [List.dropLast_cons_of_ne_nil h, List.countP_cons, List.countP_cons]
  cases hblock : n.isBlock <;> cases htable : n.isFilledTable <;> cases hopens : n.opensLevel <;>
    simp_all <;> omega

/-- A root that is no block adds a level for its parts if it opens one, too. -/
theorem enclosures_root {root : Node} (h : root.isBlock = false) :
    enclosures [root] = root.depthInside 0 := by
  unfold enclosures Node.depthInside Node.opensLevel
  rw [h, List.countP_singleton]
  cases root.isFilledTable <;> rfl

/-! ## Depths -/

/-- The nodes of a tree that stands at a depth, each with the depth at which it stands itself. -/
def Node.standings (depth : Nat) (n : Node) : List (Nat × Node) :=
  n.traverse (fun depth n => n.depthInside depth) depth

theorem Node.standings_eq (depth : Nat) (n : Node) :
    n.standings depth = (depth, n) :: n.children.flatMap (standings (n.depthInside depth)) :=
  traverse_eq _ depth n

/-- The nodes of the trees among pieces, each with the depth at which it stands. -/
def standingsIn : Nat → List Piece → List (Nat × Node)
  | _, [] => []
  | depth, .node n :: rest => n.standings depth ++ standingsIn depth rest
  | depth, .indent :: rest => standingsIn (depth + 1) rest
  | depth, .dedent :: rest => standingsIn (depth - 1) rest
  | depth, .text _ :: rest => standingsIn depth rest
  | depth, .lineBreak :: rest => standingsIn depth rest

theorem standingsIn_append (depth : Nat) (ps qs : List Piece) :
    standingsIn depth (ps ++ qs) = standingsIn depth ps ++ standingsIn (depthAfter depth ps) qs := by
  induction ps generalizing depth with
  | nil => rfl
  | cons p ps ih =>
    cases p with
    | node n => rw [List.cons_append, standingsIn, standingsIn, depthAfter, ih, List.append_assoc]
    | text t => exact ih depth
    | lineBreak => exact ih depth
    | indent => exact ih (depth + 1)
    | dedent => exact ih (depth - 1)

/-- Where no level is opened or closed, all nodes stand at one depth. -/
theorem standingsIn_of_isLevel {ps : List Piece} (h : ps.all Piece.isLevel = true) (depth : Nat) :
    standingsIn depth ps = (nodesIn ps).flatMap (Node.standings depth) := by
  refine isLevel_induction rfl (fun _ _ ih => ih) (fun _ ih => ih) ?_ h
  intro n ps ih
  rw [standingsIn, nodesIn, List.flatMap_cons, ih]

theorem nodesIn_of_isPlain {ps : List Piece} (h : ps.all Piece.isPlain = true) : nodesIn ps = [] := by
  induction ps with
  | nil => rfl
  | cons p ps ih =>
    rw [List.all_cons, Bool.and_eq_true] at h
    cases p with
    | text t => exact ih h.2
    | lineBreak => exact ih h.2
    | _ => exact absurd h.1 (by simp [Piece.isPlain])

theorem standingsIn_of_isPlain {ps : List Piece} (h : ps.all Piece.isPlain = true) (depth : Nat) :
    standingsIn depth ps = [] := by
  rw [standingsIn_of_isLevel (isLevel_of_isPlain h), nodesIn_of_isPlain h, List.flatMap_nil]

/-- **The parts of a node stand one level deeper if it opens a level**, and at its own depth otherwise. -/
theorem standingsIn_shape (n : Node) (depth : Nat) :
    standingsIn depth n.shape = n.children.flatMap (Node.standings (n.depthInside depth)) := by
  unfold Node.depthInside
  cases h : n.opensLevel with
  | false =>
    rw [standingsIn_of_isLevel (isLevel_shape h), nodesIn_shape]
    rfl
  | true =>
    obtain ⟨before, inside, after, hshape, hbefore, hinside, hafter⟩ := oneLevel_shape h
    have hchildren : n.children = nodesIn inside := by
      rw [← nodesIn_shape, hshape, nodesIn_append, nodesIn_of_isPlain hbefore, nodesIn, nodesIn_append,
        nodesIn, nodesIn_of_isPlain hafter]
      simp
    rw [hshape, standingsIn_append, standingsIn_of_isPlain hbefore,
      depthAfter_of_isLevel (isLevel_of_isPlain hbefore), standingsIn, standingsIn_append,
      standingsIn_of_isLevel hinside, standingsIn, standingsIn_of_isPlain hafter, hchildren]
    simp

/-! ## Walks -/

/-- The first node at fault, as its depth and its fault. -/
def firstAbort? (standings : List (Nat × Node)) : Option (Nat × Fault) :=
  standings.findSome? fun (depth, n) => n.fault?.map (depth, ·)

/-- Where a walk will fail, and why. -/
def Cursor.abort? (cursor : Cursor) : Option (Nat × Fault) :=
  firstAbort? (standingsIn cursor.depth cursor.pending)

/-- Where a walk will fail after a move from this depth. -/
def Move.abort? (depth : Nat) : Move → Option (Nat × Fault)
  | .silent next => next.abort?
  | .write _ next => next.abort?
  | .fail fault => some (depth, fault)
  | .done => none

/-- Where a walk will fail after a stop, or has failed. -/
def Stop.abort? : Stop → Option (Nat × Fault)
  | .wrote _ next => next.abort?
  | .failed fault depth => some (depth, fault)
  | .ended => none

namespace Cursor

/-- A move changes nothing in where the walk will fail. -/
theorem abort?_eq_move (cursor : Cursor) : cursor.abort? = cursor.move.abort? cursor.depth := by
  obtain ⟨depth, pending⟩ := cursor
  cases pending with
  | nil => rfl
  | cons p rest =>
    cases p with
    | text t =>
      rw [move]
      split <;> rfl
    | lineBreak => rfl
    | indent => rfl
    | dedent => rfl
    | node n =>
      rw [move, abort?, standingsIn, Node.standings_eq]
      cases hf : n.fault? with
      | some fault => simp [Node.pieces_of_fault hf, firstAbort?, hf, Move.abort?]
      | none =>
        -- the node passes, and its parts are those of its shape
        have hparts : standingsIn depth (n.shape ++ rest) =
            n.children.flatMap (Node.standings (n.depthInside depth)) ++ standingsIn depth rest := by
          rw [standingsIn_append, standingsIn_shape, depthAfter_shape]
        simp [Node.pieces_of_none hf, firstAbort?, hf, Move.abort?, abort?, hparts]

/-- **A walk fails where it was to fail from the beginning.** -/
theorem abort?_eq_seek (cursor : Cursor) : cursor.abort? = cursor.seek.abort? := by
  fun_induction seek cursor with
  | case1 cursor next h _ ih => rw [abort?_eq_move, h, Move.abort?, ih]
  | case2 cursor item next h =>
    rw [abort?_eq_move, h]
    rfl
  | case3 cursor fault h =>
    rw [abort?_eq_move, h]
    rfl
  | case4 cursor h =>
    rw [abort?_eq_move, h]
    rfl

end Cursor

/-- The first node of a tree at fault, as the count of what encloses it and its fault. -/
def Node.abort? (root : Node) : Option (Nat × Fault) :=
  root.lineages.findSome? fun (above, n) => n.fault?.map (enclosures above, ·)

/-- The parts of the root stand as deep as the root encloses them. -/
theorem map_lineages (root : Node) :
    root.lineages.map (Prod.map enclosures id) =
      (0, root) :: root.children.flatMap (Node.standings (enclosures [root])) := by
  rw [Node.lineages, Node.traverse_eq, List.map_cons, List.map_flatMap]
  refine congrArg ((0, root) :: ·) (List.flatMap_congr fun m _ => ?_)
  -- below the root, something encloses every node
  exact traverse_map (P := (· ≠ [])) (fun above n => List.cons_ne_nil n above)
    (fun above n h => enclosures_cons h n) (List.cons_ne_nil root []) m

/-- A walk through a whole tree fails at the first node at fault, at the depth of what encloses it. -/
theorem abort?_atRoot (root : Node) : (Cursor.atRoot root).abort? = root.abort? := by
  have hroot : root.abort? = firstAbort? (root.lineages.map (Prod.map enclosures id)) := by
    rw [firstAbort?, List.findSome?_map]
    rfl
  rw [hroot, map_lineages]
  cases root with
  | chunk body =>
    -- a block at the root opens no level, and is not at fault itself
    have hlevel : (Chunk.lines body).all Piece.isLevel = true := by simp [Chunk.lines]
    have hnodes : nodesIn (Chunk.lines body) = (Node.chunk body).children := by
      simp [Chunk.lines, Node.children, nodesIn, List.map_eq_flatMap]
    show firstAbort? (standingsIn 0 (Chunk.lines body)) = _
    rw [standingsIn_of_isLevel hlevel, hnodes]
    rfl
  | _ =>
    show firstAbort? (Node.standings 0 _ ++ []) = _
    rw [List.append_nil, Node.standings_eq, enclosures_root rfl]

/-- A number without digits in a table in a block: the block is the root of the first tree only. -/
example : (Node.chunk [.ret [.table [.positional (.number ⟨"", 0⟩)]]]).abort? = some (1, .numberWithoutText) ∧
    (Node.stat (.block [.ret [.table [.positional (.number ⟨"", 0⟩)]]])).abort? =
      some (2, .numberWithoutText) := by
  decide +kernel

end LuaUnparse
