import LuaUnparse.Proofs.Refinement
import LuaUnparse.Proofs.Subnode

/-!
# `LuaUnparse.Proofs.Failure` — which trees cannot be written, and why

A tree can be written exactly if none of its nodes is at fault. If some are, the report is that of the
first of them in pre-order, where a node comes before its children: the check of a node comes before
all that its parts write, also before those that stand to the left of the part checked.

## Contents
- **Layouts.** `layout_fault`: the fault of the layout of a node is the first one in its tree.
- **Whole texts.** `unparse_error_iff_first_fault`, the exact condition under which there is no text.
-/

namespace LuaUnparse

/-! ## Layouts -/

theorem Layout.append_fault (first second : Layout) :
    (first ++ second).fault = first.fault.or second.fault := by
  rcases first with ⟨items, _ | fault⟩ <;> rfl

theorem Layout.append_of_none {first : Layout} (h : first.fault = none) (second : Layout) :
    first ++ second = ⟨first.items ++ second.items, second.fault⟩ := by
  obtain ⟨items, fault⟩ := first
  cases h
  rfl

theorem Node.pieces_of_fault {n : Node} {fault : Fault} (h : n.fault? = some fault) :
    n.pieces = .error fault := by
  rw [pieces, h]

theorem Node.pieces_of_none {n : Node} (h : n.fault? = none) : n.pieces = .ok n.shape := by
  rw [pieces, h]

/-- A node at fault writes nothing. -/
theorem Node.layout_of_fault {n : Node} {fault : Fault} (h : n.fault? = some fault) (depth : Nat) :
    n.layout depth = ⟨[], some fault⟩ :=
  layoutPieces_of_error (pieces_of_fault h) []

/-- A node that passes its check is laid out as its shape. -/
theorem Node.layout_of_none {n : Node} (h : n.fault? = none) (depth : Nat) :
    n.layout depth = layoutPieces depth n.shape := by
  rw [layout, ← layoutPieces_shape_append (pieces_of_none h), List.append_nil]

/-- The fault of pieces is the first one of the nodes among them. -/
theorem layoutPieces_fault {ps : List Piece}
    (h : ∀ n ∈ nodesIn ps, ∀ depth, (n.layout depth).fault = n.preorder.findSome? Node.fault?)
    (depth : Nat) :
    (layoutPieces depth ps).fault =
      ((nodesIn ps).flatMap Node.preorder).findSome? Node.fault? := by
  induction ps generalizing depth with
  | nil =>
    rw [layoutPieces]
    rfl
  | cons p ps ih =>
    cases p with
    | text t =>
      rw [layoutPieces, nodesIn]
      split
      · exact ih h depth
      · exact ih h depth
    | lineBreak =>
      rw [layoutPieces]
      exact ih h depth
    | indent =>
      rw [layoutPieces]
      exact ih h (depth + 1)
    | dedent =>
      rw [layoutPieces]
      exact ih h (depth - 1)
    | node n =>
      have hn := h n List.mem_cons_self depth
      have hps := ih (fun m hm => h m (List.mem_cons_of_mem n hm)) depth
      rw [layoutPieces_node, Layout.append_fault, hn, hps, nodesIn, List.flatMap_cons,
        List.findSome?_append]

/-- **The fault of a layout is the first one of the nodes of the tree**, each before its children. -/
theorem layout_fault (n : Node) (depth : Nat) :
    (n.layout depth).fault = n.preorder.findSome? Node.fault? := by
  induction n using Node.inductionOn generalizing depth with
  | h n ih =>
    rw [Node.preorder_eq, List.findSome?_cons]
    cases hn : n.fault? with
    | some fault => rw [Node.layout_of_fault hn]
    | none =>
      rw [Node.layout_of_none hn, layoutPieces_fault (nodesIn_shape n ▸ ih), nodesIn_shape]

/-- The layout of a whole tree has the same fault: a chunk that is the root is not at fault itself. -/
theorem rootLayout_fault (root : Node) :
    root.rootLayout.fault = root.preorder.findSome? Node.fault? := by
  cases root with
  | chunk body =>
    have hlines : nodesIn (Chunk.lines body) = (Node.chunk body).children := by
      rw [← nodesIn_shape]
      simp [Node.shape, Chunk.shape, nodesIn]
    rw [Node.preorder_eq, List.findSome?_cons, ← hlines]
    exact layoutPieces_fault (fun n _ => layout_fault n) 0
  | _ => exact layout_fault _ 0

/-! ## Whole texts -/

theorem unparse_eq_ok_iff (root : Node) (style : Style) :
    (∃ text, unparse root style = .ok text) ↔ root.preorder.findSome? Node.fault? = none := by
  rw [unparse_eq_layout, Layout.text, rootLayout_fault]
  cases root.preorder.findSome? Node.fault? with
  | none => exact ⟨fun _ => rfl, fun _ => ⟨_, rfl⟩⟩
  | some fault => simp

theorem unparse_eq_error_iff (root : Node) (style : Style) (fault : Fault) :
    unparse root style = .error fault ↔ root.preorder.findSome? Node.fault? = some fault := by
  rw [unparse_eq_layout, Layout.text, rootLayout_fault]
  cases root.preorder.findSome? Node.fault? <;> simp

/-- **A tree has a text exactly if none of its nodes is at fault; otherwise its fault is that of the first
node at fault**, a node coming before its children and they from left to right. Neither depends on the
style. -/
theorem unparse_error_iff_first_fault (root : Node) (style : Style) :
    ((∃ text, unparse root style = .ok text) ↔ ∀ n ∈ root.preorder, n.fault? = none) ∧
    ∀ fault, unparse root style = .error fault ↔
      ∃ before n after, root.preorder = before ++ n :: after ∧ n.fault? = some fault ∧
        ∀ m ∈ before, m.fault? = none := by
  constructor
  · rw [unparse_eq_ok_iff, List.findSome?_eq_none_iff]
  · intro fault
    rw [unparse_eq_error_iff, List.findSome?_eq_some_iff]

/-- The name of a member or of a method is checked before the expression to its left. -/
theorem unparse_of_invalid_member {name : Name} (h : name.isValid = false) (base : PrefixExp)
    (args : Args) (style : Style) :
    unparse (.var (.member base name)) style = .error (.invalidName name) ∧
      unparse (.call (.method base name args)) style = .error (.invalidName name) := by
  have hname : name.fault? = some (.invalidName name) := by rw [Name.fault?, h]; rfl
  constructor
  · rw [unparse_eq_error_iff, Node.preorder_eq, List.findSome?_cons]
    simp only [Node.fault?, Var.fault?, hname]
  · rw [unparse_eq_error_iff, Node.preorder_eq, List.findSome?_cons]
    simp only [Node.fault?, Call.fault?, hname]

end LuaUnparse
