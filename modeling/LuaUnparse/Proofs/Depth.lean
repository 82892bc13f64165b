import LuaUnparse.Layout

/-!
# `LuaUnparse.Proofs.Depth` — the depth that pieces lead to

Pieces written one after the other change the depth at which lines stand. Every shape closes the levels
that it opens, so the pieces after a node stand at the depth at which the node stands: this is what lets
a node be laid out on its own.

## Contents
- **Depths.** `depthAfter`, the depth after pieces, how it goes through lists, and `isLevel_induction` for
  pieces that leave it alone.
- **Shapes.** `Node.opensLevel`: blocks and tables with entries open one level for all their parts
  (`oneLevel_shape`), and other nodes open none (`isLevel_shape`). So `depthAfter_shape`: a shape leads back
  to the depth that it began at.
- **Ground.** `Grounded`: no level is closed that was not opened, and this is so in every shape
  (`grounded_shape`).
- **Layouts.** `layoutPieces_append`, the layout of pieces after other pieces, and `layoutPieces_node`, that of
  pieces after a node.
-/

namespace LuaUnparse

/-! ## Depths -/

/-- The depth at which the pieces after these stand. -/
def depthAfter (depth : Nat) : List Piece → Nat
  | [] => depth
  | .indent :: rest => depthAfter (depth + 1) rest
  | .dedent :: rest => depthAfter (depth - 1) rest
  | .text _ :: rest => depthAfter depth rest
  | .lineBreak :: rest => depthAfter depth rest
  | .node _ :: rest => depthAfter depth rest

theorem depthAfter_append (depth : Nat) (ps qs : List Piece) :
    depthAfter depth (ps ++ qs) = depthAfter (depthAfter depth ps) qs := by
  induction ps generalizing depth with
  | nil => rfl
  | cons p ps ih => cases p <;> exact ih _

/-- A piece that opens no level and closes none. -/
def Piece.isLevel : Piece → Bool
  | .indent | .dedent => false
  | .text _ | .lineBreak | .node _ => true

@[simp] theorem Piece.isLevel_text (text : String) : (Piece.text text).isLevel = true := rfl

@[simp] theorem Piece.isLevel_lineBreak : Piece.lineBreak.isLevel = true := rfl

@[simp] theorem Piece.isLevel_node (n : Node) : (Piece.node n).isLevel = true := rfl

/-- Induction on pieces that open no level and close none. -/
@[elab_as_elim]
theorem isLevel_induction {motive : List Piece → Prop} (nil : motive [])
    (text : ∀ t ps, motive ps → motive (.text t :: ps))
    (lineBreak : ∀ ps, motive ps → motive (.lineBreak :: ps))
    (node : ∀ n ps, motive ps → motive (.node n :: ps)) {ps : List Piece}
    (h : ps.all Piece.isLevel = true) : motive ps := by
  induction ps with
  | nil => exact nil
  | cons p ps ih =>
    rw [List.all_cons, Bool.and_eq_true] at h
    cases p with
    | indent => exact absurd h.1 (by simp [Piece.isLevel])
    | dedent => exact absurd h.1 (by simp [Piece.isLevel])
    | text t => exact text t ps (ih h.2)
    | lineBreak => exact lineBreak ps (ih h.2)
    | node n => exact node n ps (ih h.2)

/-- Pieces that open no level and close none leave the depth alone. -/
theorem depthAfter_of_isLevel {ps : List Piece} (h : ps.all Piece.isLevel = true) (depth : Nat) :
    depthAfter depth ps = depth :=
  isLevel_induction rfl (fun _ _ ih => ih) (fun _ ih => ih) (fun _ _ ih => ih) h

/-! ## Shapes -/

/-- A list of parts: the first one, and the others after commas. -/
theorem separated_cons (p : Piece) (ps : List Piece) :
    separated (p :: ps) = p :: ps.flatMap fun q => [.text ", ", q] := by
  unfold separated
  induction ps generalizing p with
  | nil => rfl
  | cons q qs ih =>
    rw [List.intersperse_cons_cons, ih, List.flatMap_cons]
    rfl

/-- Commas do not change the depth. -/
@[simp] theorem isLevel_separated (ps : List Piece) :
    (separated ps).all Piece.isLevel = ps.all Piece.isLevel := by
  unfold separated
  induction ps with
  | nil => rfl
  | cons p ps ih =>
    cases ps with
    | nil => rfl
    | cons q qs => simp only [List.intersperse_cons_cons, List.all_cons, ih, Piece.isLevel_text,
        Bool.true_and]

@[simp] theorem isLevel_namesShape (names : List Name) :
    (namesShape names).all Piece.isLevel = true := by
  simp [namesShape]

/-- A piece that opens no level and closes none, and is no node. -/
def Piece.isPlain : Piece → Bool
  | .text _ | .lineBreak => true
  | .indent | .dedent | .node _ => false

theorem isLevel_of_isPlain {ps : List Piece} (h : ps.all Piece.isPlain = true) :
    ps.all Piece.isLevel = true := by
  rw [List.all_eq_true] at h ⊢
  intro p hp
  have hplain := h p hp
  cases p with
  | text _ | lineBreak => rfl
  | indent | dedent | node _ => exact absurd hplain (by simp [Piece.isPlain])

/-- Pieces that open a level and close it again, with nodes nowhere but in between. -/
def OneLevel (ps : List Piece) : Prop :=
  ∃ before inside after, ps = before ++ .indent :: (inside ++ .dedent :: after) ∧
    before.all Piece.isPlain = true ∧ inside.all Piece.isLevel = true ∧ after.all Piece.isPlain = true

/-- Whether the node is a block. -/
def Node.isBlock : Node → Bool
  | .chunk _ => true
  | _ => false

/-- Whether the node is a table with entries: on its own, as an expression or as arguments. -/
def Node.isFilledTable : Node → Bool
  | .table fields => !fields.isEmpty
  | .exp (.table fields) => !fields.isEmpty
  | .args (.table fields) => !fields.isEmpty
  | _ => false

/-- Whether the parts of the node stand one level deeper than the node itself. -/
def Node.opensLevel (n : Node) : Bool :=
  n.isBlock || n.isFilledTable

theorem oneLevel_chunk (body : Chunk) : OneLevel (Chunk.shape body) :=
  ⟨[], Chunk.lines body, [], by simp [Chunk.shape], rfl, by simp [Chunk.lines], rfl⟩

theorem oneLevel_table {fields : List Field} (h : (!fields.isEmpty) = true) :
    OneLevel (tableShape fields) := by
  rw [Bool.not_eq_true'] at h
  refine ⟨[.text "\x7b"], fields.flatMap fun f => [.lineBreak, .node (.field f), .text ","],
    [.lineBreak, .text "\x7d"], ?_, rfl, by simp, rfl⟩
  simp [tableShape, h]

/-- **A block and a table with entries open one level**, and close it behind their parts. -/
theorem oneLevel_shape {n : Node} (h : n.opensLevel = true) : OneLevel n.shape := by
  cases n with
  | chunk body => exact oneLevel_chunk body
  | table fields => exact oneLevel_table h
  | exp e =>
    cases e with
    | table fields => exact oneLevel_table h
    | _ => exact absurd h Bool.false_ne_true
  | args a =>
    cases a with
    | table fields => exact oneLevel_table h
    | _ => exact absurd h Bool.false_ne_true
  | _ => exact absurd h Bool.false_ne_true

theorem isLevel_emptyTable {fields : List Field} (h : (!fields.isEmpty) = false) :
    (tableShape fields).all Piece.isLevel = true := by
  rw [Bool.not_eq_false'] at h
  rw [tableShape, if_pos h]
  rfl

theorem isLevel_valuesAfter (lead : String) (values : List Exp) :
    (valuesAfter lead values).all Piece.isLevel = true := by
  unfold valuesAfter
  split <;> simp

theorem isLevel_stat (stat : Stat) : stat.shape.all Piece.isLevel = true := by
  cases stat with
  | ret values => simpa [Stat.shape] using isLevel_valuesAfter " " values
  | localVars names values => simpa [Stat.shape] using isLevel_valuesAfter " = " (values.getD [])
  | _ => simp [Stat.shape, Name.shape, bodyAndEnd]

/-- **Other nodes open no level.** -/
theorem isLevel_shape {n : Node} (h : n.opensLevel = false) : n.shape.all Piece.isLevel = true := by
  cases n with
  | chunk body => exact absurd h.symm Bool.false_ne_true
  | table fields => exact isLevel_emptyTable h
  | stat s => exact isLevel_stat s
  | exp e =>
    cases e with
    | table fields =>
      exact isLevel_emptyTable h
    | bool value => cases value <;> rfl
    | unary op operand =>
      simp only [Node.shape, Exp.shape, unaryGap]
      split <;> simp
    | _ => rfl
  | args a =>
    cases a with
    | table fields =>
      exact isLevel_emptyTable h
    | _ => rfl
  | elseIf c => cases c; rfl
  | funcBody b => cases b; rfl
  | funcName f => simp [Node.shape, FuncName.shape]
  | parList p =>
    simp only [Node.shape, ParList.shape]
    split <;> simp
  | prefixExp e => cases e <;> rfl
  | var v => cases v <;> rfl
  | call c => cases c <;> rfl
  | field f => cases f <;> rfl
  | nameList names => exact isLevel_namesShape names
  | expList es => simp [Node.shape, expsShape]
  | varList vs => simp [Node.shape, varsShape]
  | name _ => rfl

theorem depthAfter_of_oneLevel {ps : List Piece} (h : OneLevel ps) (depth : Nat) :
    depthAfter depth ps = depth := by
  obtain ⟨before, inside, after, rfl, hbefore, hinside, hafter⟩ := h
  rw [depthAfter_append, depthAfter_of_isLevel (isLevel_of_isPlain hbefore), depthAfter, depthAfter_append,
    depthAfter_of_isLevel hinside, depthAfter, depthAfter_of_isLevel (isLevel_of_isPlain hafter)]
  rfl

/-- **A shape leads back to the depth that it began at.** -/
theorem depthAfter_shape (n : Node) (depth : Nat) : depthAfter depth n.shape = depth := by
  cases h : n.opensLevel with
  | true => exact depthAfter_of_oneLevel (oneLevel_shape h) depth
  | false => exact depthAfter_of_isLevel (isLevel_shape h) depth

/-! ## Ground -/

/-- No level is closed that was not opened before, at this depth or among these pieces. -/
def Grounded : Nat → List Piece → Prop
  | _, [] => True
  | depth, .indent :: rest => Grounded (depth + 1) rest
  | depth, .dedent :: rest => 0 < depth ∧ Grounded (depth - 1) rest
  | depth, .text _ :: rest => Grounded depth rest
  | depth, .lineBreak :: rest => Grounded depth rest
  | depth, .node _ :: rest => Grounded depth rest

theorem grounded_append (depth : Nat) (ps qs : List Piece) :
    Grounded depth (ps ++ qs) ↔ Grounded depth ps ∧ Grounded (depthAfter depth ps) qs := by
  induction ps generalizing depth with
  | nil => exact ⟨fun h => ⟨trivial, h⟩, And.right⟩
  | cons p ps ih =>
    cases p with
    | dedent =>
      rw [List.cons_append, Grounded, Grounded, depthAfter, ih, and_assoc]
    | text t => exact ih depth
    | lineBreak => exact ih depth
    | indent => exact ih (depth + 1)
    | node n => exact ih depth

theorem grounded_of_isLevel {ps : List Piece} (h : ps.all Piece.isLevel = true) (depth : Nat) :
    Grounded depth ps :=
  isLevel_induction trivial (fun _ _ ih => ih) (fun _ ih => ih) (fun _ _ ih => ih) h

/-- **A shape closes no level but the one that it opens**, at whatever depth it stands. -/
theorem grounded_shape (n : Node) (depth : Nat) : Grounded depth n.shape := by
  cases h : n.opensLevel with
  | false => exact grounded_of_isLevel (isLevel_shape h) depth
  | true =>
    obtain ⟨before, inside, after, hshape, hbefore, hinside, hafter⟩ := oneLevel_shape h
    have hlevel := isLevel_of_isPlain hbefore
    have hclose : Grounded (depth + 1) (.dedent :: after) :=
      ⟨Nat.succ_pos depth, grounded_of_isLevel (isLevel_of_isPlain hafter) _⟩
    rw [hshape, grounded_append, depthAfter_of_isLevel hlevel, Grounded, grounded_append,
      depthAfter_of_isLevel hinside]
    exact ⟨grounded_of_isLevel hlevel depth, grounded_of_isLevel hinside _, hclose⟩

/-! ## Layouts -/

/-- A text that is not empty is an item. -/
theorem layoutPieces_text {t : String} (h : t.isEmpty = false) (depth : Nat) (rest : List Piece) :
    layoutPieces depth (.text t :: rest) = .cons (.text t) (layoutPieces depth rest) := by
  rw [layoutPieces, h]
  rfl

/-- **Pieces are laid out one list after the other**, the second where the first one leads. -/
theorem layoutPieces_append (depth : Nat) (ps qs : List Piece) :
    layoutPieces depth (ps ++ qs) =
      layoutPieces depth ps ++ layoutPieces (depthAfter depth ps) qs := by
  induction ps generalizing depth with
  | nil => simp [layoutPieces, depthAfter]
  | cons p ps ih =>
    cases p with
    | text t =>
      rw [List.cons_append, layoutPieces, layoutPieces, depthAfter]
      split
      · exact ih depth
      · rw [ih, Layout.cons_append]
    | lineBreak =>
      rw [List.cons_append, layoutPieces, layoutPieces, depthAfter, ih, Layout.cons_append]
    | indent => rw [List.cons_append, layoutPieces, layoutPieces, depthAfter, ih]
    | dedent => rw [List.cons_append, layoutPieces, layoutPieces, depthAfter, ih]
    | node n =>
      rw [List.cons_append, depthAfter]
      cases hn : n.pieces with
      | ok pieces =>
        rw [layoutPieces_of_ok hn, layoutPieces_of_ok hn, ih, Layout.append_assoc]
      | error fault =>
        rw [layoutPieces_of_error hn, layoutPieces_of_error hn, Layout.mk_some_append]

/-- The layout of pieces with a node in front: that of the node, and then that of the others. -/
theorem layoutPieces_node (depth : Nat) (n : Node) (rest : List Piece) :
    layoutPieces depth (.node n :: rest) = n.layout depth ++ layoutPieces depth rest :=
  layoutPieces_append depth [.node n] rest

/-- A node that is laid out passes its check, and is laid out as its shape. -/
theorem Node.eq_shape_of_pieces {n : Node} {pieces : List Piece} (h : n.pieces = .ok pieces) :
    n.fault? = none ∧ pieces = n.shape := by
  unfold Node.pieces at h
  split at h
  · simp at h
  · next hnone => exact ⟨hnone, (Except.ok.inj h).symm⟩

/-- The shape of a node may be put in its place. -/
theorem layoutPieces_shape_append {depth : Nat} {n : Node} {pieces : List Piece}
    (h : n.pieces = .ok pieces) (rest : List Piece) :
    layoutPieces depth (pieces ++ rest) = layoutPieces depth (.node n :: rest) := by
  rw [layoutPieces_of_ok h, layoutPieces_append, (Node.eq_shape_of_pieces h).2, depthAfter_shape]

end LuaUnparse
