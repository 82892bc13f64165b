import LuaUnparse.Proofs.Failure
import LuaUnparse.Proofs.Reading.Plain

/-!
# `LuaUnparse.Proofs.Erasure` — what is never written does not matter

The parts of a tree that erasing leaves out have no part in its layout: neither in what is written nor in
whether it can be. So two trees that are the same once erased are written alike, in every style.

## Contents
- **Shapes.** `Piece.erase`, and `shape_erase`: the shape of an erased node has the same texts.
- **Layouts.** `layout_erase`, by induction on the tree.
- **Whole texts.** `unparse_erase`.
-/

namespace LuaUnparse

/-! ## Shapes -/

/-- The piece with its node erased. -/
def Piece.erase : Piece → Piece
  | .node n => .node n.erase
  | p => p

/-- What goes through a list member by member maps it. -/
theorem eq_map_of_cons {Part : Type} {f : Part → Part} {all : List Part → List Part} (hnil : all [] = [])
    (hcons : ∀ a as, all (a :: as) = f a :: all as) (parts : List Part) : all parts = parts.map f := by
  induction parts with
  | nil => exact hnil
  | cons a rest ih => rw [hcons, ih, List.map_cons]

theorem Stat.eraseAll_eq (body : Chunk) : Stat.eraseAll body = body.map Stat.erase :=
  eq_map_of_cons rfl (fun _ _ => rfl) body

theorem ElseIf.eraseAll_eq (clauses : List ElseIf) :
    ElseIf.eraseAll clauses = clauses.map ElseIf.erase :=
  eq_map_of_cons rfl (fun _ _ => rfl) clauses

theorem Exp.eraseAll_eq (es : List Exp) : Exp.eraseAll es = es.map Exp.erase :=
  eq_map_of_cons rfl (fun _ _ => rfl) es

theorem Var.eraseAll_eq (vs : List Var) : Var.eraseAll vs = vs.map Var.erase :=
  eq_map_of_cons rfl (fun _ _ => rfl) vs

theorem Field.eraseAll_eq (fields : List Field) : Field.eraseAll fields = fields.map Field.erase :=
  eq_map_of_cons rfl (fun _ _ => rfl) fields

theorem lines_erase (body : Chunk) :
    Chunk.lines (Stat.eraseAll body) = (Chunk.lines body).map Piece.erase := by
  rw [Stat.eraseAll_eq, Chunk.lines, Chunk.lines, List.flatMap_map, List.map_flatMap]
  rfl

theorem expsShape_erase (es : List Exp) :
    expsShape (Exp.eraseAll es) = (expsShape es).map Piece.erase := by
  rw [Exp.eraseAll_eq, expsShape, expsShape, separated_map rfl, List.map_map, List.map_map]
  rfl

theorem varsShape_erase (vs : List Var) :
    varsShape (Var.eraseAll vs) = (varsShape vs).map Piece.erase := by
  rw [Var.eraseAll_eq, varsShape, varsShape, separated_map rfl, List.map_map, List.map_map]
  rfl

theorem namesShape_erase (names : List Name) : (namesShape names).map Piece.erase = namesShape names := by
  rw [namesShape, separated_map rfl, List.map_map]
  rfl

theorem tableShape_erase (fields : List Field) :
    tableShape (Field.eraseAll fields) = (tableShape fields).map Piece.erase := by
  rw [Field.eraseAll_eq, tableShape, tableShape, List.isEmpty_map]
  split
  · rfl
  · simp [List.flatMap_map, List.map_flatMap, Piece.erase, Node.erase]

theorem valuesAfter_erase (lead : String) (values : List Exp) :
    valuesAfter lead (Exp.eraseAll values) = (valuesAfter lead values).map Piece.erase := by
  cases values <;> rfl

theorem startsWithMinus_erase : ∀ e : Exp, e.erase.startsWithMinus = e.startsWithMinus
  | .binary left _ _ => startsWithMinus_erase left
  | .unary .. | .nil | .bool _ | .vararg | .number _ | .string _ | .function _ | .paren _ | .table _
  | .prefixed _ => rfl

theorem stat_shape_erase (s : Stat) : s.erase.shape = s.shape.map Piece.erase := by
  cases s with
  | ifThen condition body elseIfs elseBody =>
    cases elseBody <;>
      simp [Stat.erase, Stat.shape, ElseIf.eraseAll_eq, List.flatMap_map, List.map_flatMap, Piece.erase,
        Node.erase]
  | numericFor var start stop step body => cases step <;> rfl
  | ret values =>
    rw [Stat.erase, Stat.shape, Stat.shape, valuesAfter_erase]
    rfl
  | localVars names values =>
    rcases values with _ | _ | ⟨value, values⟩
    · rfl
    · rfl
    · rfl
  | _ => rfl

/-- Parentheses around an expression are written alike whether it may be called or not. -/
def Exp.isParen : Exp → Bool
  | .paren _ => true
  | _ => false

theorem exp_shape_erase {e : Exp} (h : e.isParen = false) : e.erase.shape = e.shape.map Piece.erase := by
  cases e with
  | bool value => cases value <;> rfl
  | unary op operand =>
    simp only [Exp.erase, Exp.shape, unaryGap, startsWithMinus_erase]
    split <;> rfl
  | paren inner => exact absurd h (by simp [Exp.isParen])
  | table fields => exact tableShape_erase fields
  | _ => rfl

/-- The nodes of a shape are erased in their places, and its texts stay. -/
theorem shape_erase {n : Node} (h : ∀ e, n = .exp e → e.isParen = false) :
    n.erase.shape = n.shape.map Piece.erase := by
  cases n with
  | chunk body =>
    show Chunk.shape (Stat.eraseAll body) = (Chunk.shape body).map Piece.erase
    rw [Chunk.shape, Chunk.shape, lines_erase, List.map_append]
    rfl
  | stat s => exact stat_shape_erase s
  | elseIf c => cases c; rfl
  | funcBody b => cases b; rfl
  | exp e => exact exp_shape_erase (h e rfl)
  | prefixExp e => cases e <;> rfl
  | var v => cases v <;> rfl
  | call c => cases c <;> rfl
  | args a =>
    cases a with
    | table fields => exact tableShape_erase fields
    | _ => rfl
  | field f => cases f <;> rfl
  | table fields => exact tableShape_erase fields
  | nameList names => exact (namesShape_erase names).symm
  | expList es => exact expsShape_erase es
  | varList vs => exact varsShape_erase vs
  | funcName name =>
    show name.shape = name.shape.map Piece.erase
    simp [FuncName.shape, List.map_flatMap, Piece.erase]
  | parList params =>
    show params.shape = params.shape.map Piece.erase
    simp only [ParList.shape, List.map_cons, List.map_append, namesShape_erase]
    split <;> rfl
  | name n => rfl

/-! ## Layouts -/

theorem fault?_erase (n : Node) : n.erase.fault? = n.fault? := by
  cases n with
  | stat s =>
    cases s with
    | ifThen condition body elseIfs elseBody => cases elseBody <;> rfl
    | numericFor var start stop step body => cases step <;> rfl
    | genericFor names values body => cases values <;> rfl
    | localVars names values =>
      rcases values with _ | _ | ⟨value, values⟩
      · rfl
      · rfl
      · rfl
    | assign targets values => cases targets <;> cases values <;> rfl
    | _ => rfl
  | exp e => cases e <;> rfl
  | var v => cases v <;> rfl
  | call c => cases c <;> rfl
  | field f => cases f <;> rfl
  | _ => rfl

/-- Erased pieces are laid out as they were, if the nodes among them are. -/
theorem layoutPieces_erase {ps : List Piece}
    (h : ∀ n ∈ nodesIn ps, ∀ depth, n.erase.layout depth = n.layout depth) (depth : Nat) :
    layoutPieces depth (ps.map Piece.erase) = layoutPieces depth ps := by
  induction ps generalizing depth with
  | nil => rfl
  | cons p ps ih =>
    cases p with
    | node n =>
      have hps := ih (fun m hm => h m (List.mem_cons_of_mem n hm)) depth
      show layoutPieces depth (.node n.erase :: ps.map Piece.erase) = _
      rw [layoutPieces_node, layoutPieces_node, h n List.mem_cons_self depth, hps]
    | text t =>
      show layoutPieces depth (.text t :: ps.map Piece.erase) = _
      rw [layoutPieces, layoutPieces, ih h depth]
    | lineBreak =>
      show layoutPieces depth (.lineBreak :: ps.map Piece.erase) = _
      rw [layoutPieces, layoutPieces, ih h depth]
    | indent =>
      show layoutPieces depth (.indent :: ps.map Piece.erase) = _
      rw [layoutPieces, layoutPieces, ih h (depth + 1)]
    | dedent =>
      show layoutPieces depth (.dedent :: ps.map Piece.erase) = _
      rw [layoutPieces, layoutPieces, ih h (depth - 1)]

/-- **An erased node is laid out as it was.** -/
theorem layout_erase (n : Node) (depth : Nat) : n.erase.layout depth = n.layout depth := by
  induction n using Node.inductionOn generalizing depth with
  | h n ih =>
    cases hf : n.fault? with
    | some fault => rw [Node.layout_of_fault hf, Node.layout_of_fault ((fault?_erase n).trans hf)]
    | none =>
      rw [Node.layout_of_none hf, Node.layout_of_none ((fault?_erase n).trans hf)]
      -- the nodes in the shape are the children, of which the induction speaks
      have hpieces := layoutPieces_erase (nodesIn_shape n ▸ ih) depth
      by_cases hparen : ∃ inner, n = .exp (.paren inner)
      · -- the parentheses are written by a node of their own
        obtain ⟨inner, rfl⟩ := hparen
        exact (Node.layout_of_none rfl depth).trans hpieces
      · rw [shape_erase, hpieces]
        rintro e rfl
        cases e with
        | paren inner => exact absurd ⟨inner, rfl⟩ hparen
        | _ => rfl

theorem rootLayout_erase (root : Node) : root.erase.rootLayout = root.rootLayout := by
  cases root with
  | chunk body =>
    show layoutPieces 0 (Chunk.lines (Stat.eraseAll body)) = layoutPieces 0 (Chunk.lines body)
    rw [lines_erase]
    exact layoutPieces_erase (fun n _ => layout_erase n) 0
  | _ => exact layout_erase _ 0

/-! ## Whole texts -/

/-- **A tree is written as it is once erased**, in every style, and it cannot be written for the same
reason. -/
theorem unparse_erase (root : Node) (style : Style) : unparse root.erase style = unparse root style := by
  rw [unparse_eq_layout, unparse_eq_layout, rootLayout_erase]

end LuaUnparse
