import LuaUnparse.Rule.Shape

/-!
# `LuaUnparse.Rule.Weight` — a layout weighs less than its node

Replacing a node by its layout leaves less work than before: this is why writing a tree ends.

## Contents
- **Weights.** `Piece.weight` and `weight`, the sum over a list of pieces.
- **Lists.** `weight_flatMap_le` and `weight_separated_map_le`, which bound a list member by member.
- **Decrease.** `weight_shape_lt`: a shape weighs less than the node that it is the shape of.
-/

namespace LuaUnparse

/-! ## Weights -/

/-- The work that a piece stands for. The factor leaves room for all that a part of a tree writes itself. -/
def Piece.weight : Piece → Nat
  | .node n => 8 * n.size
  | _ => 1

/-- The work that a list of pieces stands for. -/
def weight : List Piece → Nat
  | [] => 0
  | p :: ps => p.weight + weight ps

@[simp] theorem weight_nil : weight [] = 0 := rfl

@[simp] theorem weight_cons (p : Piece) (ps : List Piece) :
    weight (p :: ps) = p.weight + weight ps := rfl

@[simp] theorem weight_append (ps qs : List Piece) :
    weight (ps ++ qs) = weight ps + weight qs := by
  induction ps with
  | nil => simp
  | cons p ps ih =>
    rw [List.cons_append, weight_cons, weight_cons, ih, Nat.add_assoc]

/-! ## Lists -/

section Lists

variable {Part : Type}

/-- A bound that grows with every member of a list by what the pieces of the member weigh bounds the pieces
of all of them. -/
theorem weight_flatMap_le {f : Part → List Piece} (bound : List Part → Nat)
    (hcons : ∀ part parts, weight (f part) + bound parts ≤ bound (part :: parts)) (parts : List Part) :
    weight (parts.flatMap f) + bound [] ≤ bound parts := by
  induction parts with
  | nil => simp
  | cons part parts ih =>
    have hpart := hcons part parts
    rw [List.flatMap_cons, weight_append]
    omega

/-- Each comma weighs one, and there are no more commas than pieces. -/
theorem weight_separated_le (ps : List Piece) :
    weight (separated ps) ≤ weight (ps.flatMap fun p => [p, .text ", "]) := by
  unfold separated
  induction ps with
  | nil => simp
  | cons p ps ih =>
    cases ps with
    | nil => simp
    | cons q qs =>
      simp only [List.intersperse_cons_cons, List.flatMap_cons, weight_append, weight_cons, weight_nil] at *
      omega

/-- The members of a list, each one piece, with commas between them. -/
theorem weight_separated_map_le {f : Part → Piece} (bound : List Part → Nat)
    (hcons : ∀ part parts, weight [f part, .text ", "] + bound parts ≤ bound (part :: parts))
    (parts : List Part) : weight (separated (parts.map f)) + bound [] ≤ bound parts := by
  have hcommas := weight_separated_le (parts.map f)
  have hall := weight_flatMap_le bound hcons parts
  rw [List.flatMap_map] at hcommas
  omega

end Lists

theorem weight_namesShape_le (names : List Name) : weight (namesShape names) ≤ 2 * names.length := by
  apply weight_separated_map_le fun names => 2 * names.length
  intro name names
  simp [Piece.weight]
  omega

theorem weight_expsShape_le (exps : List Exp) : weight (expsShape exps) + 8 ≤ 8 * Exp.sizeAll exps := by
  apply weight_separated_map_le fun exps => 8 * Exp.sizeAll exps
  intro exp exps
  simp [Exp.sizeAll, Piece.weight, Node.size]
  omega

theorem weight_varsShape_le (vars : List Var) : weight (varsShape vars) + 8 ≤ 8 * Var.sizeAll vars := by
  apply weight_separated_map_le fun vars => 8 * Var.sizeAll vars
  intro var vars
  simp [Var.sizeAll, Piece.weight, Node.size]
  omega

theorem weight_lines_le (body : Chunk) : weight (Chunk.lines body) + 8 ≤ 8 * Stat.sizeAll body := by
  apply weight_flatMap_le fun body => 8 * Stat.sizeAll body
  intro stat body
  simp [Stat.sizeAll, Piece.weight, Node.size]
  omega

theorem weight_elseIfs_le (clauses : List ElseIf) :
    weight (clauses.flatMap fun c => [.lineBreak, .node (.elseIf c)]) ≤
      8 * ElseIf.sizeAll clauses := by
  apply weight_flatMap_le fun clauses => 8 * ElseIf.sizeAll clauses
  intro clause clauses
  simp [ElseIf.sizeAll, Piece.weight, Node.size]
  omega

theorem weight_entries_le (fields : List Field) :
    weight (fields.flatMap fun f => [.lineBreak, .node (.field f), .text ","]) + 8 ≤
      8 * Field.sizeAll fields := by
  apply weight_flatMap_le fun fields => 8 * Field.sizeAll fields
  intro field fields
  simp [Field.sizeAll, Piece.weight, Node.size]
  omega

theorem weight_indexers_le (names : List Name) :
    weight (names.flatMap fun n : Name => [.text ".", .text n]) ≤ 2 * names.length := by
  apply weight_flatMap_le fun names => 2 * names.length
  intro name names
  simp [Piece.weight]
  omega

theorem weight_valuesAfter_le (lead : String) (values : List Exp) :
    weight (valuesAfter lead values) ≤ 1 + 8 * Exp.sizeAll values := by
  unfold valuesAfter
  split <;> simp [Piece.weight, Node.size]

theorem weight_tableShape_lt (fields : List Field) :
    weight (tableShape fields) < 8 * Field.sizeAll fields := by
  have h := weight_entries_le fields
  unfold tableShape
  split <;> simp [Piece.weight] <;> omega

/-! ## Decrease -/

theorem weight_funcName_lt (name : FuncName) : weight name.shape < 8 * name.size := by
  have h := weight_indexers_le name.indexers
  cases hm : name.method <;>
    simp [FuncName.shape, FuncName.size, Piece.weight, hm] <;> omega

theorem weight_parList_lt (params : ParList) : weight params.shape < 8 * params.size := by
  have h := weight_namesShape_le params.names
  unfold ParList.shape ParList.size
  cases params.vararg <;> simp [Piece.weight] <;> omega

theorem weight_unaryGap_le (op : UnOp) (operand : Exp) : weight (unaryGap op operand) ≤ 1 := by
  unfold unaryGap
  split <;> simp [Piece.weight]

theorem weight_exp_lt (exp : Exp) : weight exp.shape < 8 * exp.size := by
  cases exp with
  | bool value => cases value <;> simp [Exp.shape, Exp.size, Piece.weight]
  | unary op operand =>
    have h := weight_unaryGap_le op operand
    simp [Exp.shape, Exp.size, Piece.weight, Node.size]
    omega
  | table fields =>
    have h := weight_tableShape_lt fields
    simp [Exp.shape, Exp.size]
    omega
  | _ =>
    simp [Exp.shape, StringLit.shape, Exp.size, Piece.weight, Node.size] <;> omega

theorem weight_stat_lt (stat : Stat) : weight stat.shape < 8 * stat.size := by
  cases stat with
  | ifThen condition body elseIfs elseBody =>
    have h := weight_elseIfs_le elseIfs
    cases elseBody <;> simp [Stat.shape, Stat.size, Piece.weight, Node.size] <;> omega
  | numericFor var start stop step body =>
    cases step <;>
      simp [Stat.shape, Name.shape, bodyAndEnd, Stat.size, Piece.weight, Node.size] <;> omega
  | ret values =>
    have h := weight_valuesAfter_le " " values
    simp [Stat.shape, Stat.size, Piece.weight]
    omega
  | localVars names values =>
    cases values with
    | none =>
      simp [Stat.shape, valuesAfter, Stat.size, Piece.weight, Node.size]
      omega
    | some values =>
      have h := weight_valuesAfter_le " = " values
      simp [Stat.shape, Stat.size, Piece.weight, Node.size]
      omega
  | _ =>
    simp [Stat.shape, Name.shape, bodyAndEnd, Stat.size, Piece.weight, Node.size] <;> omega

theorem weight_args_lt (args : Args) : weight args.shape < 8 * args.size := by
  cases args with
  | table fields =>
    have h := weight_tableShape_lt fields
    simp [Args.shape, Args.size]
    omega
  | _ => simp [Args.shape, StringLit.shape, Args.size, Piece.weight, Node.size] <;> omega

/-- **A layout weighs less than its node.** -/
theorem weight_shape_lt (n : Node) : weight n.shape < 8 * n.size := by
  cases n with
  | chunk b =>
    have h := weight_lines_le b
    simp [Node.shape, Chunk.shape, Node.size, Piece.weight]
    omega
  | stat s => exact weight_stat_lt s
  | elseIf c =>
    cases c
    simp [Node.shape, ElseIf.shape, Node.size, ElseIf.size, Piece.weight]
    omega
  | funcBody b =>
    cases b
    simp [Node.shape, FuncBody.shape, Node.size, FuncBody.size, Piece.weight]
    omega
  | funcName f => exact weight_funcName_lt f
  | parList p => exact weight_parList_lt p
  | exp e => exact weight_exp_lt e
  | prefixExp e =>
    cases e with
    | paren inner =>
      simp [Node.shape, PrefixExp.shape, Node.size, PrefixExp.size, Piece.weight]
      omega
    | _ => simp [Node.shape, PrefixExp.shape, Node.size, PrefixExp.size, Piece.weight]
  | var v =>
    cases v <;> simp [Node.shape, Var.shape, Name.shape, Node.size, Var.size, Piece.weight] <;> omega
  | call c =>
    cases c <;> simp [Node.shape, Call.shape, Name.shape, Node.size, Call.size, Piece.weight] <;> omega
  | args a => exact weight_args_lt a
  | field f =>
    cases f <;>
      simp [Node.shape, Field.shape, Name.shape, Node.size, Field.size, Piece.weight] <;> omega
  | table fs => exact weight_tableShape_lt fs
  | nameList ns =>
    have h := weight_namesShape_le ns
    simp [Node.shape, Node.size]
    omega
  | expList es =>
    have h := weight_expsShape_le es
    simp [Node.shape, Node.size]
    omega
  | varList vs =>
    have h := weight_varsShape_le vs
    simp [Node.shape, Node.size]
    omega
  | name n => simp [Node.shape, Name.shape, Node.size, Piece.weight]

/-- Laying a node out leaves less work than the node stands for. -/
theorem weight_pieces_lt {n : Node} {pieces : List Piece} (h : n.pieces = .ok pieces) :
    weight pieces < 8 * n.size := by
  unfold Node.pieces at h
  split at h
  · simp at h
  · exact Except.ok.inj h ▸ weight_shape_lt n

/-- A run begins with no more work than its root stands for. -/
theorem weight_opening_le (n : Node) : weight n.opening ≤ 8 * n.size := by
  cases n with
  | chunk b =>
    have h := weight_lines_le b
    simp [Node.opening, Node.size]
    omega
  | _ => simp [Node.opening, Piece.weight]

end LuaUnparse
