import LuaUnparse.Proofs.Subnode
import Mathlib.Data.List.Basic

/-!
# `LuaUnparse.Proofs.Frame` — a node without its parts

A node is what it has itself, the frame, and its children. The frame has the names, the operators and the
texts of the node, and says how many children it has and of which categories; in the place of each child it
has a blank. Whatever a construct does by itself can be read off its frame, so most of what there is to say
about two trees is said by comparing frames and then children.

## Contents
- **Frames.** `Node.frame`, of the category of the node (`Node.ctorIdx_frame`), and `Node.numbers`, the number
  of a literal, which is no part of its frame.
- **Shapes.** `Piece.forget`, and `shape_frame`: what stands between the nodes of a shape is in the frame, but
  for the gap after a unary operator.
- **One child.** `shape_split`: two nodes of one frame that differ in one child have shapes that differ in the
  place of that child alone.
-/

namespace LuaUnparse

/-! ## Frames -/

/-- Stands for any function body. -/
def FuncBody.blank : FuncBody := .mk ⟨[], false⟩ []

/-- Stands for any expression that may be called or indexed. -/
def PrefixExp.blank : PrefixExp := .paren .nil

/-- Stands for any call. -/
def Call.blank : Call := .normal .blank (.list [])

/-- Stands for any expression list that may be left out: whether it is can be seen from outside. -/
def blankValues (values : List Exp) : List Exp :=
  if values.isEmpty then [] else [.nil]

/-- A table entry for each entry. -/
def blankFields (fields : List Field) : List Field :=
  fields.map fun _ => .positional .nil

/-- A statement without its parts. -/
def Stat.frame : Stat → Stat
  | .function _ _ => .function ⟨"", [], none⟩ .blank
  | .localFunction name _ => .localFunction name .blank
  | .ifThen _ _ elseIfs elseBody =>
    .ifThen .nil [] (elseIfs.map fun _ => .mk .nil []) (elseBody.map fun _ => [])
  | .numericFor var _ _ step _ => .numericFor var .nil .nil (step.map fun _ => .nil) []
  | .genericFor _ _ _ => .genericFor [] [] []
  | .call _ => .call .blank
  | .ret values => .ret (blankValues values)
  | .localVars _ values => .localVars [] (values.map blankValues)
  | .assign _ _ => .assign [] []
  | .block _ => .block []
  | .repeatUntil _ _ => .repeatUntil [] .nil
  | .whileDo _ _ => .whileDo .nil []
  | .breakLoop => .breakLoop

/-- An expression without its parts. A number literal keeps its spelling only. -/
def Exp.frame : Exp → Exp
  | .nil => .nil
  | .bool value => .bool value
  | .vararg => .vararg
  | .number lit => .number { lit with value := 0 }
  | .string lit => .string lit
  | .unary op _ => .unary op .nil
  | .binary _ op _ => .binary .nil op .nil
  | .function _ => .function .blank
  | .paren _ => .paren .nil
  | .table fields => .table (blankFields fields)
  | .prefixed _ => .prefixed .blank

namespace Node

/-- A node without its parts: each child is replaced by a blank of its category. -/
def frame : Node → Node
  | .chunk body => .chunk (body.map fun _ => .breakLoop)
  | .stat s => .stat s.frame
  | .elseIf _ => .elseIf (.mk .nil [])
  | .funcBody _ => .funcBody .blank
  | .funcName f => .funcName f
  | .parList params => .parList params
  | .exp e => .exp e.frame
  | .prefixExp (.var _) => .prefixExp (.var (.name ""))
  | .prefixExp (.call _) => .prefixExp (.call .blank)
  | .prefixExp (.paren _) => .prefixExp (.paren .nil)
  | .var (.name n) => .var (.name n)
  | .var (.index _ _) => .var (.index .blank .nil)
  | .var (.member _ n) => .var (.member .blank n)
  | .call (.normal _ _) => .call (.normal .blank (.list []))
  | .call (.method _ n _) => .call (.method .blank n (.list []))
  | .args (.list _) => .args (.list [])
  | .args (.table fields) => .args (.table (blankFields fields))
  | .args (.string lit) => .args (.string lit)
  | .field (.positional _) => .field (.positional .nil)
  | .field (.named n _) => .field (.named n .nil)
  | .field (.keyed _ _) => .field (.keyed .nil .nil)
  | .table fields => .table (blankFields fields)
  | .nameList names => .nameList names
  | .expList es => .expList (es.map fun _ => .nil)
  | .varList vs => .varList (vs.map fun _ => .name "")
  | .name n => .name n

/-- The number that a node is meant to be, if it is a number literal. -/
def numbers : Node → List Float
  | .exp (.number lit) => [lit.value]
  | _ => []

end Node

theorem Stat.ctorIdx_frame (s : Stat) : s.frame.ctorIdx = s.ctorIdx := by
  cases s <;> rfl

theorem Stat.ctorIdx_eq_of_frame {s s' : Stat} (h : s.frame = s'.frame) : s.ctorIdx = s'.ctorIdx := by
  rw [← ctorIdx_frame, h, ctorIdx_frame]

theorem Exp.ctorIdx_frame (e : Exp) : e.frame.ctorIdx = e.ctorIdx := by
  cases e <;> rfl

theorem Exp.ctorIdx_eq_of_frame {e e' : Exp} (h : e.frame = e'.frame) : e.ctorIdx = e'.ctorIdx := by
  rw [← ctorIdx_frame, h, ctorIdx_frame]

/-- A node and its frame are of one category. -/
theorem Node.ctorIdx_frame (n : Node) : n.frame.ctorIdx = n.ctorIdx := by
  cases n with
  | prefixExp e => cases e <;> rfl
  | var v => cases v <;> rfl
  | call c => cases c <;> rfl
  | args a => cases a <;> rfl
  | field f => cases f <;> rfl
  | _ => rfl

theorem Node.ctorIdx_eq_of_frame {a b : Node} (h : a.frame = b.frame) : a.ctorIdx = b.ctorIdx := by
  rw [← ctorIdx_frame, h, ctorIdx_frame]

/-! ## Shapes -/

/-- The piece, whichever node it is. -/
def Piece.forget : Piece → Piece
  | .node _ => .node (.name "")
  | p => p

/-- Parts that are written alike whatever they are. -/
theorem flatMap_blank {Part : Type} (f : Part → List Piece) (blank : Part)
    (h : ∀ part, (f part).map Piece.forget = (f blank).map Piece.forget) (parts : List Part) :
    ((parts.map fun _ => blank).flatMap f).map Piece.forget = (parts.flatMap f).map Piece.forget := by
  rw [List.flatMap_map, List.map_flatMap, List.map_flatMap]
  exact List.flatMap_congr fun part _ => (h part).symm

theorem separated_blank {Part : Type} (f : Part → Node) (blank : Part) (parts : List Part) :
    (separated ((parts.map fun _ => blank).map fun part => .node (f part))).map Piece.forget =
      (separated (parts.map fun part => .node (f part))).map Piece.forget := by
  rw [separated_map rfl, separated_map rfl, List.map_map, List.map_map, List.map_map]
  rfl

theorem lines_blank (body : Chunk) :
    (Chunk.lines (body.map fun _ => .breakLoop)).map Piece.forget = (Chunk.lines body).map Piece.forget :=
  flatMap_blank (fun s => [.lineBreak, .node (.stat s)]) .breakLoop (fun _ => rfl) body

theorem tableShape_blank (fields : List Field) :
    (tableShape (blankFields fields)).map Piece.forget = (tableShape fields).map Piece.forget := by
  have hentries := flatMap_blank (fun f => [.lineBreak, .node (.field f), .text ","]) (.positional .nil)
    (fun _ => rfl) fields
  unfold tableShape blankFields
  rw [List.isEmpty_map]
  split
  · rfl
  · rw [List.map_append, List.map_append, List.map_append, List.map_append, hentries]

theorem valuesAfter_blank (lead : String) (values : List Exp) :
    (valuesAfter lead (blankValues values)).map Piece.forget =
      (valuesAfter lead values).map Piece.forget := by
  cases values <;> rfl

theorem stat_shape_frame (s : Stat) : s.frame.shape.map Piece.forget = s.shape.map Piece.forget := by
  cases s with
  | ifThen condition body elseIfs elseBody =>
    have hclauses := flatMap_blank (fun c => [.lineBreak, .node (.elseIf c)]) (.mk .nil [])
      (fun _ => rfl) elseIfs
    cases elseBody <;>
      simp only [Stat.frame, Stat.shape, List.map_append, hclauses] <;> rfl
  | numericFor var start stop step body => cases step <;> rfl
  | ret values =>
    rw [Stat.frame, Stat.shape, Stat.shape, List.map_cons, List.map_cons, valuesAfter_blank]
  | localVars names values =>
    cases values with
    | none => rfl
    | some values =>
      show List.map Piece.forget ([Piece.text "local ", Piece.node (.nameList [])] ++
        valuesAfter " = " (blankValues values)) = _
      rw [List.map_append, valuesAfter_blank, Stat.shape, List.map_append]
      rfl
  | _ => rfl

/-- The number of operands of an operator; 0 for any other node. -/
def Node.operands : Node → Nat
  | .exp (.unary ..) => 1
  | .exp (.binary ..) => 2
  | _ => 0

/-- **What stands between the nodes of a shape is in the frame.** A unary operator looks at its operand. -/
theorem shape_frame {n : Node} (h : n.operands ≠ 1) :
    n.frame.shape.map Piece.forget = n.shape.map Piece.forget := by
  cases n with
  | chunk body =>
    rw [Node.frame, Node.shape, Node.shape, Chunk.shape, Chunk.shape, List.map_append, List.map_append,
      List.map_cons, List.map_cons, lines_blank]
    rfl
  | stat s => exact stat_shape_frame s
  | elseIf c => cases c; rfl
  | funcBody b => cases b; rfl
  | exp e =>
    cases e with
    | bool value => cases value <;> rfl
    | unary op operand => exact absurd rfl h
    | table fields => exact tableShape_blank fields
    | _ => rfl
  | prefixExp e => cases e <;> rfl
  | var v => cases v <;> rfl
  | call c => cases c <;> rfl
  | args a =>
    cases a with
    | table fields => exact tableShape_blank fields
    | _ => rfl
  | field f => cases f <;> rfl
  | table fields => exact tableShape_blank fields
  | expList es => exact separated_blank .exp .nil es
  | varList vs => exact separated_blank .var (.name "") vs
  | funcName _ | parList _ | nameList _ | name _ => rfl

theorem operands_frame (n : Node) : n.frame.operands = n.operands := by
  cases n with
  | exp e => cases e <;> rfl
  | prefixExp e => cases e <;> rfl
  | var v => cases v <;> rfl
  | call c => cases c <;> rfl
  | args a => cases a <;> rfl
  | field f => cases f <;> rfl
  | _ => rfl

theorem operands_eq_of_frame {a b : Node} (h : a.frame = b.frame) : a.operands = b.operands := by
  rw [← operands_frame, h, operands_frame]

theorem eq_unary_of_operands {a : Node} (h : a.operands = 1) : ∃ op x, a = .exp (.unary op x) := by
  unfold Node.operands at h
  split at h <;> simp_all

theorem eq_binary_of_operands {a : Node} (h : a.operands = 2) : ∃ x op y, a = .exp (.binary x op y) := by
  unfold Node.operands at h
  split at h <;> simp_all

/-! ## One child -/

/-- Two pieces that are the same whichever node they are are no nodes, or two of them. -/
theorem Piece.eq_or_nodes_of_forget {p q : Piece} (h : p.forget = q.forget) :
    p = q ∧ nodesIn [p] = [] ∨ ∃ m m', p = .node m ∧ q = .node m' := by
  cases p <;> cases q <;> simp_all [Piece.forget, nodesIn]

theorem nodesIn_cons (p : Piece) (ps : List Piece) : nodesIn (p :: ps) = nodesIn [p] ++ nodesIn ps :=
  nodesIn_append [p] ps

/-- Pieces are fixed by what stands between their nodes, and by their nodes. -/
theorem eq_of_forget {ps qs : List Piece} (h : ps.map Piece.forget = qs.map Piece.forget)
    (hnodes : nodesIn ps = nodesIn qs) : ps = qs := by
  induction ps generalizing qs with
  | nil => exact (List.map_eq_nil_iff.mp h.symm).symm
  | cons p ps ih =>
    obtain ⟨q, qs, rfl, hp, htail⟩ := List.map_eq_cons_iff.mp h.symm
    rcases Piece.eq_or_nodes_of_forget hp.symm with ⟨rfl, hplain⟩ | ⟨m, m', rfl, rfl⟩
    · rw [nodesIn_cons, nodesIn_cons p qs, hplain] at hnodes
      rw [ih htail.symm hnodes]
    · obtain ⟨rfl, hrest⟩ := List.cons.inj hnodes
      rw [ih htail.symm hrest]

/-- **Pieces that differ in one node differ in the place of that node alone.** -/
theorem split_of_forget {ps qs : List Piece} {left right : List Node} {c c' : Node}
    (h : ps.map Piece.forget = qs.map Piece.forget) (hps : nodesIn ps = left ++ c :: right)
    (hqs : nodesIn qs = left ++ c' :: right) :
    ∃ before after, ps = before ++ Piece.node c :: after ∧ qs = before ++ Piece.node c' :: after ∧
      nodesIn before = left := by
  induction ps generalizing qs left with
  | nil => exact absurd hps (by simp [nodesIn])
  | cons p ps ih =>
    obtain ⟨q, qs, rfl, hp, htail⟩ := List.map_eq_cons_iff.mp h.symm
    rcases Piece.eq_or_nodes_of_forget hp.symm with ⟨rfl, hplain⟩ | ⟨m, m', rfl, rfl⟩
    · -- no node stands here
      rw [nodesIn_cons, hplain] at hps hqs
      obtain ⟨before, after, rfl, rfl, hbefore⟩ := ih htail.symm hps hqs
      exact ⟨p :: before, after, rfl, rfl, by rw [nodesIn_cons, hplain, hbefore]; rfl⟩
    · cases left with
      | nil =>
        obtain ⟨rfl, hright⟩ := List.cons.inj hps
        obtain ⟨rfl, hright'⟩ := List.cons.inj hqs
        have hrest : ps = qs := eq_of_forget htail.symm (hright.trans hright'.symm)
        exact ⟨[], ps, rfl, by rw [hrest]; rfl, rfl⟩
      | cons l left =>
        obtain ⟨rfl, hpsRest⟩ := List.cons.inj hps
        obtain ⟨rfl, hqsRest⟩ := List.cons.inj hqs
        obtain ⟨before, after, rfl, rfl, hbefore⟩ := ih htail.symm hpsRest hqsRest
        exact ⟨.node m' :: before, after, rfl, rfl, congrArg (m' :: ·) hbefore⟩

/-- **Two nodes of one frame that differ in one child are written alike but for the place of that child.** -/
theorem shape_split {a b c c' : Node} {left right : List Node} (hunary : a.operands ≠ 1)
    (hframe : a.frame = b.frame) (ha : a.children = left ++ c :: right)
    (hb : b.children = left ++ c' :: right) :
    ∃ before after, a.shape = before ++ Piece.node c :: after ∧
      b.shape = before ++ Piece.node c' :: after ∧ nodesIn before = left := by
  have hunary' : b.operands ≠ 1 := operands_eq_of_frame hframe ▸ hunary
  apply split_of_forget
  · rw [← shape_frame hunary, ← shape_frame hunary', hframe]
  · rw [nodesIn_shape, ha]
  · rw [nodesIn_shape, hb]

end LuaUnparse
